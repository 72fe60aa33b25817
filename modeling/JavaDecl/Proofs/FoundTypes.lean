import JavaDecl.Proofs.FoundAnnotations

/-!
# Types in the headers of declarations

The header of a declaration has the tokens of types, with annotations between them that belong to
no declaration. Commas stand in lists and between type arguments.
-/

namespace JavaDecl

/-- The tokens of types, and the words between them in headers. -/
def isHeaderToken (kind : TokenKind) : Bool :=
  kind == .identifier || kind.isPrimitiveType ||
    [TokenKind.mark .dot, .mark .question, .mark .ampersand, .mark .leftBracket,
      .mark .rightBracket, .mark .ellipsis, .keyword .extendsKw, .keyword .superKw,
      .keyword .implementsKw, .keyword .throwsKw].contains kind

/-- Types and the words between them, with annotations. Outside of type arguments there are
commas only if they are allowed. -/
inductive HeaderText (source : List Char) : Bool → List Char → List Char → Prop where
  | done {commas : Bool} {text : List Char} : HeaderText source commas text text
  | token {commas : Bool} {text rest : List Char} {head : Head} : Head.of? text = some head →
      isHeaderToken head.kind = true → HeaderText source commas head.rest rest →
        HeaderText source commas text rest
  | comma {text rest : List Char} {head : Head} : Head.of? text = some head →
      head.kind = .mark .comma → HeaderText source true head.rest rest →
        HeaderText source true text rest
  | annotated {commas : Bool} {text mid rest : List Char} {use : AnnotationUse TypeExpr} :
      UseText source (.use use) text mid → HeaderText source commas mid rest →
        HeaderText source commas text rest
  | angled {commas : Bool} {text mid rest : List Char} {opening closing : Head} :
      Head.of? text = some opening → opening.kind = .mark .less →
        HeaderText source true opening.rest mid → Head.of? mid = some closing →
          closing.kind = .mark .greater → HeaderText source commas closing.rest rest →
            HeaderText source commas text rest

namespace HeaderText

variable {source text mid rest : List Char} {commas : Bool} {head : Head} {count : Nat}

theorem append (first : HeaderText source commas text mid)
    (second : HeaderText source commas mid rest) : HeaderText source commas text rest := by
  induction first with
  | done => exact second
  | token found inside _ ih => exact .token found inside (ih second)
  | comma found isComma _ ih => exact .comma found isComma (ih second)
  | annotated use _ ih => exact .annotated use (ih second)
  | angled found opens inner closing closes _ _ ih =>
      exact .angled found opens inner closing closes (ih second)

theorem ofPairs (pairs : BracketPairs count text rest) : HeaderText source commas text rest := by
  induction pairs with
  | none => exact .done
  | pair found opens further closes _ ih =>
      exact .token found (by rw [opens]; rfl) (.token further (by rw [closes]; rfl) ih)

end HeaderText

namespace ReadM

variable {α β σ : Type} {source : List Char} {commas : Bool} {budget : Nat}

/-- A part of the grammar takes what may stand in a header. -/
def Skims {α : Type} (source : List Char) (commas : Bool) (part : ReadM α) : Prop :=
  ∀ text, Detects source part text fun _ rest => HeaderText source commas text rest

namespace Skims

variable {part other : ReadM α} {next : α → ReadM β} {kind : TokenKind}

theorem pure (value : α) : Skims source commas (Pure.pure value) := fun _ => .give .done

theorem bind (first : Skims source commas part)
    (second : ∀ value, Skims source commas (next value)) :
    Skims source commas (part >>= next) := fun text =>
  (first text).find fun value mid one => (second value mid).mono
    fun _ _ _ ⟨quiet, two⟩ => ⟨quiet, one.append two⟩

theorem ite {condition : Prop} [Decidable condition] (yes : Skims source commas part)
    (no : Skims source commas other) :
    Skims source commas (if condition then part else other) := by
  split
  · exact yes
  · exact no

theorem exhausted : Skims source commas (ReadM.exhausted : ReadM α) := fun _ => .exhausted

theorem looking (stays : ∀ text, Detects source part text fun _ rest => rest = text) :
    Skims source commas part := fun text =>
  (stays text).imp fun _ _ left => left ▸ .done

theorem kindAt_stays (skipped : Nat) (text : List Char) :
    Detects source (kindAt skipped) text fun _ rest => rest = text :=
  (peek_finds_heads skipped text).bind fun _ _ _ ⟨left, quiet, _⟩ => .pure ⟨by simp [quiet], left⟩

theorem kindAt (skipped : Nat) : Skims source commas (ReadM.kindAt skipped) :=
  .looking (kindAt_stays skipped)

theorem isAt (skipped : Nat) (kind : TokenKind) : Skims source commas (isAt skipped kind) :=
  (Skims.kindAt skipped).bind fun _ => .pure _

theorem both {one two : ReadM Bool} (first : Skims source commas one)
    (second : Skims source commas two) : Skims source commas (one <&&> two) := by
  rw [Leads.and_eq]
  exact first.bind fun _ => .ite second (.pure _)

theorem map {change : α → β} (first : Skims source commas part) :
    Skims source commas (change <$> part) := by
  rw [map_eq_pure_bind]
  exact first.bind fun _ => .pure _

theorem accept (inside : isHeaderToken kind = true) : Skims source commas (accept kind) := by
  intro text
  refine (accept_finds kind).mono fun answer rest told ⟨quiet, head, found, is⟩ => ⟨quiet, ?_⟩
  rcases is with ⟨-, same, rfl⟩ | ⟨-, -, rfl⟩
  · exact .token found (same ▸ inside) .done
  · exact .done

theorem identifier : Skims source commas identifier := fun _ =>
  identifier_finds.mono fun _ _ _ ⟨quiet, head, found, isName, _, left⟩ =>
    ⟨quiet, left ▸ .token found (by rw [isName]; rfl) .done⟩

/-- A mark that is looked at with other tokens is taken. -/
theorem takeIf {symbol : Mark} {question : ReadM Bool} {yes no : ReadM α}
    (inside : isHeaderToken (.mark symbol) = true)
    (stays : ∀ text, Detects source question text fun _ rest => rest = text)
    (held : Skims source commas yes) (failed : Skims source commas no) :
    Skims source commas ((isMark symbol <&&> question) >>= fun answer =>
      if answer then take >>= fun _ => yes else no) := by
  intro text
  rw [Leads.and_eq, bind_assoc]
  refine .ask _ fun head found => ?_
  rw [ite_bind]
  split
  · next same =>
      refine (stays text).find fun answer mid left => ?_
      subst left
      split
      · refine .takeHead found fun _ _ => (held head.rest).mono fun _ _ _ ⟨quiet, header⟩ => ?_
        exact ⟨quiet, .token found (by rwa [eq_of_beq same]) header⟩
      · exact failed _
  · rw [pure_bind]
    exact failed text

/-! ### Repetition -/

theorem many {part : ReadM (Option α)} (once : Skims source commas part) (budget : Nat) :
    Skims source commas (many part budget) := by
  induction budget with
  | zero => exact .exhausted
  | succ budget ih =>
      refine once.bind fun found => ?_
      cases found with
      | none => exact .pure _
      | some value => exact ih.bind fun _ => .pure _

theorem iterate {part : σ → ReadM (σ ⊕ α)} (once : ∀ value, Skims source commas (part value))
    (budget : Nat) (value : σ) : Skims source commas (iterate part budget value) := by
  induction budget generalizing value with
  | zero => exact .exhausted
  | succ budget ih =>
      refine (once value).bind fun outcome => ?_
      cases outcome with
      | inl next => exact ih next
      | inr result => exact .pure _

theorem separatedBy {symbol : Mark} (separates : Skims source commas (acceptMark symbol))
    (once : Skims source commas part) (budget : Nat) :
    Skims source commas (separatedBy symbol part budget) := by
  induction budget with
  | zero => exact .exhausted
  | succ budget ih =>
      exact once.bind fun _ => separates.bind fun _ => .ite (ih.bind fun _ => .pure _) (.pure _)

theorem comma : Skims source true (acceptMark .comma) := by
  intro text
  refine (accept_finds _).mono fun answer rest told ⟨quiet, head, found, is⟩ => ⟨quiet, ?_⟩
  rcases is with ⟨-, same, rfl⟩ | ⟨-, -, rfl⟩
  · exact .comma found same .done
  · exact .done

theorem angled {expected : String} {inside : ReadM α} {wrap : α → β} {absent : ReadM β}
    (skims : Skims source true inside) (none : Skims source commas absent) :
    Skims source commas (do
      if ← acceptMark .less then
        let value ← inside
        let _ ← expectMark .greater expected
        return wrap value
      else absent) := by
  intro text
  refine .ifAccepted (fun opening found opens => ?_) fun _ _ _ => none text
  refine (skims opening.rest).find fun value mid header => ?_
  exact .expect fun _ closing further closes _ => .give
    (.angled found opens header further closes .done)

end Skims

/-! ### Types -/

variable (commas) in
theorem skipAnnotations_skims (budget : Nat) : Skims source commas (skipAnnotations budget) := by
  refine .bind (.many (.bind (.both (.isAt 0 _) (.map (.isAt 1 _))) fun _ => .ite (.bind ?_ fun _ =>
    .pure _) (.pure _)) budget) fun _ => .pure _
  exact fun text => ((usesFound source budget).use text).mono fun _ _ _ ⟨quiet, stands⟩ =>
    ⟨quiet, .annotated stands .done⟩

variable (commas) in
theorem dimensions_skims (budget : Nat) : Skims source commas (dimensions budget) := fun _ =>
  dimensions_finds.imp fun _ _ => .ofPairs

/-- The parts of types, which nest. -/
structure TypesSkim (source : List Char) (commas : Bool) (budget : Nat) : Prop where
  typeExpr : Skims source commas (typeExpr budget)
  classType : Skims source commas (classType budget)
  part : ∀ type, Skims source commas (classTypePart budget type)
  arguments : Skims source commas (optionalArguments budget)
  argument : Skims source commas (typeArgument budget)

namespace TypesSkim

variable (inner : TypesSkim source commas budget)

include inner

theorem succ_typeExpr : Skims source commas (ReadM.typeExpr (budget + 1)) := by
  rw [ReadM.typeExpr]
  have ended (type : TypeExpr) :
      Skims source commas (do return type.addDims (← dimensions budget)) :=
    .bind (dimensions_skims _ budget) fun _ => .pure _
  refine .bind (skipAnnotations_skims _ budget) fun _ text => .look fun head found => ?_
  split
  · next isPrimitive =>
      have inside : isHeaderToken head.kind = true := by
        simp [isHeaderToken, isPrimitive]
      refine .takeHead found fun token _ => ?_
      exact (ended _ head.rest).imp fun _ _ => .token found inside
  · exact Skims.bind inner.classType ended text

theorem succ_classType : Skims source commas (ReadM.classType (budget + 1)) := by
  rw [ReadM.classType]
  exact .bind .identifier fun _ => .bind inner.arguments fun _ => .iterate inner.part budget _

theorem succ_part (outer : TypeExpr) :
    Skims source commas (classTypePart (budget + 1) outer) := by
  rw [classTypePart]
  refine .takeIf rfl (fun text => ?_) ?_ (.pure _)
  · rw [map_eq_pure_bind]
    exact (Skims.kindAt_stays 1 text).find fun _ _ left => .give left
  · exact .bind (skipAnnotations_skims _ budget) fun _ => .bind .identifier fun _ =>
      .bind inner.arguments fun _ => .pure _

theorem succ_argument : Skims source commas (typeArgument (budget + 1)) := by
  rw [typeArgument]
  refine .bind (skipAnnotations_skims _ budget) fun _ => .bind (.accept rfl) fun _ => .ite ?_
    (.bind inner.typeExpr fun _ => .pure _)
  exact .bind (.accept rfl) fun _ => .ite (.bind inner.typeExpr fun _ => .pure _)
    (.bind (.accept rfl) fun _ => .ite (.bind inner.typeExpr fun _ => .pure _) (.pure _))

end TypesSkim

/-- Commas may stand between the arguments of a type wherever the type stands. -/
theorem TypesSkim.succ_arguments (inside : TypesSkim source true budget) :
    Skims source commas (optionalArguments (budget + 1)) := by
  rw [optionalArguments]
  intro text
  refine .ifAccepted (fun opening found opens => ?_) fun _ _ _ => .give .done
  refine .ifAccepted (fun closing further closes => ?_) fun _ _ _ => ?_
  · exact .give (.angled found opens .done further closes .done)
  · have args : Skims source true (separatedBy .comma (typeArgument budget) budget) :=
      .separatedBy .comma inside.argument budget
    refine (args opening.rest).find fun args mid header => ?_
    exact .expect fun _ closing further closes _ => .give
      (.angled found opens header further closes .done)

theorem typesSkim (source : List Char) (commas : Bool) (budget : Nat) :
    TypesSkim source commas budget := by
  induction budget generalizing commas with
  | zero => exact ⟨.exhausted, .exhausted, fun _ => .exhausted, .exhausted, .exhausted⟩
  | succ budget ih =>
      have inner := ih commas
      exact ⟨inner.succ_typeExpr, inner.succ_classType, inner.succ_part,
        (ih true).succ_arguments, inner.succ_argument⟩

variable (commas) in
theorem typeExpr_skims (budget : Nat) : Skims source commas (typeExpr budget) :=
  (typesSkim source commas budget).typeExpr

theorem typeList_skims (budget : Nat) : Skims source true (typeList budget) :=
  .separatedBy .comma (typeExpr_skims _ budget) budget

variable (commas) in
theorem optionalParameters_skims (budget : Nat) :
    Skims source commas (optionalParameters budget) := by
  have bounds : Skims source true (separatedBy .ampersand (typeExpr budget) budget) :=
    .separatedBy (.accept rfl) (typeExpr_skims _ budget) budget
  have parameter : Skims source true (typeParameter budget) :=
    .bind (skipAnnotations_skims _ budget) fun _ => .bind .identifier fun _ =>
      .bind (.accept rfl) fun _ => .ite (.bind bounds fun _ => .pure _) (.pure _)
  exact .angled (.separatedBy .comma parameter budget) (.pure _)

theorem skipPermitted_skims (budget : Nat) : Skims source true (skipPermitted budget) := by
  intro text
  refine .askWord .nil "permits" fun head found => ?_
  split
  · next is =>
      have isName : head.kind = .identifier ∧ head.text = "permits" := by simpa using is
      refine .takeHead found fun _ _ => (typeList_skims budget head.rest).find
        fun _ rest header => .give (.token found (by rw [isName.1]; rfl) header)
  · exact .give .done

end ReadM

end JavaDecl
