import JavaDecl.Proofs.StandingAnnotations

/-!
# Types as they stand in texts

A type that stands in a text is read as it is written, in whatever layout: a primitive type, or
a dotted name whose parts may carry type arguments, with pairs of brackets behind it.
-/

namespace JavaDecl

/-- Annotations in front of a part of a type. -/
inductive DropsAnnotations (source : List Char) : List Char → List Char → Prop where
  | none {text : List Char} {head : Head} : Head.of? text = some head →
      head.kind ≠ .mark .atSign → DropsAnnotations source text text
  | some {text mid rest : List Char} {use : AnnotationUse TypeExpr} :
      UseText source (.use use) text mid → DropsAnnotations source mid rest →
        DropsAnnotations source text rest

/-- The parts that types are made of. -/
inductive TypePiece where
  /-- A type without dimensions. -/
  | base (type : TypeExpr)
  /-- What comes behind some parts of a dotted name, and the type with it. -/
  | parts (outer type : TypeExpr)
  | arguments (args : List (TypeArgument TypeExpr))
  | list (args : List (TypeArgument TypeExpr))
  | argument (arg : TypeArgument TypeExpr)
  /-- A type with its annotations and dimensions. -/
  | whole (type : TypeExpr)

/-- A part of a type stands in front of some text. -/
inductive TypeText (source : List Char) : TypePiece → List Char → List Char → Prop where
  | primitive {text : List Char} {word : Head} : Head.of? text = some word →
      word.kind.isPrimitiveType = true →
        TypeText source (.base { name := word.text }) text word.rest
  | named {text mid rest : List Char} {name : Head} {args : List (TypeArgument TypeExpr)}
      {type : TypeExpr} : Head.of? text = some name → name.kind = .identifier →
        TypeText source (.arguments args) name.rest mid →
          TypeText source (.parts { name := name.text, args } type) mid rest →
            TypeText source (.base type) text rest
  | ended {text : List Char} {head : Head} {type : TypeExpr} : Head.of? text = some head →
      head.kind ≠ .mark .dot → TypeText source (.parts type type) text text
  | part {text start mid rest : List Char} {dot next name : Head} {outer type : TypeExpr}
      {args : List (TypeArgument TypeExpr)} : Head.of? text = some dot → dot.kind = .mark .dot →
        Head.of? dot.rest = some next → next.kind = .identifier ∨ next.kind = .mark .atSign →
          DropsAnnotations source dot.rest start → Head.of? start = some name →
            name.kind = .identifier → TypeText source (.arguments args) name.rest mid →
              TypeText source (.parts { outer with name := outer.name ++ "." ++ name.text, args }
                type) mid rest → TypeText source (.parts outer type) text rest
  | noArguments {text : List Char} {head : Head} : Head.of? text = some head →
      head.kind ≠ .mark .less → TypeText source (.arguments []) text text
  | diamond {text : List Char} {opening closing : Head} : Head.of? text = some opening →
      opening.kind = .mark .less → Head.of? opening.rest = some closing →
        closing.kind = .mark .greater → TypeText source (.arguments []) text closing.rest
  | arguments {text mid : List Char} {opening next closing : Head}
      {args : List (TypeArgument TypeExpr)} : Head.of? text = some opening →
        opening.kind = .mark .less → Head.of? opening.rest = some next →
          next.kind ≠ .mark .greater → TypeText source (.list args) opening.rest mid →
            Head.of? mid = some closing → closing.kind = .mark .greater →
              TypeText source (.arguments args) text closing.rest
  | last {text rest : List Char} {head : Head} {arg : TypeArgument TypeExpr} :
      TypeText source (.argument arg) text rest → Head.of? rest = some head →
        head.kind ≠ .mark .comma → TypeText source (.list [arg]) text rest
  | more {text mid rest : List Char} {comma : Head} {arg : TypeArgument TypeExpr}
      {args : List (TypeArgument TypeExpr)} : TypeText source (.argument arg) text mid →
        Head.of? mid = some comma → comma.kind = .mark .comma →
          TypeText source (.list args) comma.rest rest →
            TypeText source (.list (arg :: args)) text rest
  | unbounded {text mid : List Char} {question next : Head} : DropsAnnotations source text mid →
      Head.of? mid = some question → question.kind = .mark .question →
        Head.of? question.rest = some next → next.kind ≠ .keyword .extendsKw →
          next.kind ≠ .keyword .superKw →
            TypeText source (.argument .unbounded) text question.rest
  | extending {text mid rest : List Char} {question word : Head} {bound : TypeExpr} :
      DropsAnnotations source text mid → Head.of? mid = some question →
        question.kind = .mark .question → Head.of? question.rest = some word →
          word.kind = .keyword .extendsKw → TypeText source (.whole bound) word.rest rest →
            TypeText source (.argument (.extending bound)) text rest
  | above {text mid rest : List Char} {question word : Head} {bound : TypeExpr} :
      DropsAnnotations source text mid → Head.of? mid = some question →
        question.kind = .mark .question → Head.of? question.rest = some word →
          word.kind = .keyword .superKw → TypeText source (.whole bound) word.rest rest →
            TypeText source (.argument (.above bound)) text rest
  | type {text mid rest : List Char} {head : Head} {type : TypeExpr} :
      DropsAnnotations source text mid → Head.of? mid = some head → head.kind ≠ .mark .question →
        TypeText source (.whole type) mid rest →
          TypeText source (.argument (.type type)) text rest
  | whole {text start mid rest : List Char} {count : Nat} {head : Head} {type : TypeExpr} :
      DropsAnnotations source text start → TypeText source (.base type) start mid →
        BracketPairs count mid rest → Head.of? rest = some head →
          head.kind ≠ .mark .leftBracket →
            TypeText source (.whole (type.addDims count)) text rest

namespace ReadM

variable {strict : Prop} {source text mid rest : List Char} {head : Head} {count budget : Nat}

/-- Annotations in front of a part of a type are dropped. -/
theorem skipAnnotations_reads (annotated : DropsAnnotations source text rest) :
    Reads True source (skipAnnotations budget) text ⟨⟩ rest := by
  suffices all : ∃ units, ∀ rounds,
      Reads True source (many (skipAnnotations.part budget) rounds) text units rest by
    obtain ⟨units, all⟩ := all
    exact (all budget).andThen (.pure ⟨rfl, rfl, rfl⟩)
  induction annotated with
  | none found other =>
      refine ⟨[], fun rounds => many_ends ?_⟩
      exact .no (.notBoth (isNext_reads found (by simpa using other))) (.pure ⟨rfl, rfl, rfl⟩)
  | some use _ ih =>
      obtain ⟨sign, name, found, isSign, further, isName⟩ := use.sign
      obtain ⟨units, others⟩ := ih
      have asked : Reads True source (isMark .atSign <&&>
          (not <$> isAt 1 (.keyword .interfaceKw))) _ true _ :=
        .both (isNext_reads found (by simp [isSign])) (.map (isSecond_reads found further
          (by simp [isSign]) (beq_false_of_ne (by simp [isName]))) rfl)
      have one : Reads True source (skipAnnotations.part budget) _ (some ()) _ :=
        .yes asked ((use.isRead budget).andThen (.pure ⟨rfl, rfl, rfl⟩))
      exact ⟨() :: units, fun rounds => many_goesOn one others⟩

/-- A type without annotations and dimensions. -/
def baseType (budget : Nat) : ReadM TypeExpr := do
  if (← kindAt 0).isPrimitiveType then return { name := (← take).text } else classType budget

theorem typeExpr_succ (budget : Nat) :
    typeExpr (budget + 1) = skipAnnotations budget >>= fun _ => baseType budget >>= fun type =>
      dimensions budget >>= fun count => pure (type.addDims count) := by
  rw [typeExpr, baseType]
  simp only [bind_assoc]
  congr 1
  funext _
  congr 1
  funext kind
  split
  · rw [bind_assoc]
  · rfl

/-- A type is its annotations, the type without them, and dimensions. -/
theorem typeExpr_takes {start : List Char} {type : TypeExpr}
    (annotated : DropsAnnotations source text start) (base : Takes source baseType start type mid)
    (pairs : BracketPairs count mid rest) (found : Head.of? rest = some head)
    (other : head.kind ≠ .mark .leftBracket) :
    Takes source typeExpr text (type.addDims count) rest := by
  refine .ofSucc rfl fun budget => ?_
  rw [typeExpr_succ]
  exact (skipAnnotations_reads annotated).andThen ((base budget).andThen
    ((dimensions_reads pairs found other).andThen (.pure ⟨rfl, rfl, rfl⟩)))

section Parts

variable {outer type : TypeExpr} {args : List (TypeArgument TypeExpr)} {dot next name : Head}
  {start : List Char}

theorem classTypeParts_end (found : Head.of? text = some head) (noDot : head.kind ≠ .mark .dot)
    (rounds budget : Nat) :
    Reads strict source (iterate (classTypePart budget) rounds type) text type text := by
  cases rounds with
  | zero => exact .exhausted
  | succ rounds =>
      cases budget with
      | zero => exact .exhausted
      | succ budget =>
          have ends : Reads strict source (classTypePart (budget + 1) type) text (.inr type) text :=
            .no (.notBoth (isNext_reads found (by simpa using noDot))) (.pure ⟨rfl, rfl, rfl⟩)
          exact ends.andThen (.pure ⟨rfl, rfl, rfl⟩)

theorem classTypeParts_goOn (found : Head.of? text = some dot) (isDot : dot.kind = .mark .dot)
    (further : Head.of? dot.rest = some next)
    (goesOn : next.kind = .identifier ∨ next.kind = .mark .atSign)
    (annotated : DropsAnnotations source dot.rest start) (named : Head.of? start = some name)
    (isName : name.kind = .identifier)
    (arguments : Takes source optionalArguments name.rest args mid)
    (others : ∀ rounds budget, Reads True source (iterate (classTypePart budget) rounds
      { outer with name := outer.name ++ "." ++ name.text, args }) mid type rest)
    (rounds budget : Nat) :
    Reads True source (iterate (classTypePart budget) rounds outer) text type rest := by
  cases rounds with
  | zero => exact .exhausted
  | succ rounds =>
      cases budget with
      | zero => exact .exhausted
      | succ budget =>
          have one : Reads True source (classTypePart (budget + 1) outer) text
              (.inl { outer with name := outer.name ++ "." ++ name.text, args }) mid :=
            .yes (.both (isNext_reads found (by simp [isDot])) (.map (kindAt_second found further
              (by simp [isDot])) (by simpa using goesOn)))
              ((take_leads found).meet fun _ _ => (skipAnnotations_reads annotated).andThen
                ((identifier_reads named isName).andThen ((arguments budget).andThen
                  (.pure ⟨rfl, rfl, rfl⟩))))
          exact one.andThen (others rounds (budget + 1))

end Parts

end ReadM

/-- How a part of a type is read. -/
def TypePiece.IsRead (source text rest : List Char) : TypePiece → Prop
  | .base type => ReadM.Takes source ReadM.baseType text type rest
  | .parts outer type => ∀ rounds budget, ReadM.Reads True source
      (ReadM.iterate (ReadM.classTypePart budget) rounds outer) text type rest
  | .arguments args => ReadM.Takes source ReadM.optionalArguments text args rest
  | .list args => ∀ rounds budget, ReadM.Reads True source
      (ReadM.separatedBy .comma (ReadM.typeArgument budget) rounds) text args rest
  | .argument arg => ReadM.Takes source ReadM.typeArgument text arg rest
  | .whole type => ReadM.Takes source ReadM.typeExpr text type rest

open ReadM in
/-- Every part of a type is read as it stands. -/
theorem TypeText.isRead {source text rest : List Char} {piece : TypePiece}
    (stands : TypeText source piece text rest) : piece.IsRead source text rest := by
  induction stands with
  | primitive found isPrimitive =>
      refine fun _ => (kindAt_first found).andThen ?_
      rw [if_pos isPrimitive]
      exact (take_leads found).meet fun _ isHead => .pure ⟨by rw [isHead.text], rfl, rfl⟩
  | named found isName _ _ args parts =>
      intro budget
      refine (kindAt_first found).andThen ?_
      rw [if_neg (by simp [isName, TokenKind.isPrimitiveType])]
      cases budget with
      | zero => exact .exhausted
      | succ budget =>
          rw [classType]
          exact (identifier_reads found isName).andThen
            ((args budget).andThen (parts budget budget))
  | ended found noDot => exact classTypeParts_end found noDot
  | part found isDot further goesOn annotated named isName _ _ args parts =>
      exact classTypeParts_goOn found isDot further goesOn annotated named isName args parts
  | noArguments found noAngle =>
      refine .ofSucc rfl fun budget => ?_
      rw [optionalArguments]
      exact .no (accept_leaves_head found noAngle) (.pure ⟨rfl, rfl, rfl⟩)
  | diamond found opens further closes =>
      refine .ofSucc rfl fun budget => ?_
      rw [optionalArguments]
      exact .yes (accept_takes_head found opens)
        (.yes (accept_takes_head further closes) (.pure ⟨rfl, rfl, rfl⟩))
  | arguments found opens further more _ behind closes list =>
      refine .ofSucc rfl fun budget => ?_
      rw [optionalArguments]
      exact .yes (accept_takes_head found opens) (.no (accept_leaves_head further more)
        ((list budget budget).andThen ((expect_leads behind closes).meet fun _ _ =>
          .pure ⟨rfl, rfl, rfl⟩)))
  | last _ found noComma argument =>
      exact fun _ budget => separatedBy_last (argument budget) found noComma
  | more _ found isComma _ argument list =>
      exact fun _ budget => separatedBy_more (argument budget) found isComma
        fun rounds => list rounds budget
  | unbounded annotated found isQuestion further noExtends noSuper =>
      refine .ofSucc rfl fun budget => ?_
      rw [typeArgument]
      exact (skipAnnotations_reads annotated).andThen
        (.yes (accept_takes_head found isQuestion) (.no (accept_leaves_head further noExtends)
          (.no (accept_leaves_head further noSuper) (.pure ⟨rfl, rfl, rfl⟩))))
  | extending annotated found isQuestion further isExtends _ bound =>
      refine .ofSucc rfl fun budget => ?_
      rw [typeArgument]
      exact (skipAnnotations_reads annotated).andThen
        (.yes (accept_takes_head found isQuestion) (.yes (accept_takes_head further isExtends)
          ((bound budget).andThen (.pure ⟨rfl, rfl, rfl⟩))))
  | above annotated found isQuestion further isSuper _ bound =>
      refine .ofSucc rfl fun budget => ?_
      rw [typeArgument]
      exact (skipAnnotations_reads annotated).andThen
        (.yes (accept_takes_head found isQuestion)
          (.no (accept_leaves_head further (by simp [isSuper]))
            (.yes (accept_takes_head further isSuper)
              ((bound budget).andThen (.pure ⟨rfl, rfl, rfl⟩)))))
  | type annotated found noQuestion _ whole =>
      refine .ofSucc rfl fun budget => ?_
      rw [typeArgument]
      exact (skipAnnotations_reads annotated).andThen
        (.no (accept_leaves_head found noQuestion)
          ((whole budget).andThen (.pure ⟨rfl, rfl, rfl⟩)))
  | whole annotated _ pairs found other base =>
      exact typeExpr_takes annotated base pairs found other

end JavaDecl
