import JavaDecl.Proofs.CutExpressions
import JavaDecl.Proofs.FieldDeclarations
import JavaDecl.Proofs.KnownUnits

/-!
# Initial values

The initial value of a field is the text from the first token behind its equals sign up to where
its declarator ends.  It is the initial value again in any other field declaration.
-/

namespace JavaDecl

open ReadM

variable {text slice tail other : List Char} {first last : Head}

/-- An initial value stands behind an equals sign again if its declarator ends in another way. -/
theorem Initialized.moved (initialized : Initialized RunsAsExpression (some slice) text tail)
    (opens : Lexeme.OpensBreak other) (found : Head.of? other = some last)
    (ends : last.kind = .mark .semicolon) {equals : Head} {place : List Char}
    (assigned : Head.of? place = some equals) (assign : equals.kind = .mark .assign)
    (behind : equals.rest = ' ' :: (slice ++ other)) :
    Initialized RunsAsExpression (some slice) place other := by
  cases initialized with
  | @value _ _ _ _ head _ _ first split content along =>
      have here := Head.of?_slice first
      rw [split] at here
      obtain ⟨inside, -, rest, left⟩ := along.opens content here
      have again := Head.of?_cut here inside left.symm opens
      have comes : Head.of? equals.rest = some { head with rest := rest ++ other } := by
        rw [behind, Head.of?_blank (by decide)]
        exact again
      refine .value assigned assign comes ?_ content (along.cut opens found ?_ ?_)
      · rw [← left, ← List.append_assoc, List.append_cancel_right_eq] at split
        rw [← split, List.append_assoc]
      · rw [ends]
        exact fun _ => rfl
      · rw [ends]
        rfl

theorem opensBreak_blank (text : List Char) : Lexeme.OpensBreak (' ' :: text) := by
  intro c found
  obtain rfl := Option.some.inj found
  decide

theorem opensBreak_semicolon (text : List Char) : Lexeme.OpensBreak (';' :: text) := by
  intro c found
  obtain rfl := Option.some.inj found
  decide

/-- A class with one field is accepted if the value of the field is an initial value somewhere. -/
theorem readUnit_of_value (initialized : Initialized RunsAsExpression (some slice) text tail) :
    (readUnit ("class X \x7b int n = ".toList ++ (slice ++ "; \x7d".toList))).2 = none ∧
      (readUnit ("class X \x7b int n = ".toList ++ (slice ++ "; \x7d".toList))).1.filter
          (!·.isComment) =
        [.beginClass { name := "X", kind := .ordinary, line := 1 },
          .beginField
            { name := "n", type := { name := "int" }, initializer := some (String.ofList slice),
              line := 1 },
          .endField, .endClass] := by
  have word : Head.of? ("class".toList ++ [' ']) =
      some ⟨.keyword .classKw, "class", "class".toList, [' ']⟩ := by decide +kernel
  have name : Head.of? ("X".toList ++ [' ']) =
      some ⟨.identifier, "X", "X".toList, [' ']⟩ := by decide +kernel
  have brace : Head.of? ("\x7b".toList ++ [' ']) =
      some ⟨.mark .leftBrace, "\x7b", "\x7b".toList, [' ']⟩ := by decide +kernel
  have type : Head.of? ("int".toList ++ [' ']) =
      some ⟨.keyword .intKw, "int", "int".toList, [' ']⟩ := by decide +kernel
  have field : Head.of? ("n".toList ++ [' ']) =
      some ⟨.identifier, "n", "n".toList, [' ']⟩ := by decide +kernel
  have equals : Head.of? ("=".toList ++ [' ']) =
      some ⟨.mark .assign, "=", "=".toList, [' ']⟩ := by decide +kernel
  have semicolon : Head.of? (';' :: " \x7d".toList) =
      some ⟨.mark .semicolon, ";", ";".toList, " \x7d".toList⟩ := by decide +kernel
  have closing : Head.of? " \x7d".toList =
      some ⟨.mark .rightBrace, "\x7d", "\x7d".toList, []⟩ := by decide +kernel
  have ended : Head.of? [] = some .ended := by decide +kernel
  let declared := "n".toList ++ ' ' :: ("=".toList ++ ' ' :: (slice ++ ';' :: " \x7d".toList))
  let typed := "int".toList ++ ' ' :: declared
  have initialized := initialized.moved (opensBreak_semicolon _) semicolon rfl
    (Head.of?_behind equals nofun rfl (opensBreak_blank (slice ++ ';' :: " \x7d".toList))) rfl rfl
  have chain :
      Declarators RunsAsExpression [⟨"n", 0, some slice⟩] (' ' :: declared) " \x7d".toList :=
    .last ⟨.intro (Head.of?_behind field nofun rfl (opensBreak_blank _)) rfl .none initialized,
      _, semicolon, .inr rfl⟩ semicolon rfl
  have opens : OpensClass .ordinary "X"
      ("class".toList ++ ' ' :: ("X".toList ++ ' ' :: ("\x7b".toList ++ ' ' :: typed)))
      (' ' :: typed) :=
    .intro (Head.of?_front word nofun rfl (opensBreak_blank _)) .ordinary
      (Head.of?_behind name nofun rfl (opensBreak_blank _)) rfl
      (Head.of?_behind brace nofun rfl (opensBreak_blank _)) rfl
  generalize whole : "class X \x7b int n = ".toList ++ (slice ++ "; \x7d".toList) = source
  have base : TypeText source (.base { name := "int" }) (' ' :: typed) (' ' :: declared) :=
    .primitive (Head.of?_behind type nofun rfl (opensBreak_blank declared)) rfl
  have is : source =
      "class".toList ++ ' ' :: ("X".toList ++ ' ' :: ("\x7b".toList ++ ' ' :: typed)) := by
    rw [← whole]
    simp [typed, declared]
  have front : (TokenStream.ofSource source).rest =
      "class".toList ++ ' ' :: ("X".toList ++ ' ' :: ("\x7b".toList ++ ' ' :: typed)) := by
    rw [← is, rest_ofSource (by rw [is]; simp [TokenStream.byteOrderMark])]
  have read := readUnit_of_fields (front ▸ opens) .none base .none chain closing rfl ended rfl
  rw [front, firstLine_eq source (Head.of?_front word nofun rfl (opensBreak_blank _)),
    firstLine_eq source (Head.of?_behind type nofun rfl (opensBreak_blank declared))] at read
  have first : lineOf source ("class".toList ++
      ' ' :: ("X".toList ++ ' ' :: ("\x7b".toList ++ ' ' :: typed))) = 1 := by
    rw [is]
    exact lineOf_append [] _ rfl
  have second : lineOf source typed = 1 := by
    rw [is]
    exact lineOf_append "class X \x7b ".toList typed rfl
  rw [show lineOf source _ = 1 from first, show lineOf source _ = 1 from second] at read
  exact read

/-- The initial value of a field is not empty, and it is the text from the first token behind the
equals sign of a declarator in the source up to the end of the last token in front of the comma
or semicolon that ends the declarator.  A class with one field that has this value is accepted,
and the value is read again as it was. -/
theorem initial_values_are_captured {source : List Char} {declared : VariableDecl} {value : String}
    (accepted : (readUnit source).2 = none) (told : .beginField declared ∈ (readUnit source).1)
    (valued : declared.initializer = some value) :
    value ≠ "" ∧
      (∃ (declarator : Declarator) (place rest : List Char), place <:+ source ∧
        declarator.At RunsAsExpression place rest ∧ declarator.name = declared.name ∧
          declarator.initializer = some value.toList) ∧
      (readUnit ("class X \x7b int n = " ++ value ++ "; \x7d").toList).2 = none ∧
      (readUnit ("class X \x7b int n = " ++ value ++ "; \x7d").toList).1.filter (!·.isComment) =
        [.beginClass { name := "X", kind := .ordinary, line := 1 },
          .beginField
            { name := "n", type := { name := "int" }, initializer := some value, line := 1 },
          .endField, .endClass] := by
  obtain ⟨declarator, place, rest, inside, stands, named, is⟩ :=
    readUnit_fit (fieldsFit source) accepted told rfl declared value rfl valued
  obtain ⟨slice, written, rfl⟩ := Option.map_eq_some_iff.mp is
  have slices : ("class X \x7b int n = " ++ String.ofList slice ++ "; \x7d").toList =
      "class X \x7b int n = ".toList ++ (slice ++ "; \x7d".toList) := by simp
  rw [slices, String.toList_ofList]
  obtain ⟨mid, initialized⟩ := stands.spans.initialized
  rw [written] at initialized
  refine ⟨?_, ⟨declarator, place, rest, inside, stands, named, written⟩,
    readUnit_of_value initialized⟩
  cases initialized with
  | value _ _ _ _ content => simpa using content

/-- An event begins a field with an initial value. -/
def Event.beginsWith (value : String) : Event → Bool
  | .beginField declared => declared.initializer == some value
  | _ => false

/-- Type arguments, a block and comments around the value. -/
theorem value_with_block_is_captured :
    let source := ("class A \x7b M m, n = /** ! */ new M<K, V>(x -> \x7b return ';'; \x7d)" ++
      " /* , */, o = p < q; \x7d").toList
    let value := "new M<K, V>(x -> \x7b return ';'; \x7d)"
    ∃ declared : VariableDecl, (readUnit source).2 = none ∧
      .beginField declared ∈ (readUnit source).1 ∧ declared.initializer = some value ∧
        (readUnit ("class X \x7b int n = " ++ value ++ "; \x7d").toList).2 = none := by
  intro source value
  have accepted : (readUnit source).2 = none := by
    rw [← Option.isNone_iff_eq_none]
    decide +kernel
  have found : (readUnit source).1.any (·.beginsWith value) = true := by decide +kernel
  obtain ⟨event, told, is⟩ := List.any_eq_true.mp found
  cases event with
  | beginField declared =>
      have valued : declared.initializer = some value := by simpa [Event.beginsWith] using is
      exact ⟨declared, accepted, told, valued,
        (initial_values_are_captured accepted told valued).2.2.1⟩
  | _ => cases is

end JavaDecl
