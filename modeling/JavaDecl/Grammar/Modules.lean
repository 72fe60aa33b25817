import JavaDecl.Grammar.Types

/-!
# Module declarations

A module declaration lists what a module needs, gives and uses.  The words of its
directives are ordinary names everywhere else.
-/

namespace JavaDecl.ReadM

def isModuleStart : ReadM Bool := do
  if ← isWordAt 0 "module" then isAt 1 .identifier
  else isWordAt 0 "open" <&&> isWordAt 1 "module"

/-- The modules that a package is exported or opened to. -/
def targets (budget : Nat) : ReadM (List String) := do
  if ← isWordAt 0 "to" then
    let _ ← take
    separatedBy .comma (qualifiedName budget) budget
  else return []

/-- The next modifier of a needed module.  The word `transitive` is one unless it is
the name of the module or its first part. -/
def requiresModifier? : ReadM (Option String) := do
  let isName := do isAt 1 (.mark .semicolon) <||> isAt 1 (.mark .dot)
  if ← isNext (.keyword .staticKw) then return some (← take).text
  else if ← isWordAt 0 "transitive" <&&> (not <$> isName) then return some (← take).text
  else return none

def packageDirective (budget line : Nat) : ReadM PackageDirective := do
  let package ← qualifiedName budget
  let targets ← targets budget
  return { package, targets, line }

/-- The event of a directive whose first word is read. -/
def directive (budget : Nat) (opening : Token) : ReadM Event := do
  let line := opening.line
  match opening.text with
  | "requires" =>
      let modifiers ← many requiresModifier? budget
      return .requires { name := ← qualifiedName budget, modifiers, line }
  | "exports" => return .exported (← packageDirective budget line)
  | "opens" => return .opened (← packageDirective budget line)
  | "uses" => return .uses { service := ← typeExpr budget, line }
  | "provides" =>
      let service ← typeExpr budget
      let _ ← expectWord "with"
      return .provides { service, implementations := ← typeList budget, line }
  | other =>
      throw (.unexpectedToken "module directive" ("'" ++ other ++ "'") opening.place)

/-- The next directive, if the module does not end here. -/
def directive? (budget : Nat) : ReadM (Option Unit) := do
  if ← acceptMark .rightBrace then return none
  else
    let opening ← expect .identifier "module directive"
    emit (← directive budget opening)
    let _ ← expectMark .semicolon "';' after module directive"
    return some ()

/-- A module declaration, whose annotations are read. -/
def moduleDeclaration (budget : Nat) : ReadM Unit := do
  let line ← nextLine
  let isOpen ← isWordAt 0 "open"
  if isOpen then
    let _ ← take
  let _ ← expectWord "module"
  let name ← qualifiedName budget
  let _ ← expectMark .leftBrace "'\x7b' opening module body"
  emit (.moduleHeader { name, isOpen, line })
  let _ ← many (directive? budget) budget

end JavaDecl.ReadM
