import JavaDecl.Grammar.Classes
import JavaDecl.Grammar.Modules

/-!
# Compilation units

A compilation unit is a package declaration, imports, and then a module declaration
or classes.  `readUnit` gives the events of a source text and the fault that ended
its reading, if any.
-/

namespace JavaDecl

namespace ReadM

def packageDeclaration (budget : Nat) : ReadM Unit := do
  let line := (← expect (.keyword .packageKw) "'package'").line
  let name ← qualifiedName budget
  let _ ← expectMark .semicolon "';' after package name"
  emit (.package { name, line })

def importDeclaration (budget : Nat) : ReadM Unit := do
  let line := (← expect (.keyword .importKw) "'import'").line
  let isStatic ← acceptKeyword .staticKw
  let name ← qualifiedName budget
  let isWildcard ← acceptMark .dot
  if isWildcard then
    let _ ← expectMark .star "'*' after '.' in import"
  let _ ← expectMark .semicolon "';' after import"
  emit (.imported { name, isStatic, isWildcard, line })

/-- The next import or stray semicolon, if there is one. -/
def import? (budget : Nat) : ReadM (Option Unit) := do
  if ← isNext (.keyword .importKw) then
    importDeclaration budget
    return some ()
  else if ← acceptMark .semicolon then return some ()
  else return none

/-- The class declarations up to the end of the source.  The modifiers in front of
the first one are read. -/
def classDeclarations : Nat → Modifiers → ReadM Unit
  | 0, _ => exhausted
  | budget + 1, leading => do
      if ← pure leading.isEmpty <&&> isNext .endOfInput then return ()
      else
        if ← pure leading.isEmpty <&&> acceptMark .semicolon then pure ()
        else classDeclaration budget leading
        let leading ← modifiers budget
        classDeclarations budget leading

/-- The modifiers after the package declaration and the imports.  Without a package
declaration, modifiers in front leave no room for imports. -/
def preamble (budget : Nat) : ReadM Modifiers := do
  let leading ← modifiers budget
  let leading ←
    if ← isNext (.keyword .packageKw) then
      emitAnnotations leading.uses
      packageDeclaration budget
      pure {}
    else pure leading
  if leading.isEmpty then
    let _ ← many (import? budget) budget
    modifiers budget
  else return leading

def compilationUnit (budget : Nat) : ReadM Unit := do
  let leading ← preamble budget
  if ← pure leading.words.isEmpty <&&> isModuleStart then
    emitAnnotations leading.uses
    moduleDeclaration budget
    if ← isNext .endOfInput then return ()
    else refuse "end of input after module declaration"
  else classDeclarations budget leading

end ReadM

/-- More rounds than the reading of a source text can take.  Every token takes part in
few of them. -/
def readingBudget (source : List Char) : Nat :=
  16 * (source.length + 2)

/-- The events of a source text, and the fault that ended its reading. -/
def readUnit (source : List Char) : List Event × Option ParseError :=
  match ReadM.compilationUnit (readingBudget source) (.ofSource source) with
  | .ok _ reading => (reading.events.toList, none)
  | .error failure reading => (reading.events.toList, some failure)

end JavaDecl
