import JavaDecl.Grammar.Types

/-!
# Classes and their members

Class declarations nest.  A class begins once its header is read, a method before
its parameters and a field after its initial value, and each ends after its last
token.
-/

namespace JavaDecl.ReadM

/-! ### Methods -/

/-- The receiver that may stand in place of a parameter's name: `this`, after the name
of an enclosing class and a dot or alone. -/
def acceptReceiver : ReadM Bool := do
  if ← acceptKeyword .thisKw then return true
  else if ← isNext .identifier <&&> isAt 1 (.mark .dot) <&&> isAt 2 (.keyword .thisKw) then
    let _ ← takeMany 3
    return true
  else return false

/-- A parameter of a method or constructor.  A receiver is no parameter. -/
def parameter (budget : Nat) : ReadM Unit := do
  let modifiers ← modifiers budget
  let line ← nextLine
  let type ← typeExpr budget
  skipAnnotations budget
  let isVarargs ← acceptMark .ellipsis
  if ← acceptReceiver then return ()
  else
    let name ← expect .identifier "parameter name"
    let type := type.addDims (← dimensions budget)
    -- The comma is not taken: whatever comes after it, this parameter is not the last one.
    if (← isMark .comma) && isVarargs then
      throw (.invalidSyntax
        ("varargs parameter '" ++ name.text ++ "' must be the last parameter") name.place)
    else
      emitAnnotations modifiers.uses
      emit (.parameter { name := name.text, type, modifiers := modifiers.words, isVarargs, line })

/-- The parameters up to the closing bracket, which stays. -/
def parameters (budget : Nat) : ReadM Unit := do
  if ← isMark .rightParen then return ()
  else
    let _ ← separatedBy .comma (parameter budget) budget

/-- The dimensions after the parameters of a method, which belong to the type of its
result.  A constructor has no such type. -/
def resultDimensions (budget : Nat) (declared : MethodDecl) : ReadM MethodDecl := do
  let more ← dimensions budget
  if more = 0 then return declared
  else
    match declared.returnType with
    | some type => return { declared with returnType := some (type.addDims more) }
    | none =>
        throw (.invalidSyntax "array dimensions after constructor parameters" (← peek 0).place)

def endOf (declared : MethodDecl) : Event :=
  if declared.isConstructor then .endConstructor declared else .endMethod declared

/-- The rest of a method or constructor from its parameters on. -/
def methodRest (budget : Nat) (declared : MethodDecl) : ReadM Unit := do
  let _ ← expectMark .leftParen "'('"
  parameters budget
  let _ ← expectMark .rightParen "')' after parameters"
  let declared ← resultDimensions budget declared
  let exceptions ← if ← acceptKeyword .throwsKw then typeList budget else pure []
  let defaultValue ←
    if ← acceptKeyword .defaultKw then some <$> expressionText budget [.semicolon]
    else pure none
  let body ← if ← isMark .leftBrace then some <$> blockText else noBody
  emit (endOf { declared with exceptions, defaultValue, body })
where
  /-- The semicolon in place of a body. -/
  noBody : ReadM (Option String) := do
    let _ ← expectMark .semicolon "method body or ';'"
    return none

/-! ### Fields and initializers -/

/-- A variable of a field declaration, whose name is read. -/
def declarator (budget : Nat) (modifiers : Modifiers) (type : TypeExpr) (line : Nat)
    (name : String) : ReadM Unit := do
  let type := type.addDims (← dimensions budget)
  let initializer ←
    if ← acceptMark .assign then some <$> expressionText budget [.comma, .semicolon]
    else pure none
  emitAnnotations modifiers.uses
  emit (.beginField { name, type, modifiers := modifiers.words, initializer, line })
  emit .endField

/-- The rest of a field declaration after the first name. -/
def fieldRest (budget : Nat) (modifiers : Modifiers) (type : TypeExpr) (line : Nat)
    (name : String) : ReadM Unit := do
  declarator budget modifiers type line name
  let _ ← many part budget
  let _ ← expectMark .semicolon "';' after field declaration"
where
  /-- The next variable after a comma, if there is one. -/
  part : ReadM (Option Unit) := do
    if ← acceptMark .comma then
      declarator budget modifiers type line (← identifier)
      return some ()
    else return none

def initializer (isStatic : Bool) : ReadM Unit := do
  let line ← nextLine
  let body ← blockText
  emit (.initializer { isStatic, body, line })

/-- A method, constructor or field, whose modifiers are read. -/
def memberRest (budget : Nat) (modifiers : Modifiers) : ReadM Unit := do
  let line ← nextLine
  let typeParameters ← optionalParameters budget
  let words := modifiers.words
  if ← isNext .identifier <&&> isAt 1 (.mark .leftParen) then
    let name ← identifier
    emitAnnotations modifiers.uses
    emit .beginConstructor
    methodRest budget { name, modifiers := words, typeParameters, isConstructor := true, line }
  else
    let type ← typeExpr budget
    let name ← identifier
    if ← isMark .leftParen then
      emitAnnotations modifiers.uses
      emit .beginMethod
      methodRest budget
        { name, returnType := some type, modifiers := words, typeParameters, line }
    else if typeParameters.isEmpty then fieldRest budget modifiers type line name
    else refuse "'(' after generic method name"

/-! ### Class declarations -/

/-- The kind of class whose declaration starts here; the at sign of an annotation type
is taken. -/
def classKind? : ReadM (Option ClassKind) := do
  match ← kindAt 0 with
  | .keyword .classKw => return some .ordinary
  | .keyword .interfaceKw => return some .interface
  | .keyword .enumKw => return some .enumeration
  | .mark .atSign =>
      if ← isAt 1 (.keyword .interfaceKw) then
        let _ ← take
        return some .annotationType
      else return none
  | _ => return none

def isClassStart : ReadM Bool := do
  match ← kindAt 0 with
  | .keyword .classKw | .keyword .interfaceKw | .keyword .enumKw => return true
  | .mark .atSign => isAt 1 (.keyword .interfaceKw)
  | _ => return false

/-- The types that a class may be extended by, which are read and dropped. -/
def skipPermitted (budget : Nat) : ReadM Unit := do
  if ← isWordAt 0 "permits" then
    let _ ← take
    let _ ← typeList budget
  else return ()

def classHeader (budget : Nat) (words : List String) : ReadM ClassDecl := do
  match ← classKind? with
  | none => refuse "class, interface, enum or @interface"
  | some kind =>
      let line := (← take).line
      let name ← identifier
      let typeParameters ← optionalParameters budget
      let extending ←
        if ← acceptKeyword .extendsKw then
          if kind = .interface then typeList budget else pure [← typeExpr budget]
        else pure []
      let implementing ← if ← acceptKeyword .implementsKw then typeList budget else pure []
      skipPermitted budget
      return { name, kind, modifiers := words, extending, implementing, typeParameters, line }

def constantArguments (budget : Nat) : ReadM (List String) := do
  if ← acceptMark .leftParen then
    let args ← listUntil .rightParen (expressionText budget [.comma]) budget
    let _ ← expectMark .rightParen "')' after enum constant arguments"
    return args
  else return []

/-- The class that the body of an enumeration constant declares. -/
def constantBody (owner name : String) (line : Nat) : ClassDecl :=
  { name, kind := .ordinary, extending := [{ name := owner }], line, isConstantBody := true }

mutual

/-- A class declaration, whose modifiers are read. -/
def classDeclaration : Nat → Modifiers → ReadM Unit
  | 0, _ => exhausted
  | budget + 1, modifiers => do
      let declared ← classHeader budget modifiers.words
      emitAnnotations modifiers.uses
      classBody budget declared

/-- The body of a class, between its beginning and its end. -/
def classBody : Nat → ClassDecl → ReadM Unit
  | 0, _ => exhausted
  | budget + 1, declared => do
      emit (.beginClass declared)
      let _ ← expectMark .leftBrace "'\x7b' opening class body"
      if declared.kind = .enumeration then constants budget declared.name
      members budget
      emit .endClass

/-- The members of a class and the closing brace. -/
def members : Nat → ReadM Unit
  | 0 => exhausted
  | budget + 1 => do
      if ← acceptMark .rightBrace then return ()
      else if ← acceptMark .semicolon then members budget
      else if ← isNext .endOfInput then refuse "'\x7d' closing class body"
      else
        member budget
        members budget

def member : Nat → ReadM Unit
  | 0 => exhausted
  | budget + 1 => do
      if ← isMark .leftBrace then initializer false
      else if ← isNext (.keyword .staticKw) <&&> isAt 1 (.mark .leftBrace) then
        let _ ← take
        initializer true
      else
        let modifiers ← modifiers budget
        if ← isClassStart then classDeclaration budget modifiers
        else memberRest budget modifiers

/-- The constants of an enumeration, up to a semicolon or before the closing brace. -/
def constants : Nat → String → ReadM Unit
  | 0, _ => exhausted
  | budget + 1, owner => do
      if ← acceptMark .semicolon <||> isMark .rightBrace then return ()
      else
        constant budget owner
        if ← acceptMark .comma then constants budget owner
        else if ← acceptMark .semicolon <||> isMark .rightBrace then return ()
        else refuse "',' or ';' after enum constant"

def constant : Nat → String → ReadM Unit
  | 0, _ => exhausted
  | budget + 1, owner => do
      let modifiers ← modifiers budget
      let name ← expect .identifier "enum constant"
      let args ← constantArguments budget
      emitAnnotations modifiers.uses
      emit (.beginField
        { name := name.text, type := { name := owner }, isConstant := true, args,
          line := name.line })
      if ← isMark .leftBrace then classBody budget (constantBody owner name.text name.line)
      emit .endField

end

end JavaDecl.ReadM
