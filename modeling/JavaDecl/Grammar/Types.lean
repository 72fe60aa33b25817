import JavaDecl.Grammar.Modifiers

/-!
# Types and type parameters

A class type is a dotted name whose parts may carry type arguments; those of the
last part count.  Annotations inside types are read and dropped.
-/

namespace JavaDecl.ReadM

/-- Drops the annotations in front of a part of a type. -/
def skipAnnotations (budget : Nat) : ReadM Unit := do
  let _ ← many part budget
where
  /-- The next annotation, if there is one. -/
  part : ReadM (Option Unit) := do
    if ← isMark .atSign <&&> (not <$> isAt 1 (.keyword .interfaceKw)) then
      let _ ← annotationUse budget
      return some ()
    else return none

/-- The number of pairs of brackets that follow. -/
def dimensions (budget : Nat) : ReadM Nat :=
  return (← many part budget).length
where
  /-- The next pair of brackets, if there is one. -/
  part : ReadM (Option Unit) := do
    if ← isMark .leftBracket <&&> isAt 1 (.mark .rightBracket) then
      let _ ← takeMany 2
      return some ()
    else return none

mutual

def typeExpr : Nat → ReadM TypeExpr
  | 0 => exhausted
  | budget + 1 => do
      skipAnnotations budget
      let type ←
        if (← kindAt 0).isPrimitiveType then pure { name := (← take).text }
        else classType budget
      return type.addDims (← dimensions budget)

def classType : Nat → ReadM TypeExpr
  | 0 => exhausted
  | budget + 1 => do
      let name ← identifier
      let args ← optionalArguments budget
      iterate (classTypePart budget) budget { name, args }

/-- The next part of a class type, if there is one. -/
def classTypePart : Nat → TypeExpr → ReadM (TypeExpr ⊕ TypeExpr)
  | 0, _ => exhausted
  | budget + 1, type => do
      let isName := (fun kind => kind == .identifier || kind == .mark .atSign) <$> kindAt 1
      if ← isMark .dot <&&> isName then
        let _ ← take
        skipAnnotations budget
        let name := type.name ++ "." ++ (← identifier)
        let args ← optionalArguments budget
        return .inl { type with name, args }
      else return .inr type

/-- The type arguments at this place, none if no angle bracket opens here. -/
def optionalArguments : Nat → ReadM (List (TypeArgument TypeExpr))
  | 0 => exhausted
  | budget + 1 => do
      if ← acceptMark .less then
        if ← acceptMark .greater then return []
        else
          let args ← separatedBy .comma (typeArgument budget) budget
          let _ ← expectMark .greater "'>' closing type arguments"
          return args
      else return []

def typeArgument : Nat → ReadM (TypeArgument TypeExpr)
  | 0 => exhausted
  | budget + 1 => do
      skipAnnotations budget
      if ← acceptMark .question then
        if ← acceptKeyword .extendsKw then return .extending (← typeExpr budget)
        else if ← acceptKeyword .superKw then return .above (← typeExpr budget)
        else return .unbounded
      else return .type (← typeExpr budget)

end

/-- One or more types with commas between them. -/
def typeList (budget : Nat) : ReadM (List TypeExpr) :=
  separatedBy .comma (typeExpr budget) budget

def typeParameter (budget : Nat) : ReadM (TypeParameter TypeExpr) := do
  skipAnnotations budget
  let name ← identifier
  let bounds ←
    if ← acceptKeyword .extendsKw then separatedBy .ampersand (typeExpr budget) budget
    else pure []
  return { name, bounds }

/-- The type parameters at this place, none if no angle bracket opens here. -/
def optionalParameters (budget : Nat) : ReadM (List (TypeParameter TypeExpr)) := do
  if ← acceptMark .less then
    let parameters ← separatedBy .comma (typeParameter budget) budget
    let _ ← expectMark .greater "'>' closing type parameters"
    return parameters
  else return []

end JavaDecl.ReadM
