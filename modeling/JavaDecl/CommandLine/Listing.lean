import JavaDecl.Session

/-!
# Listings of declarations

Each class of a project is listed with its header on one line and its fields,
constructors and methods on a line each below it.  Types are shown by their full
names as far as these are known when the line is written.
-/

namespace JavaDecl.CommandLine

/-- The header of a class: its kind and name and its supertypes. -/
def classLine (id : ClassId) : SessionM String := do
  let resolver ← Session.resolver
  let entity := resolver.model.classAt id
  let superclass ← entity.superclass.mapM resolver.value
  let names ← entity.interfaces.mapM resolver.value
  let interfaces :=
    if names.isEmpty then ""
    else
      (if entity.kind.isInterface then " extends " else " implements ") ++ ", ".intercalate names
  return entity.kind.keyword ++ " " ++ entity.binaryName ++
    (superclass.map (" extends " ++ ·)).getD "" ++ interfaces

def fieldLine (detailed : Bool) (member : Member FieldId) : SessionM String := do
  let resolver ← Session.resolver
  let entity := resolver.model.field member.id
  if detailed then
    let type ← resolver.fieldType member
    return "  field " ++ entity.name ++ ": " ++ type.text ++
      " (line " ++ toString entity.line ++ ")"
  else return "  field " ++ entity.name

def constructorLine (detailed : Bool) (id : MethodId) : SessionM String := do
  let project := (← get).project
  return "  constructor " ++ (project.model.method id).signature project.known detailed

def methodLine (detailed : Bool) (member : Member MethodId) : SessionM String := do
  let resolver ← Session.resolver
  let entity := resolver.model.method member.id
  if detailed then
    let result ← resolver.resultType? member
    let signature := entity.signature (← get).project.known true
    return "  method " ++ signature ++ " -> " ++ (result.map ResolvedType.text).getD "" ++
      " (line " ++ toString entity.line ++ ")"
  else return "  method " ++ entity.signature (← get).project.known false

def classLines (detailed : Bool) (id : ClassId) : SessionM (List String) := do
  let resolver ← Session.resolver
  let header ← classLine id
  let fields ← (← resolver.fields id false).mapM (fieldLine detailed)
  let constructors ← (resolver.model.classAt id).constructors.mapM (constructorLine detailed)
  let methods ← (← resolver.methods id false).mapM (methodLine detailed)
  return header :: (fields ++ constructors ++ methods)

/-- The lines of all classes of a project. -/
def allLines (detailed : Bool) : SessionM (List String) := do
  let count := (← get).project.model.classes.size
  let listings ← (List.range count).mapM fun position => classLines detailed ⟨position⟩
  return listings.flatten

def tokenLine (withPlaces : Bool) (token : Token) : String :=
  if withPlaces then
    token.kind.name ++ " at " ++ toString token.place.line ++ ":" ++ toString token.place.column
  else token.kind.name ++ ": '" ++ token.text ++ "'"

end JavaDecl.CommandLine
