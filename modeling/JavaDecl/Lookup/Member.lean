import JavaDecl.Lookup.Substitution

/-!
# Members of a class

A class has the members that it declares and those of its supertypes that none
found before hides.  A method hides those with the same name and the same erased
parameter types as seen from the class, a field those with the same name.  Private
members are not inherited and hide nothing.
-/

namespace JavaDecl

structure Member (α : Type) where
  id : α
  /-- The class that inherits it; a declared member has none. -/
  viewing : Option ClassId := none
deriving DecidableEq, Repr, Inhabited

def Member.isInherited {α : Type} (member : Member α) : Bool :=
  member.viewing.isSome

/-- A member of a class that is found in that class or a supertype. -/
def Member.found {α : Type} (root holder : ClassId) (id : α) : Member α :=
  if holder = root then { id } else { id, viewing := some root }

namespace Resolver

variable {m : Type → Type} [Monad m]

/-- The name of a method with its erased parameter types as seen from a class. -/
def signatureKey (resolver : Resolver m) (method : MethodEntity) (viewing : ClassId) :
    m String := do
  let types ← method.parameters.mapM fun parameter =>
    resolver.typeFrom (some viewing) parameter.type
  let erasures := types.map fun type => type.erased.erasedText
  return method.name ++ "(" ++ ",".intercalate erasures ++ ")"

/-- The members found so far with their keys and one more, unless one with its key is
among them. -/
def addMember {α : Type} (found : List (String × Member α)) (key : String)
    (member : Member α) : List (String × Member α) :=
  if found.any (·.1 == key) then found else found ++ [(key, member)]

/-- The members of a class and its supertypes that have a key, the first with each. -/
@[specialize]
def membersBy {α : Type} (resolver : Resolver m) (declared : ClassEntity → List α)
    (key? : α → m (Option String)) (root : ClassId) : m (List (Member α)) := do
  let take (found : List (String × Member α)) (holder : ClassId) :
      m (List (String × Member α)) :=
    (declared (resolver.model.classAt holder)).foldlM (fun found id => do
      match ← key? id with
      | some key => return addMember found key (Member.found root holder id)
      | none => return found) found
  return (← resolver.walk take [] root).map Prod.snd

/-- The methods of a class, with those it inherits if asked for. -/
def methods (resolver : Resolver m) (id : ClassId) (withInherited : Bool) :
    m (List (Member MethodId)) :=
  if withInherited then
    resolver.membersBy ClassEntity.methods (fun method => do
      let entity := resolver.model.method method
      if entity.isPrivate then return none
      else return some (← resolver.signatureKey entity id)) id
  else
    pure ((resolver.model.classAt id).methods.map fun id => { id })

/-- The fields of a class, with those it inherits if asked for. -/
def fields (resolver : Resolver m) (id : ClassId) (withInherited : Bool) :
    m (List (Member FieldId)) :=
  if withInherited then
    resolver.membersBy ClassEntity.fields (fun field =>
      let entity := resolver.model.field field
      pure (if entity.isPrivate then none else some entity.name)) id
  else
    pure ((resolver.model.classAt id).fields.map fun id => { id })

/-- The type of the result of a method; a constructor has none. -/
def resultType? (resolver : Resolver m) (member : Member MethodId) :
    m (Option ResolvedType) := do
  let entity := resolver.model.method member.id
  match entity.returnType with
  | some ref => return some (← resolver.typeFrom (some (member.viewing.getD entity.declaring)) ref)
  | none => return none

def parameterTypes (resolver : Resolver m) (member : Member MethodId) : m (List ResolvedType) :=
  let entity := resolver.model.method member.id
  entity.parameters.mapM fun parameter =>
    resolver.typeFrom (some (member.viewing.getD entity.declaring)) parameter.type

def fieldType (resolver : Resolver m) (member : Member FieldId) : m ResolvedType :=
  let entity := resolver.model.field member.id
  resolver.typeFrom (some (member.viewing.getD entity.declaring)) entity.type

end Resolver

end JavaDecl
