import JavaDecl.Model.Basic
import Std.Data.ExtHashSet

/-!
# Hierarchies of classes

The supertypes of a class are found by looking up the names in its header.  A
hierarchy is walked depth first, the superclass before the interfaces, and no
class is visited twice, so hierarchies with diamonds and cycles do no harm.

How names are looked up is left open.  A look-up may have effects, such as to
remember its result, and these happen in the order of the walk.
-/

namespace JavaDecl

/-- A model with a way to look up what its types stand for. -/
structure Resolver (m : Type → Type) where
  model : Model
  /-- What a type of the model stands for. -/
  referent : TypeRef → m (Option Referent)

/-- How many classes of a hierarchy are visited at most. -/
def hierarchyLimit : Nat := 200000

/-- The classes that have been visited, the last one first, with a table and a count of them. -/
structure Trail where
  ids : List ClassId := []
  table : Std.ExtHashSet ClassId := ∅
  count : Nat := 0
  mem_table : ∀ id, id ∈ table ↔ id ∈ ids := by simp
  count_eq : count = ids.length := by rfl

namespace Trail

def contains (trail : Trail) (id : ClassId) : Bool :=
  trail.table.contains id

def isFull (trail : Trail) : Bool :=
  hierarchyLimit ≤ trail.count

def add (trail : Trail) (id : ClassId) : Trail where
  ids := id :: trail.ids
  table := trail.table.insert id
  count := trail.count + 1
  mem_table other := by
    rw [Std.ExtHashSet.mem_insert, trail.mem_table, List.mem_cons, beq_iff_eq]
    exact or_congr_left eq_comm
  count_eq := congrArg (· + 1) trail.count_eq

@[simp]
theorem contains_iff {trail : Trail} {id : ClassId} :
    trail.contains id = true ↔ id ∈ trail.ids :=
  trail.mem_table id

@[simp]
theorem isFull_iff {trail : Trail} :
    trail.isFull = true ↔ hierarchyLimit ≤ trail.ids.length := by
  rw [isFull, decide_eq_true_iff, trail.count_eq]

@[simp]
theorem ids_add (trail : Trail) (id : ClassId) : (trail.add id).ids = id :: trail.ids :=
  rfl

end Trail

/-- The types in the header of a class that it is a subtype of, the superclass first. -/
def ClassEntity.superRefs (entity : ClassEntity) : List TypeRef :=
  entity.superclass.toList ++ entity.interfaces

/-- The parameter at a position of its owner. -/
def Model.typeParameter? (model : Model) (owner : VariableOwner) (position : Nat) :
    Option (TypeParameter TypeRef) :=
  (model.typeParametersOf owner)[position]?

namespace Resolver

variable {m : Type → Type} [Monad m]

/-- The full name of a type, or the name of the type variable that it stands for. -/
def fullName? (resolver : Resolver m) (ref : TypeRef) : m (Option String) := do
  match ← resolver.referent ref with
  | some (.named name) => return some name
  | some (.variable owner position) =>
      return (resolver.model.typeParameter? owner position).map TypeParameter.name
  | none => return none

/-- The full name of a type, or its written name if it stands for no class. -/
def value (resolver : Resolver m) (ref : TypeRef) : m String := do
  match ← resolver.referent ref with
  | some (.named name) => return name
  | _ => return ref.name

/-- The class of the model that a type stands for. -/
@[specialize]
def classOf? (resolver : Resolver m) (ref : TypeRef) : m (Option ClassId) := do
  match ← resolver.referent ref with
  | some (.named name) => return resolver.model.classNamed? name
  | _ => return none

def superclassOf? (resolver : Resolver m) (id : ClassId) : m (Option ClassId) :=
  match (resolver.model.classAt id).superclass with
  | some ref => resolver.classOf? ref
  | none => pure none

/-- The direct supertypes of a class that the model has, the superclass first. -/
@[specialize]
def supertypesOf (resolver : Resolver m) (id : ClassId) : m (List ClassId) :=
  (resolver.model.classAt id).superRefs.filterMapM resolver.classOf?

/-! ### Walking a hierarchy -/

/-- Visits a class that has not been visited and then its supertypes, down to a depth.
The state has the visited classes and what the visits have yielded. -/
@[specialize]
def visit {σ : Type} (resolver : Resolver m) (take : σ → ClassId → m σ) :
    Nat → Trail × σ → ClassId → m (Trail × σ)
  | 0, state, _ => pure state
  | depth + 1, (visited, yielded), id =>
      if visited.contains id then pure (visited, yielded)
      -- A class beyond the limit counts as visited, but nothing is taken from it.
      else if visited.isFull then pure (visited.add id, yielded)
      else do
        let yielded ← take yielded id
        let supertypes ← resolver.supertypesOf id
        supertypes.foldlM (resolver.visit take depth) (visited.add id, yielded)

/-- Visits a class and all its supertypes.  A path without repetition is no longer than
the number of classes, which bounds the depth. -/
@[specialize]
def walk {σ : Type} (resolver : Resolver m) (take : σ → ClassId → m σ) (start : σ)
    (id : ClassId) : m σ := do
  let (_, yielded) ← resolver.visit take (resolver.model.classes.size + 1) ({}, start) id
  return yielded

/-- The type argument that a class or one of its supertypes, down to a depth, gives to
the parameter at a position of an owner.  The owner is looked for among all direct
supertypes before any of theirs.  A supertype without arguments gives none. -/
@[specialize]
def argumentFrom? (resolver : Resolver m) (owner : ClassId) (position : Nat) :
    Nat → ClassId → StateT Trail m (Option (TypeArgument TypeRef))
  | 0, _ => pure none
  | depth + 1, id => do
      let visited ← get
      if visited.contains id then return none
      let isFull := visited.isFull
      set (visited.add id)
      if isFull then return none
      let refs := (resolver.model.classAt id).superRefs
      let direct ← refs.findM? fun ref => do return (← resolver.classOf? ref) == some owner
      match direct with
      | some ref => return ref.args[position]?
      | none =>
          refs.findSomeM? fun ref => do
            match ← resolver.classOf? ref with
            | some next => resolver.argumentFrom? owner position depth next
            | none => return none

/-- The type argument that a class gives, itself or through its supertypes, to the
parameter at a position of another class. -/
@[specialize]
def argument? (resolver : Resolver m) (viewing owner : ClassId) (position : Nat) :
    m (Option (TypeArgument TypeRef)) := do
  if viewing = owner then return none
  else
    let search := resolver.argumentFrom? owner position (resolver.model.classes.size + 1) viewing
    return (← search.run {}).1

end Resolver

end JavaDecl
