import JavaDecl.Proofs.NodesOfTypes
import JavaDecl.Proofs.OwnVariables

/-!
# Erasures along first bounds

The first bound of a type variable may stand for another variable, which has a first bound of
its own.  The erasure of the first variable is the class at the end of this chain, with the
dimensions of all bounds on the way.  No type argument of a bound makes a difference, and a
chain without an end leads to the class of all objects.
-/

namespace JavaDecl

def Model.firstBound? (model : Model) (owner : VariableOwner) (position : Nat) :
    Option TypeRef :=
  (model.typeParameter? owner position).bind (·.bounds.head?)

def dimsOf : List TypeRef → Nat
  | [] => 0
  | ref :: refs => ref.dims + dimsOf refs

theorem dimsOf_append (refs others : List TypeRef) :
    dimsOf (refs ++ others) = dimsOf refs + dimsOf others := by
  induction refs with
  | nil => exact (Nat.zero_add _).symm
  | cons ref refs ih => rw [List.cons_append, dimsOf, dimsOf, ih, Nat.add_assoc]

theorem ResolvedType.erased_addDims_erased (type : ResolvedType) (more : Nat) :
    (type.erased.addDims more).erased = type.erased.addDims more := by
  induction type using erased.induct with
  | case1 name isResolved dims args => rfl
  | case2 bound ih => exact ih
  | case3 => rfl
  | case4 bound => rfl

namespace Resolver

open ResolvedType (Node)

variable {resolver : Resolver Id} {owner last : VariableOwner} {position final : Nat}
  {bounds : List TypeRef}

/-- One type variable leads to another one along first bounds that stand for variables. -/
inductive Leads (resolver : Resolver Id) :
    VariableOwner → Nat → List TypeRef → VariableOwner → Nat → Prop where
  | nowhere (owner : VariableOwner) (position : Nat) :
      Leads resolver owner position [] owner position
  | along {owner next last : VariableOwner} {position place final : Nat} {bound : TypeRef}
      {bounds : List TypeRef} :
      resolver.model.firstBound? owner position = some bound →
        (resolver.referent bound).run = some (.variable next place) →
          Leads resolver next place bounds last final →
            Leads resolver owner position (bound :: bounds) last final

/-- Every variable that one leads to has a first bound that stands for a variable again. -/
def LeadsOn (resolver : Resolver Id) (owner : VariableOwner) (position : Nat) : Prop :=
  ∀ bounds last final, resolver.Leads owner position bounds last final →
    ∃ bound next place, resolver.model.firstBound? last final = some bound ∧
      (resolver.referent bound).run = some (.variable next place)

theorem Leads.concat {next : VariableOwner} {place : Nat} {bound : TypeRef}
    (leads : resolver.Leads owner position bounds last final)
    (bounded : resolver.model.firstBound? last final = some bound)
    (stands : (resolver.referent bound).run = some (.variable next place)) :
    resolver.Leads owner position (bounds ++ [bound]) next place := by
  induction leads with
  | nowhere => exact .along bounded stands (.nowhere _ _)
  | along first through _ ih => exact .along first through (ih bounded)

theorem LeadsOn.exists_leads (endless : resolver.LeadsOn owner position) (length : Nat) :
    ∃ bounds last final, resolver.Leads owner position bounds last final ∧
      bounds.length = length := by
  induction length with
  | zero => exact ⟨[], owner, position, .nowhere owner position, rfl⟩
  | succ length ih =>
      obtain ⟨bounds, last, final, leads, rfl⟩ := ih
      obtain ⟨bound, next, place, bounded, stands⟩ := endless bounds last final leads
      exact ⟨bounds ++ [bound], next, place, leads.concat bounded stands, by simp⟩

/-- A bound that stands for a variable is the erasure of that variable, which needs one
substitution less. -/
theorem typeAt_of_variable {ref : TypeRef} (stands : (resolver.referent ref).run =
    some (.variable owner position)) (depth : Nat) :
    (resolver.typeAt (depth + 1) none ref).run =
      (resolver.erasureBy (resolver.typeAt depth none) owner position).run.addDims ref.dims := by
  rw [typeAt_succ, stands]
  rfl

theorem erasureBy_of_bound {typeOf : TypeRef → Id ResolvedType} {bound : TypeRef}
    (bounded : resolver.model.firstBound? owner position = some bound) :
    (resolver.erasureBy typeOf owner position).run = (typeOf bound).run.erased := by
  have found : (resolver.model.typeParameter? owner position).bind (·.bounds.head?) =
      some bound := bounded
  unfold erasureBy
  rw [found]
  rfl

theorem erasureBy_of_no_bound {typeOf : TypeRef → Id ResolvedType}
    (unbounded : resolver.model.firstBound? owner position = none) :
    (resolver.erasureBy typeOf owner position).run = .object := by
  have missing : (resolver.model.typeParameter? owner position).bind (·.bounds.head?) = none :=
    unbounded
  unfold erasureBy
  rw [missing]
  rfl

/-- The erasure of a variable is that of the variable it leads to, with more dimensions.
Every bound on the way takes one substitution. -/
theorem Leads.erasureBy (leads : resolver.Leads owner position bounds last final) (room : Nat) :
    (resolver.erasureBy (resolver.typeAt (bounds.length + room) none) owner position).run =
      (resolver.erasureBy (resolver.typeAt room none) last final).run.addDims
        (dimsOf bounds) := by
  induction leads with
  | nowhere owner position =>
      rw [List.length_nil, Nat.zero_add]
      exact (ResolvedType.addDims_zero _).symm
  | @along owner next last position place final bound bounds bounded stands _ ih =>
      have enough : (bound :: bounds).length + room = bounds.length + room + 1 := by
        rw [List.length_cons]
        omega
      have sum : dimsOf (bound :: bounds) = dimsOf bounds + bound.dims := Nat.add_comm ..
      rw [erasureBy_of_bound bounded, enough, typeAt_of_variable stands, ih, sum,
        ResolvedType.addDims_addDims, ← erased_erasureBy last final,
        ResolvedType.erased_addDims_erased]

/-- The type of a bound that gives a class its name is, erased, that class. -/
theorem Gives.erased_typeAt {ref : TypeRef} {node : Node} (gives : resolver.Gives ref node)
    (depth : Nat) (viewing : Option ClassId) :
    (resolver.typeAt (depth + 1) viewing ref).run.erased =
      .named node.name node.isResolved ref.dims [] := by
  rw [typeAt_succ]
  cases gives with
  | known stands => rw [stands]; rfl
  | unknown stands => rw [stands]; rfl

end Resolver

open Resolver in
/-- The erasure of a type variable is the class at the end of its first bounds, known or not,
with the dimensions of all of them.  It is the class of all objects if the last variable has
no bound or if no bound on the way is anything but a variable. -/
theorem erasure_follows_first_bounds {files : FileTree} {session : Session}
    {past : List Session.Resolution} (run : Session.Run files session past) (owner : VariableOwner)
    (position : Nat) :
    let resolver := session.standing files
    let erasure := session.observe files (·.erasure owner position 0)
    (∀ bounds last final bound node, resolver.Leads owner position bounds last final →
      bounds.length < substitutionLimit → resolver.model.firstBound? last final = some bound →
        resolver.Gives bound node →
          erasure = .named node.name node.isResolved (dimsOf (bounds ++ [bound])) []) ∧
      (∀ bounds last final, resolver.Leads owner position bounds last final →
        bounds.length < substitutionLimit → resolver.model.firstBound? last final = none →
          erasure = .named objectName true (dimsOf bounds) []) ∧
      (resolver.LeadsOn owner position →
        ∃ bounds last final, resolver.Leads owner position bounds last final ∧
          bounds.length = substitutionLimit ∧
            erasure = .named objectName true (dimsOf bounds) []) := by
  intro resolver erasure
  have spent : erasure =
      (resolver.erasureBy (resolver.typeAt substitutionLimit none) owner position).run :=
    Session.observe_erasure run.faithful.coherent owner position 0
  have shorten {bounds last final} (leads : resolver.Leads owner position bounds last final)
      (short : bounds.length ≤ substitutionLimit) :
      erasure = (resolver.erasureBy (resolver.typeAt (substitutionLimit - bounds.length) none)
        last final).run.addDims (dimsOf bounds) := by
    rw [spent, ← leads.erasureBy, Nat.add_sub_cancel' short]
  refine ⟨fun bounds last final bound node leads short bounded gives => ?named,
    fun bounds last final leads short unbounded => ?unbounded, fun endless => ?endless⟩
  case named =>
    obtain ⟨room, enough⟩ : ∃ room, substitutionLimit - bounds.length = room + 1 :=
      ⟨substitutionLimit - bounds.length - 1, by omega⟩
    rw [shorten leads (Nat.le_of_lt short), erasureBy_of_bound bounded, enough, gives.erased_typeAt]
    simp [ResolvedType.addDims, dimsOf_append, dimsOf, Nat.add_comm]
  case unbounded =>
    rw [shorten leads (Nat.le_of_lt short), erasureBy_of_no_bound unbounded]
    simp [ResolvedType.addDims, ResolvedType.object]
  case endless =>
    obtain ⟨bounds, last, final, leads, long⟩ := endless.exists_leads substitutionLimit
    refine ⟨bounds, last, final, leads, long, ?_⟩
    obtain ⟨bound, next, place, bounded, -⟩ := endless bounds last final leads
    rw [shorten leads (Nat.le_of_eq long), long, erasureBy_of_bound bounded]
    simp [ResolvedType.addDims, ResolvedType.object, ResolvedType.erased, typeAt]

/-- Two variables whose bounds are arrays, and two that bound each other. -/
def chainedBounds : Session :=
  .ofText "class A<T extends U[], U extends A<T>[], X extends Y, Y extends X> \x7b\x7d"

theorem chainedBounds_declares :
    let bounds := fun position =>
      (chainedBounds.project.model.firstBound? (.ofClass ⟨0⟩) position).map fun bound =>
        (bound.dims, chainedBounds.meaning {} bound.name bound.scope)
    bounds 0 = some (1, some (.variable (.ofClass ⟨0⟩) 1)) ∧
      bounds 1 = some (1, some (.named "A")) ∧
      bounds 2 = some (0, some (.variable (.ofClass ⟨0⟩) 3)) ∧
      bounds 3 = some (0, some (.variable (.ofClass ⟨0⟩) 2)) := by
  decide +kernel

/-- A bound of a bound gives the class and both give dimensions, and variables in a ring are
the class of all objects. -/
theorem erasures_of_chained_bounds :
    chainedBounds.observe {} (·.erasure (.ofClass ⟨0⟩) 0 0) = .named "A" true 2 [] ∧
      ∃ dims, chainedBounds.observe {} (·.erasure (.ofClass ⟨0⟩) 2 0) =
        .named "java.lang.Object" true dims [] := by
  have run : Session.Run {} chainedBounds [] := Session.run_ofText _
  have stands (ref : TypeRef) : ((chainedBounds.standing {}).referent ref).run =
      chainedBounds.meaning {} ref.name ref.scope := Session.referent_ofText _ ref
  obtain ⟨first, second, third, fourth⟩ := chainedBounds_declares
  obtain ⟨outer, outerBound, outerMeans⟩ := Option.map_eq_some_iff.mp first
  obtain ⟨inner, innerBound, innerMeans⟩ := Option.map_eq_some_iff.mp second
  obtain ⟨one, oneBound, oneMeans⟩ := Option.map_eq_some_iff.mp third
  obtain ⟨other, otherBound, otherMeans⟩ := Option.map_eq_some_iff.mp fourth
  simp only [Prod.mk.injEq] at outerMeans innerMeans oneMeans otherMeans
  constructor
  · have leads : (chainedBounds.standing {}).Leads (.ofClass ⟨0⟩) 0 [outer] (.ofClass ⟨0⟩) 1 :=
      .along outerBound ((stands outer).trans outerMeans.2) (.nowhere _ _)
    have gives : (chainedBounds.standing {}).Gives inner ⟨"A", true⟩ :=
      .known ((stands inner).trans innerMeans.2)
    have erased := (erasure_follows_first_bounds run (.ofClass ⟨0⟩) 0).1 _ _ _ _ _ leads
      (by simp [substitutionLimit]) innerBound gives
    rw [erased]
    simp [dimsOf, outerMeans.1, innerMeans.1]
  · have ring : ∀ owner position bounds last final,
        (chainedBounds.standing {}).Leads owner position bounds last final →
          owner = .ofClass ⟨0⟩ → position = 2 ∨ position = 3 →
          last = .ofClass ⟨0⟩ ∧ (final = 2 ∨ final = 3) := by
      intro owner position bounds last final leads
      induction leads with
      | nowhere => exact fun same within => ⟨same, within⟩
      | @along owner next last position place final bound bounds bounded refers _ ih =>
          rintro rfl within
          rw [stands] at refers
          rcases within with rfl | rfl
          · obtain rfl := Option.some.inj (oneBound.symm.trans bounded)
            cases oneMeans.2.symm.trans refers
            exact ih rfl (by decide)
          · obtain rfl := Option.some.inj (otherBound.symm.trans bounded)
            cases otherMeans.2.symm.trans refers
            exact ih rfl (by decide)
    have endless : (chainedBounds.standing {}).LeadsOn (.ofClass ⟨0⟩) 2 := by
      intro bounds last final leads
      obtain ⟨rfl, rfl | rfl⟩ := ring _ _ _ _ _ leads rfl (by decide)
      · exact ⟨one, _, _, oneBound, (stands one).trans oneMeans.2⟩
      · exact ⟨other, _, _, otherBound, (stands other).trans otherMeans.2⟩
    obtain ⟨bounds, -, -, -, -, erased⟩ :=
      (erasure_follows_first_bounds run (.ofClass ⟨0⟩) 2).2.2 endless
    exact ⟨dimsOf bounds, erased⟩

end JavaDecl
