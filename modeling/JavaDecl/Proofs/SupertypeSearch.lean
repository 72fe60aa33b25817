import JavaDecl.Proofs.HierarchyWalk

/-!
# Searching supertypes for a type argument

The search for the argument of a type parameter visits a class and its supertypes, each
once.  As long as it finds nothing it goes the way of a walk.  So if all classes that refer to
the owner of the parameter supply the same, and one of them is taken by a walk, then the search
yields that, however the supertypes are connected.
-/

namespace JavaDecl.Resolver

section Equations

variable {m : Type → Type} [Monad m] [LawfulMonad m] (resolver : Resolver m)
  (owner : ClassId) (position : Nat)

/-- The search through the supertypes that some types stand for, one after the other. -/
def searchEach (depth : Nat) (refs : List TypeRef) :
    StateT Trail m (Option (TypeArgument TypeRef)) :=
  refs.findSomeM? fun ref => do
    match ← resolver.classOf? ref with
    | some next => resolver.argumentFrom? owner position depth next
    | none => return none

theorem run_findM? {σ α : Type} (holds : α → m Bool) (items : List α) (state : σ) :
    (items.findM? fun item => (do return ← holds item : StateT σ m Bool)).run state =
      (fun found => (found, state)) <$> items.findM? holds := by
  induction items with
  | nil => simp
  | cons item rest ih =>
      simp only [List.findM?]
      simp
      refine congrArg _ (funext fun found => ?_)
      cases found with
      | true => simp
      | false => simp [ih]

/-- A search looks at a class, at its direct supertypes and then at theirs. -/
theorem run_argumentFrom?_succ (depth : Nat) (id : ClassId) (visited : Trail) :
    (resolver.argumentFrom? owner position (depth + 1) id).run visited =
      if visited.contains id then pure (none, visited)
      else if visited.isFull then pure (none, visited.add id)
      else
        ((resolver.model.classAt id).superRefs.findM? fun ref =>
            return (← resolver.classOf? ref) == some owner) >>= fun
          | some ref => pure (ref.args[position]?, visited.add id)
          | none =>
              (resolver.searchEach owner position depth
                (resolver.model.classAt id).superRefs).run (visited.add id) := by
  have lifted := run_findM? (fun ref => return (← resolver.classOf? ref) == some owner)
    (resolver.model.classAt id).superRefs (visited.add id)
  simp only [bind_pure_comp, liftM_map] at lifted
  rw [argumentFrom?]
  by_cases seen : id ∈ visited.ids
  · simp [seen]
  · by_cases full : hierarchyLimit ≤ visited.ids.length
    · simp [seen, full]
    · simp [seen, full, lifted]
      refine congrArg _ (funext fun direct => ?_)
      cases direct with
      | some ref => simp
      | none => rfl

theorem run_searchEach_cons (depth : Nat) (ref : TypeRef) (rest : List TypeRef)
    (visited : Trail) :
    (resolver.searchEach owner position depth (ref :: rest)).run visited =
      resolver.classOf? ref >>= fun
        | none => (resolver.searchEach owner position depth rest).run visited
        | some next =>
            (resolver.argumentFrom? owner position depth next).run visited >>= fun
              | (some arg, after) => pure (some arg, after)
              | (none, after) => (resolver.searchEach owner position depth rest).run after := by
  unfold searchEach
  simp only [List.findSomeM?]
  simp
  refine congrArg _ (funext fun found => ?_)
  cases found with
  | none => simp
  | some next =>
      refine congrArg _ (funext fun searched => ?_)
      obtain ⟨arg, after⟩ := searched
      cases arg <;> simp

end Equations

variable {resolver : Resolver Id} {root owner : ClassId} {position : Nat}

/-- A class or one of its supertypes refers to an owner and supplies an argument there. -/
def Supplies (resolver : Resolver Id) (root owner : ClassId) (position : Nat)
    (arg : TypeArgument TypeRef) : Prop :=
  ∃ id, resolver.Above root id ∧ ∃ ref ∈ (resolver.model.classAt id).superRefs,
    (resolver.classOf? ref).run = some owner ∧ ref.args[position]? = some arg

/-! ### The search -/

/-- The search from a class: what it finds and which classes it leaves visited. -/
def searchFrom (resolver : Resolver Id) (owner : ClassId) (position depth : Nat) (id : ClassId)
    (visited : Trail) : Option (TypeArgument TypeRef) × Trail :=
  Id.run ((resolver.argumentFrom? owner position depth id).run visited)

def searchThrough (resolver : Resolver Id) (owner : ClassId) (position depth : Nat)
    (refs : List TypeRef) (visited : Trail) :
    Option (TypeArgument TypeRef) × Trail :=
  Id.run ((resolver.searchEach owner position depth refs).run visited)

theorem searchFrom_succ (depth : Nat) (id : ClassId) (visited : Trail) :
    resolver.searchFrom owner position (depth + 1) id visited =
      if visited.contains id then (none, visited)
      else if visited.isFull then (none, visited.add id)
      else
        match (resolver.model.classAt id).superRefs.find? fun ref =>
          (resolver.classOf? ref).run == some owner with
        | some ref => (ref.args[position]?, visited.add id)
        | none =>
            resolver.searchThrough owner position depth
              (resolver.model.classAt id).superRefs (visited.add id) := by
  unfold searchFrom
  rw [run_argumentFrom?_succ]
  split
  · rfl
  · split
    · rfl
    · rw [Id.run_bind, List.idRun_findM?]
      simp only [Id.run_bind, Id.run_pure]
      cases (resolver.model.classAt id).superRefs.find? fun ref =>
        (resolver.classOf? ref).run == some owner <;> rfl

theorem searchThrough_cons (depth : Nat) (ref : TypeRef) (rest : List TypeRef)
    (visited : Trail) :
    resolver.searchThrough owner position depth (ref :: rest) visited =
      match (resolver.classOf? ref).run with
      | none => resolver.searchThrough owner position depth rest visited
      | some next =>
          match resolver.searchFrom owner position depth next visited with
          | (some arg, after) => (some arg, after)
          | (none, after) => resolver.searchThrough owner position depth rest after := by
  unfold searchThrough
  rw [run_searchEach_cons]
  rfl

/-! ### What a search finds -/

/-- What a search finds below a class is supplied there. -/
theorem supplies_of_searchThrough {depth : Nat} {holder : ClassId} {arg : TypeArgument TypeRef}
    (deeper : ∀ id visited, (resolver.searchFrom owner position depth id visited).1 = some arg →
      resolver.Supplies id owner position arg)
    (refs : List TypeRef)
    (listed : ∀ ref ∈ refs, ref ∈ (resolver.model.classAt holder).superRefs)
    {visited : Trail}
    (found : (resolver.searchThrough owner position depth refs visited).1 = some arg) :
    resolver.Supplies holder owner position arg := by
  induction refs generalizing visited with
  | nil => cases found
  | cons ref rest ih =>
      have later := fun visited => @ih
        (fun other member => listed other (List.mem_cons_of_mem _ member)) visited
      rw [searchThrough_cons] at found
      cases resolved : (resolver.classOf? ref).run with
      | none =>
          rw [resolved] at found
          exact later visited found
      | some next =>
          rw [resolved] at found
          dsimp only at found
          have deep := deeper next visited
          cases outcome : resolver.searchFrom owner position depth next visited with
          | mk first after =>
              rw [outcome] at found deep
              cases first with
              | none => exact later after found
              | some other =>
                  obtain ⟨id, above, supplied⟩ := deep found
                  have direct : resolver.Above holder next :=
                    .step .self (listed ref List.mem_cons_self) resolved
                  exact ⟨id, direct.trans above, supplied⟩

/-- What a search from a class finds is supplied there. -/
theorem supplies_of_searchFrom {depth : Nat} {id : ClassId} {visited : Trail}
    {arg : TypeArgument TypeRef}
    (found : (resolver.searchFrom owner position depth id visited).1 = some arg) :
    resolver.Supplies id owner position arg := by
  induction depth generalizing id visited with
  | zero => cases found
  | succ depth ih =>
      rw [searchFrom_succ] at found
      split at found
      · cases found
      · split at found
        · cases found
        · split at found
          · next ref direct =>
              have resolved : (resolver.classOf? ref).run = some owner := by
                simpa using List.find?_some direct
              exact ⟨id, .self, ref, List.mem_of_find?_eq_some direct, resolved, found⟩
          · exact supplies_of_searchThrough (fun _ _ => ih) _ (fun _ member => member) found

/-! ### What a search finds out -/

/-- A class refers to an owner. -/
def refersTo (resolver : Resolver Id) (owner id : ClassId) : Bool :=
  (resolver.model.classAt id).superRefs.any fun ref =>
    (resolver.classOf? ref).run == some owner

/-- Whether one of the classes that a walk has taken refers to an owner. -/
def askEach (resolver : Resolver Id) (owner : ClassId) (found : Bool) (id : ClassId) : Id Bool :=
  pure (found || resolver.refersTo owner id)

theorem taken_askEach (found : Bool) (ids : List ClassId) :
    taken (resolver.askEach owner) found ids = (found || ids.any (resolver.refersTo owner)) := by
  induction ids generalizing found with
  | nil => simp [taken]
  | cons id rest ih => simpa [taken, askEach, Bool.or_assoc] using ih (found || _)

/-- If a visit of a class asks in vain, so does a search from it. -/
def AsksInVain (resolver : Resolver Id) (owner : ClassId) (position depth : Nat) : Prop :=
  ∀ id visited after,
    (resolver.visit (resolver.askEach owner) depth (visited, false) id).run = (after, false) →
      resolver.searchFrom owner position depth id visited = (none, after)

/-- Visits that have asked in vain have always done so. -/
theorem eq_false_of_visits {depth : Nat} {ids : List ClassId} {state : Trail × Bool}
    {after : Trail}
    (vain : ids.foldl (fun state id => (resolver.visit (resolver.askEach owner) depth state id).run)
      state = (after, false)) : state.2 = false := by
  have kept : ∀ found id, found = true → (resolver.askEach owner found id).run = true := by
    rintro _ id rfl
    rfl
  refine Bool.eq_false_of_not_eq_true fun found => ?_
  have still : (ids.foldl (fun state id =>
      (resolver.visit (resolver.askEach owner) depth state id).run) state).2 = true :=
    List.foldlRecOn (motive := fun state : Trail × Bool => state.2 = true) _ _ found
      fun state found id _ => holds_visit _ kept depth state id found
  rw [vain] at still
  cases still

theorem searchThrough_in_vain {depth : Nat} (deeper : resolver.AsksInVain owner position depth)
    (refs : List TypeRef) {visited after : Trail}
    (vain : (refs.filterMap fun ref => (resolver.classOf? ref).run).foldl
        (fun state further => (resolver.visit (resolver.askEach owner) depth state further).run)
        (visited, false) = (after, false)) :
    resolver.searchThrough owner position depth refs visited = (none, after) := by
  induction refs generalizing visited with
  | nil =>
      cases vain
      rfl
  | cons ref rest ih =>
      rw [searchThrough_cons]
      rw [List.filterMap_cons] at vain
      cases resolved : (resolver.classOf? ref).run with
      | none =>
          rw [resolved] at vain
          exact ih vain
      | some next =>
          rw [resolved] at vain
          dsimp only at vain ⊢
          rw [List.foldl_cons] at vain
          cases outcome : (resolver.visit (resolver.askEach owner) depth (visited, false) next).run
            with
          | mk between found =>
              rw [outcome] at vain
              obtain rfl : found = false := eq_false_of_visits vain
              rw [deeper next visited between outcome]
              exact ih vain

theorem asksInVain (depth : Nat) : resolver.AsksInVain owner position depth := by
  induction depth with
  | zero =>
      intro id visited after vain
      cases vain
      rfl
  | succ depth ih =>
      intro id visited after vain
      rw [run_visit_succ] at vain
      rw [searchFrom_succ]
      by_cases old : visited.contains id = true
      · rw [if_pos old] at vain ⊢
        rw [(Prod.mk.inj vain).1]
      by_cases full : visited.isFull = true
      · rw [if_neg old, if_pos full] at vain ⊢
        rw [(Prod.mk.inj vain).1]
      rw [if_neg old, if_neg full] at vain ⊢
      have silent : resolver.refersTo owner id = false := eq_false_of_visits vain
      have direct : (resolver.model.classAt id).superRefs.find? (fun ref =>
          (resolver.classOf? ref).run == some owner) = none := by
        simpa [refersTo] using silent
      rw [askEach, silent, supertypesOf, run_filterMapM] at vain
      rw [direct]
      exact searchThrough_in_vain ih _ vain

/-- A search that finds nothing goes the way of the walk that asks whether a class refers to
the owner, and each class that it meets does not. -/
def Fruitless (resolver : Resolver Id) (root owner : ClassId) (position depth : Nat) : Prop :=
  ∀ id visited after, resolver.Above root id →
    resolver.searchFrom owner position depth id visited = (none, after) →
      (resolver.visit (resolver.askEach owner) depth (visited, false) id).run = (after, false)

theorem fruitless_through {depth : Nat} (deeper : resolver.Fruitless root owner position depth)
    {holder : ClassId} (above : resolver.Above root holder) (refs : List TypeRef)
    (listed : ∀ ref ∈ refs, ref ∈ (resolver.model.classAt holder).superRefs)
    {visited after : Trail}
    (failed : resolver.searchThrough owner position depth refs visited = (none, after)) :
    (refs.filterMap fun ref => (resolver.classOf? ref).run).foldl
        (fun state further => (resolver.visit (resolver.askEach owner) depth state further).run)
        (visited, false) = (after, false) := by
  induction refs generalizing visited with
  | nil =>
      cases failed
      rfl
  | cons ref rest ih =>
      obtain ⟨here, others⟩ := List.forall_mem_cons.mp listed
      rw [searchThrough_cons] at failed
      rw [List.filterMap_cons]
      cases resolved : (resolver.classOf? ref).run with
      | none =>
          rw [resolved] at failed
          exact ih others failed
      | some next =>
          rw [resolved] at failed
          dsimp only at failed ⊢
          cases outcome : resolver.searchFrom owner position depth next visited with
          | mk found between =>
              rw [outcome] at failed
              cases found with
              | some arg => cases failed
              | none =>
                  rw [List.foldl_cons, deeper next _ _ (above.step here resolved) outcome]
                  exact ih others failed

section Search

variable (supply : ∀ id, resolver.Above root id → ∀ ref ∈ (resolver.model.classAt id).superRefs,
    (resolver.classOf? ref).run = some owner → (ref.args[position]?).isSome)

include supply

/-- If all references to the owner supply something, a search that finds nothing has come
across none of them. -/
theorem fruitless (depth : Nat) : resolver.Fruitless root owner position depth := by
  induction depth with
  | zero =>
      intro id visited after _ failed
      cases failed
      rfl
  | succ depth ih =>
      intro id visited after above failed
      rw [searchFrom_succ] at failed
      rw [run_visit_succ]
      by_cases old : visited.contains id = true
      · rw [if_pos old] at failed ⊢
        rw [(Prod.mk.inj failed).2]
      by_cases full : visited.isFull = true
      · rw [if_neg old, if_pos full] at failed ⊢
        rw [(Prod.mk.inj failed).2]
      rw [if_neg old, if_neg full] at failed ⊢
      cases direct : (resolver.model.classAt id).superRefs.find? fun ref =>
          (resolver.classOf? ref).run == some owner with
      | some ref =>
          rw [direct] at failed
          have resolved : (resolver.classOf? ref).run = some owner := by
            simpa using List.find?_some direct
          have given := supply id above ref (List.mem_of_find?_eq_some direct) resolved
          rw [(Prod.mk.inj failed).1] at given
          cases given
      | none =>
          rw [direct] at failed
          have silent : resolver.refersTo owner id = false := by
            simpa [refersTo] using direct
          rw [askEach, silent, supertypesOf, run_filterMapM]
          exact fruitless_through ih above _ (fun _ member => member) failed

/-- A search that finds nothing takes no class that refers to the owner. -/
theorem refersTo_eq_false_of_searchFrom
    (inside : resolver.Inside)
    {order : List ClassId}
    (walk : DepthFirst (fun id => (resolver.supertypesOf id).run) [] [root] order)
    (failed : (resolver.searchFrom owner position (resolver.model.classes.size + 1) root {}).1 =
      none) {id : ClassId} (met : id ∈ order.take hierarchyLimit) :
    resolver.refersTo owner id = false := by
  have visited := fruitless supply (resolver.model.classes.size + 1) root {} _ .self
    (Prod.ext failed rfl)
  have walked : (resolver.walk (resolver.askEach owner) false root).run = _ :=
    run_walk inside walk false
  unfold Resolver.walk at walked
  rw [Id.run_bind, visited, taken_askEach, Bool.false_or] at walked
  exact Bool.eq_false_of_not_eq_true (List.any_eq_false.mp walked.symm id met)

end Search

theorem run_argument? (different : root ≠ owner) :
    (resolver.argument? root owner position).run =
      (resolver.searchFrom owner position (resolver.model.classes.size + 1) root {}).1 := by
  unfold argument?
  rw [if_neg different]
  rfl

/-- The search finds what the classes above the root that refer to the owner supply, if
that is the same for all and one of them is among the classes that are visited at most. -/
theorem argument?_of_met (different : root ≠ owner)
    (inside : resolver.Inside)
    {order : List ClassId}
    (walk : DepthFirst (fun id => (resolver.supertypesOf id).run) [] [root] order)
    {given : Option (TypeArgument TypeRef)}
    (supply : ∀ id, resolver.Above root id → ∀ ref ∈ (resolver.model.classAt id).superRefs,
      (resolver.classOf? ref).run = some owner → ref.args[position]? = given)
    {holder : ClassId} {ref : TypeRef} (met : holder ∈ order.take hierarchyLimit)
    (listed : ref ∈ (resolver.model.classAt holder).superRefs)
    (resolved : (resolver.classOf? ref).run = some owner) :
    (resolver.argument? root owner position).run = given := by
  rw [run_argument? different]
  cases outcome :
      (resolver.searchFrom owner position (resolver.model.classes.size + 1) root {}).1 with
  | some arg =>
      obtain ⟨id, climbed, found, member, stands, supplied⟩ := supplies_of_searchFrom outcome
      exact supplied.symm.trans (supply id climbed found member stands)
  | none =>
      cases given with
      | none => rfl
      | some arg =>
          have supplied := fun id climbed found member stands =>
            Option.isSome_of_eq_some (supply id climbed found member stands)
          have silent := refersTo_eq_false_of_searchFrom supplied inside walk outcome met
          rw [refersTo, List.any_eq_false] at silent
          exact absurd (beq_iff_eq.mpr resolved) (silent ref listed)

/-- The search finds nothing if no class that is visited at most refers to the owner. -/
theorem argument?_of_unmet (different : root ≠ owner) (inside : resolver.Inside)
    {order : List ClassId}
    (walk : DepthFirst (fun id => (resolver.supertypesOf id).run) [] [root] order)
    (unmet : ∀ id ∈ order.take hierarchyLimit, resolver.refersTo owner id = false) :
    (resolver.argument? root owner position).run = none := by
  have walked : (resolver.walk (resolver.askEach owner) false root).run = _ :=
    run_walk inside walk false
  rw [taken_askEach, Bool.false_or,
    List.any_eq_false.mpr fun id met => Bool.not_eq_true _ ▸ unmet id met] at walked
  unfold Resolver.walk at walked
  rw [Id.run_bind] at walked
  have vain : (resolver.visit (resolver.askEach owner) (resolver.model.classes.size + 1)
      ({}, false) root).run = (_, false) := Prod.ext rfl walked
  rw [run_argument? different, asksInVain _ _ _ _ vain]

end JavaDecl.Resolver
