import Mathlib.Data.Finset.Card
import Mathlib.Data.Finset.Range
import JavaDecl.Lookup.Hierarchy

/-!
# Walking a hierarchy

A walk takes the classes of a hierarchy in the order in which a depth-first search meets
them for the first time, as many as are visited at most.  Where the hierarchy has no more,
these are all its classes, however they are connected.
-/

namespace JavaDecl

/-- The order in which pending classes and those that come after them are met for the first
time.  What comes after a class goes before the other pending classes. -/
inductive DepthFirst (next : ClassId → List ClassId) :
    List ClassId → List ClassId → List ClassId → Prop where
  | done (met : List ClassId) : DepthFirst next met [] []
  | again {met pending order : List ClassId} {id : ClassId} : id ∈ met →
      DepthFirst next met pending order → DepthFirst next met (id :: pending) order
  | first {met pending order : List ClassId} {id : ClassId} : id ∉ met →
      DepthFirst next (id :: met) (next id ++ pending) order →
        DepthFirst next met (id :: pending) (id :: order)

namespace DepthFirst

variable {next : ClassId → List ClassId} {met pending order : List ClassId}

/-- There is one such order. -/
theorem unique (walk : DepthFirst next met pending order) {other : List ClassId}
    (further : DepthFirst next met pending other) : other = order := by
  induction walk generalizing other with
  | done met =>
      cases further
      rfl
  | again old _ ih =>
      cases further with
      | again _ rest => exact ih rest
      | first new _ => exact absurd old new
  | first new _ ih =>
      cases further with
      | again old _ => exact absurd old new
      | first _ rest => rw [ih rest]

/-- Among finitely many classes there is an order, since each of its classes is new. -/
theorem exists_order {room : Finset ClassId}
    (closed : ∀ id ∈ room, ∀ further ∈ next id, further ∈ room)
    (inside : ∀ id ∈ pending, id ∈ room) : ∃ order, DepthFirst next met pending order := by
  generalize unmet : (room \ met.toFinset).card = count
  induction count using Nat.strong_induction_on generalizing met pending with
  | _ count fewer =>
      induction pending with
      | nil => exact ⟨[], .done met⟩
      | cons id pending later =>
          obtain ⟨known, inside⟩ := List.forall_mem_cons.mp inside
          by_cases old : id ∈ met
          · obtain ⟨order, walk⟩ := later inside
            exact ⟨order, .again old walk⟩
          have lower : (room \ (id :: met).toFinset).card < count := by
            rw [← unmet]
            refine Finset.card_lt_card (Finset.ssubset_iff_of_subset ?_ |>.mpr ⟨id, ?_, ?_⟩)
            · exact Finset.sdiff_subset_sdiff (Finset.Subset.refl room) (by simp)
            · simp [known, old]
            · simp
          have onward : ∀ other ∈ next id ++ pending, other ∈ room := by
            rw [List.forall_mem_append]
            exact ⟨closed id known, inside⟩
          obtain ⟨order, walk⟩ := fewer _ lower onward rfl
          exact ⟨id :: order, .first old walk⟩

theorem fresh (walk : DepthFirst next met pending order) {id : ClassId} (listed : id ∈ order) :
    id ∉ met := by
  induction walk with
  | done met => cases listed
  | again _ _ ih => exact ih listed
  | first new _ ih =>
      rcases List.mem_cons.mp listed with rfl | later
      · exact new
      · exact fun old => ih later (List.mem_cons_of_mem _ old)

theorem nodup (walk : DepthFirst next met pending order) : order.Nodup := by
  induction walk with
  | done met => exact List.nodup_nil
  | again _ _ ih => exact ih
  | first _ rest ih =>
      refine List.nodup_cons.mpr ⟨fun later => ?_, ih⟩
      exact rest.fresh later List.mem_cons_self

theorem mem_of_pending (walk : DepthFirst next met pending order) {id : ClassId}
    (waits : id ∈ pending) : id ∈ met ∨ id ∈ order := by
  induction walk with
  | done met => cases waits
  | again old _ ih =>
      rcases List.mem_cons.mp waits with rfl | later
      · exact .inl old
      · exact ih later
  | @first met pending order front new _ ih =>
      rcases List.mem_cons.mp waits with rfl | later
      · exact .inr List.mem_cons_self
      · rcases ih (List.mem_append_right _ later) with earlier | listed
        · rcases List.mem_cons.mp earlier with rfl | old
          · exact .inr List.mem_cons_self
          · exact .inl old
        · exact .inr (List.mem_cons_of_mem _ listed)

/-- What comes after a class of the order is in the order or has been met before. -/
theorem mem_of_next (walk : DepthFirst next met pending order) {id further : ClassId}
    (listed : id ∈ order) (after : further ∈ next id) : further ∈ met ∨ further ∈ order := by
  induction walk with
  | done met => cases listed
  | again _ _ ih => exact ih listed
  | @first met pending order front _ rest ih =>
      have found : further ∈ front :: met ∨ further ∈ order := by
        rcases List.mem_cons.mp listed with rfl | later
        · exact rest.mem_of_pending (List.mem_append_left _ after)
        · exact ih later
      rcases found with earlier | later
      · rcases List.mem_cons.mp earlier with rfl | old
        · exact .inr List.mem_cons_self
        · exact .inl old
      · exact .inr (List.mem_cons_of_mem _ later)

/-- A class of the order has been pending, or it comes after an earlier one. -/
theorem exists_earlier (walk : DepthFirst next met pending order) {front back : List ClassId}
    {id : ClassId} (split : order = front ++ id :: back) :
    id ∈ pending ∨ ∃ earlier ∈ front, id ∈ next earlier := by
  induction walk generalizing front with
  | done met => simp at split
  | again _ _ ih =>
      rcases ih split with waits | found
      · exact .inl (List.mem_cons_of_mem _ waits)
      · exact .inr found
  | @first met pending order head _ _ ih =>
      cases front with
      | nil =>
          obtain ⟨rfl, -⟩ := List.cons.inj split
          exact .inl List.mem_cons_self
      | cons inner front =>
          obtain ⟨rfl, rest⟩ := List.cons.inj split
          rcases ih rest with waits | ⟨earlier, listed, after⟩
          · rcases List.mem_append.mp waits with new | old
            · exact .inr ⟨head, List.mem_cons_self, new⟩
            · exact .inl (List.mem_cons_of_mem _ old)
          · exact .inr ⟨earlier, List.mem_cons_of_mem _ listed, after⟩

/-- What holds of the pending classes and of all that comes after such holds of the order. -/
theorem keeps (walk : DepthFirst next met pending order) {holds : ClassId → Prop}
    (after : ∀ id, holds id → ∀ further ∈ next id, holds further)
    (start : ∀ id ∈ pending, holds id) {id : ClassId} (listed : id ∈ order) : holds id := by
  induction walk with
  | done met => cases listed
  | again _ _ ih => exact ih (fun other waits => start other (List.mem_cons_of_mem _ waits)) listed
  | @first met pending order front _ _ ih =>
      have own := start front List.mem_cons_self
      rcases List.mem_cons.mp listed with rfl | later
      · exact own
      · refine ih (fun other waits => ?_) later
        rcases List.mem_append.mp waits with new | old
        · exact after front own other new
        · exact start other (List.mem_cons_of_mem _ old)

end DepthFirst

namespace Resolver

/-! ### Classes above a class -/

/-- A class or one of its supertypes, however far up. -/
inductive Above (resolver : Resolver Id) (root : ClassId) : ClassId → Prop where
  | self : Above resolver root root
  | step {id next : ClassId} {ref : TypeRef} :
      Above resolver root id → ref ∈ (resolver.model.classAt id).superRefs →
        (resolver.classOf? ref).run = some next → Above resolver root next

variable {resolver : Resolver Id} {root : ClassId}

theorem Above.trans {first second third : ClassId} (one : resolver.Above first second)
    (other : resolver.Above second third) : resolver.Above first third := by
  induction other with
  | self => exact one
  | step _ listed resolved ih => exact ih.step listed resolved

/-- Above a class with one supertype, which has none, there are only these two. -/
theorem Above.eq_or_eq {top id : ClassId} {super : TypeRef}
    (single : (resolver.model.classAt root).superRefs = [super])
    (refers : (resolver.classOf? super).run = some top)
    (topmost : (resolver.model.classAt top).superRefs = []) (above : resolver.Above root id) :
    id = root ∨ id = top := by
  induction above with
  | self => exact .inl rfl
  | @step id next ref _ listed resolved ih =>
      rcases ih with rfl | rfl
      · rw [single, List.mem_singleton] at listed
        rw [listed, refers] at resolved
        exact .inr (Option.some.inj resolved).symm
      · rw [topmost] at listed
        cases listed

theorem run_filterMapM {α β : Type} (select : α → Id (Option β)) (items : List α) :
    (items.filterMapM select).run = items.filterMap fun item => (select item).run := by
  induction items with
  | nil => rfl
  | cons item rest ih =>
      rw [List.filterMapM_cons, Id.run_bind, List.filterMap_cons]
      cases (select item).run with
      | none => exact ih
      | some value =>
          dsimp only
          rw [← ih]
          rfl

theorem mem_supertypesOf {id further : ClassId} :
    further ∈ (resolver.supertypesOf id).run ↔
      ∃ ref ∈ (resolver.model.classAt id).superRefs,
        (resolver.classOf? ref).run = some further := by
  unfold supertypesOf
  rw [run_filterMapM, List.mem_filterMap]

/-- The classes of a walk without an end are those above its root. -/
theorem mem_iff_above {order : List ClassId}
    (walk : DepthFirst (fun id => (resolver.supertypesOf id).run) [] [root] order) {id : ClassId} :
    id ∈ order ↔ resolver.Above root id := by
  constructor
  · intro listed
    refine walk.keeps (fun id climbed further after => ?_) (fun id waits => ?_) listed
    · obtain ⟨ref, member, resolved⟩ := mem_supertypesOf.mp after
      exact climbed.step member resolved
    · rw [List.mem_singleton.mp waits]
      exact .self
  · intro climbed
    have inside : ∀ {id : ClassId}, id ∈ ([] : List ClassId) ∨ id ∈ order → id ∈ order :=
      fun found => found.resolve_left (by simp)
    induction climbed with
    | self => exact inside (walk.mem_of_pending (List.mem_singleton.mpr rfl))
    | step _ member resolved ih =>
        exact inside (walk.mem_of_next ih (mem_supertypesOf.mpr ⟨_, member, resolved⟩))

/-- Types stand for classes of the model. -/
def Inside (resolver : Resolver Id) : Prop :=
  ∀ ref id, (resolver.classOf? ref).run = some id → id.index < resolver.model.classes.size

/-- Classes that have been visited once, all of them above the root. -/
structure Visited (resolver : Resolver Id) (root : ClassId) (visited : List ClassId) : Prop where
  once : visited.Nodup
  above : ∀ id ∈ visited, resolver.Above root id

/-- A list of classes has room for a further one as long as it lacks one of those that
another list has. -/
theorem Visited.length_lt {visited classes : List ClassId} (proper : resolver.Visited root visited)
    (complete : ∀ id, resolver.Above root id → id ∈ classes) {id : ClassId}
    (above : resolver.Above root id) (fresh : id ∉ visited) :
    visited.length < classes.length := by
  have longer : (id :: visited).Nodup := List.nodup_cons.mpr ⟨fresh, proper.once⟩
  have inside : id :: visited ⊆ classes := by
    intro other member
    rcases List.mem_cons.mp member with rfl | earlier
    · exact complete other above
    · exact complete other (proper.above other earlier)
  exact longer.length_le_of_subset inside

/-! ### Visits -/

section Visits

variable {σ : Type} (take : σ → ClassId → Id σ)

theorem run_visit_succ (depth : Nat) (met : Trail) (yielded : σ) (id : ClassId) :
    (resolver.visit take (depth + 1) (met, yielded) id).run =
      if met.contains id then (met, yielded)
      else if met.isFull then (met.add id, yielded)
      else
        (resolver.supertypesOf id).run.foldl
          (fun state further => (resolver.visit take depth state further).run)
          (met.add id, (take yielded id).run) := by
  rw [visit]
  split
  · rfl
  · split
    · rfl
    · rw [Id.run_bind, Id.run_bind, List.idRun_foldlM]

theorem Visited.add {met : Trail} (proper : resolver.Visited root met.ids) {id : ClassId}
    (above : resolver.Above root id) (fresh : id ∉ met.ids) :
    resolver.Visited root (met.add id).ids := by
  refine ⟨List.nodup_cons.mpr ⟨fresh, proper.once⟩, fun other member => ?_⟩
  rcases List.mem_cons.mp member with rfl | earlier
  · exact above
  · exact proper.above other earlier

theorem above_of_mem_supertypesOf {id : ClassId} (above : resolver.Above root id) :
    ∀ further ∈ (resolver.supertypesOf id).run, resolver.Above root further := by
  intro further after
  obtain ⟨ref, member, resolved⟩ := mem_supertypesOf.mp after
  exact above.step member resolved

/-- What every class that is taken keeps holds of what visits yield. -/
theorem holds_visit {holds : σ → Prop}
    (kept : ∀ yielded id, holds yielded → holds (take yielded id).run) (depth : Nat)
    (state : Trail × σ) (id : ClassId) (start : holds state.2) :
    holds (resolver.visit take depth state id).run.2 := by
  induction depth generalizing state id with
  | zero => exact start
  | succ depth ih =>
      obtain ⟨met, yielded⟩ := state
      rw [run_visit_succ]
      split
      · exact start
      · split
        · exact start
        · exact List.foldlRecOn (motive := fun state : Trail × σ => holds state.2) _ _
            (kept yielded id start) fun state holding further _ => ih state further holding

/-- What some visits keep as they go on: the classes that have been visited, each once and all
above the root, of which there are no fewer later, and what has been yielded at the limit. -/
structure Onward (resolver : Resolver Id) (root : ClassId) (before after : Trail × σ) : Prop where
  visited : resolver.Visited root before.1.ids → resolver.Visited root after.1.ids
  longer : before.1.ids.length ≤ after.1.ids.length
  stuck : hierarchyLimit ≤ before.1.ids.length → after.2 = before.2

theorem Onward.refl (state : Trail × σ) : resolver.Onward root state state :=
  ⟨id, Nat.le_refl _, fun _ => rfl⟩

theorem Onward.trans {first second third : Trail × σ} (one : resolver.Onward root first second)
    (other : resolver.Onward root second third) : resolver.Onward root first third where
  visited := other.visited ∘ one.visited
  longer := one.longer.trans other.longer
  stuck full := (other.stuck (full.trans one.longer)).trans (one.stuck full)

theorem onward_each {visit : Trail × σ → ClassId → Trail × σ}
    (each : ∀ state id, resolver.Above root id → resolver.Onward root state (visit state id))
    (ids : List ClassId) (above : ∀ id ∈ ids, resolver.Above root id) (state : Trail × σ) :
    resolver.Onward root state (ids.foldl visit state) :=
  List.foldlRecOn (motive := resolver.Onward root state) ids visit (.refl state)
    fun later onward id listed => onward.trans (each later id (above id listed))

theorem onward_visit (depth : Nat) (state : Trail × σ) (id : ClassId)
    (above : resolver.Above root id) :
    resolver.Onward root state (resolver.visit take depth state id).run := by
  induction depth generalizing state id with
  | zero => exact .refl state
  | succ depth ih =>
      obtain ⟨met, yielded⟩ := state
      rw [run_visit_succ]
      by_cases old : id ∈ met.ids
      · rw [if_pos (Trail.contains_iff.mpr old)]
        exact .refl _
      rw [if_neg (by simpa using old)]
      have longer : met.ids.length ≤ (met.add id).ids.length := by simp
      by_cases full : hierarchyLimit ≤ met.ids.length
      · rw [if_pos (Trail.isFull_iff.mpr full)]
        exact ⟨fun proper => proper.add above old, longer, fun _ => rfl⟩
      rw [if_neg (by simpa using full)]
      have first : resolver.Onward root (met, yielded) (met.add id, (take yielded id).run) :=
        ⟨fun proper => proper.add above old, longer, fun reached => absurd reached full⟩
      exact first.trans (onward_each ih _ (above_of_mem_supertypesOf above) _)

/-- What has been yielded once some classes have been taken. -/
def taken (yielded : σ) (ids : List ClassId) : σ :=
  ids.foldl (fun yielded id => (take yielded id).run) yielded

/-- What visits lead to along the order in which pending classes are met.  They have taken
the classes at its front, or they have been cut off at the limit. -/
inductive Tours (resolver : Resolver Id) (take : σ → ClassId → Id σ) (met : Trail)
    (yielded : σ) (pending order : List ClassId) : Trail × σ → Prop where
  | whole {front back : List ClassId} {after : Trail} : order = front ++ back →
      after.ids = front.reverse ++ met.ids → after.ids.length ≤ hierarchyLimit →
        DepthFirst (fun id => (resolver.supertypesOf id).run) after.ids pending back →
          Tours resolver take met yielded pending order (after, taken take yielded front)
  | cut {after : Trail} : hierarchyLimit ≤ after.ids.length →
      hierarchyLimit ≤ met.ids.length + order.length →
        Tours resolver take met yielded pending order
          (after, taken take yielded (order.take (hierarchyLimit - met.ids.length)))

variable {take} {met : Trail} {yielded : σ} {pending order : List ClassId}
  {outcome : Trail × σ}

/-- No class is taken once the limit is reached. -/
theorem Tours.full {after : Trail} (full : hierarchyLimit ≤ met.ids.length)
    (still : hierarchyLimit ≤ after.ids.length) :
    resolver.Tours take met yielded pending order (after, yielded) := by
  have cut : resolver.Tours take met yielded pending order _ := .cut still (by omega)
  rwa [Nat.sub_eq_zero_of_le full, List.take_zero] at cut

theorem Tours.stay
    (walk : DepthFirst (fun id => (resolver.supertypesOf id).run) met.ids pending order) :
    resolver.Tours take met yielded pending order (met, yielded) := by
  by_cases full : hierarchyLimit ≤ met.ids.length
  · exact .full full full
  have whole : resolver.Tours take met yielded pending order (met, taken take yielded []) :=
    .whole (List.nil_append order).symm rfl (by omega) walk
  exact whole

theorem Tours.first {id : ClassId} (room : met.ids.length < hierarchyLimit)
    (inner : resolver.Tours take (met.add id) (take yielded id).run pending order outcome) :
    resolver.Tours take met yielded pending (id :: order) outcome := by
  cases inner with
  | @whole front back after split trail short later =>
      have whole : resolver.Tours take met yielded pending (id :: order)
          (after, taken take yielded (id :: front)) :=
        .whole (by rw [split]; rfl) (by simp [trail]) short later
      exact whole
  | cut full long =>
      rw [Trail.ids_add, List.length_cons] at long ⊢
      have cut : resolver.Tours take met yielded pending (id :: order) _ :=
        .cut full (by rw [List.length_cons]; omega)
      have room : hierarchyLimit - met.ids.length =
          hierarchyLimit - (met.ids.length + 1) + 1 := by
        omega
      rwa [room, List.take_succ_cons] at cut

theorem Tours.trans {waiting : List ClassId} {middle : Trail × σ}
    (one : resolver.Tours take met yielded waiting order middle)
    (others : ∀ back, DepthFirst (fun id => (resolver.supertypesOf id).run) middle.1.ids waiting
      back → resolver.Tours take middle.1 middle.2 pending back outcome)
    (onward : resolver.Onward root middle outcome) :
    resolver.Tours take met yielded pending order outcome := by
  cases one with
  | @whole front back after split trail short later =>
      have length : after.ids.length = front.length + met.ids.length := by
        rw [trail, List.length_append, List.length_reverse]
      have goesOn (last : List ClassId) :
          taken take (taken take yielded front) last = taken take yielded (front ++ last) :=
        List.foldl_append.symm
      subst split
      cases others back later with
      | @whole inner last final split trailLater shortLater toEnd =>
          rw [goesOn]
          refine .whole ?_ ?_ shortLater toEnd
          · rw [split, List.append_assoc]
          · rw [trailLater, trail, List.reverse_append, List.append_assoc]
      | @cut final full long =>
          dsimp only at long ⊢
          have cut : resolver.Tours take met yielded pending (front ++ back) _ :=
            .cut full (by rw [List.length_append]; omega)
          rw [List.take_append, List.take_of_length_le (by omega)] at cut
          rwa [goesOn, length, Nat.add_comm, Nat.sub_add_eq]
  | @cut after full long =>
      obtain ⟨final, result⟩ := outcome
      obtain rfl := onward.stuck full
      exact .cut (full.trans onward.longer) long

/-- A visit down to a depth tours a class, if there is room for the others. -/
def ToursFrom (resolver : Resolver Id) (take : σ → ClassId → Id σ) (root : ClassId)
    (room : List ClassId) (depth : Nat) : Prop :=
  ∀ id met yielded pending order, resolver.Above root id → resolver.Visited root met.ids →
    room.length ≤ depth + met.ids.length →
      DepthFirst (fun id => (resolver.supertypesOf id).run) met.ids (id :: pending) order →
        resolver.Tours take met yielded pending order
          (resolver.visit take depth (met, yielded) id).run

variable {room : List ClassId} (enough : ∀ id, resolver.Above root id → id ∈ room)

theorem tours_each {depth : Nat} (deeper : resolver.ToursFrom take root room depth)
    (ids : List ClassId) (above : ∀ id ∈ ids, resolver.Above root id) (met : Trail)
    (yielded : σ) (proper : resolver.Visited root met.ids)
    (deep : room.length ≤ depth + met.ids.length)
    (walk : DepthFirst (fun id => (resolver.supertypesOf id).run) met.ids (ids ++ pending) order) :
    resolver.Tours take met yielded pending order
      (ids.foldl (fun state id => (resolver.visit take depth state id).run) (met, yielded)) := by
  induction ids generalizing met yielded order with
  | nil => exact .stay walk
  | cons id rest ih =>
      obtain ⟨climbed, others⟩ := List.forall_mem_cons.mp above
      have one : resolver.Onward root (met, yielded)
          (resolver.visit take depth (met, yielded) id).run := onward_visit take depth _ id climbed
      have length : met.ids.length ≤ _ := one.longer
      refine (deeper id met yielded _ order climbed proper deep walk).trans (fun back further => ?_)
        (onward_each (onward_visit take depth) rest others _)
      exact ih others _ _ (one.visited proper) (by omega) further

include enough in
/-- The depth of a visit is never reached, since every level meets a class. -/
theorem toursFrom (depth : Nat) : resolver.ToursFrom take root room depth := by
  induction depth with
  | zero =>
      intro id met yielded pending order above proper deep walk
      have old : id ∈ met.ids := by
        apply Decidable.byContradiction
        intro new
        have fewer := proper.length_lt enough above new
        omega
      cases walk with
      | again _ later => exact .stay later
      | first new _ => exact absurd old new
  | succ depth ih =>
      intro id met yielded pending order above proper deep walk
      rw [run_visit_succ]
      cases walk with
      | again old later =>
          rw [if_pos (Trail.contains_iff.mpr old)]
          exact .stay later
      | first new later =>
          rw [if_neg (by simpa using new)]
          by_cases full : hierarchyLimit ≤ met.ids.length
          · rw [if_pos (Trail.isFull_iff.mpr full)]
            exact .full full (by simp only [Trail.ids_add, List.length_cons]; omega)
          rw [if_neg (by simpa using full)]
          refine .first (by omega) (tours_each ih _ (above_of_mem_supertypesOf above) _ _
            (proper.add above new) ?_ later)
          simp only [Trail.ids_add, List.length_cons]
          omega

section Walk

variable (inside : resolver.Inside)

include inside

theorem mem_of_classOf? {ref : TypeRef} {id : ClassId}
    (resolved : (resolver.classOf? ref).run = some id) :
    id ∈ (List.range resolver.model.classes.size).map ClassId.mk :=
  List.mem_map.mpr ⟨id.index, List.mem_range.mpr (inside ref id resolved), rfl⟩

/-- The classes above a class are itself and some of the model. -/
theorem mem_of_above {id : ClassId} (climbed : resolver.Above root id) :
    id ∈ root :: (List.range resolver.model.classes.size).map ClassId.mk := by
  cases climbed with
  | self => exact List.mem_cons_self
  | step _ _ resolved => exact List.mem_cons_of_mem _ (mem_of_classOf? inside resolved)

/-- The classes above a class are met in an order. -/
theorem exists_order (root : ClassId) :
    ∃ order, DepthFirst (fun id => (resolver.supertypesOf id).run) [] [root] order := by
  let room := (root :: (List.range resolver.model.classes.size).map ClassId.mk).toFinset
  have closed : ∀ id ∈ room, ∀ further ∈ (resolver.supertypesOf id).run, further ∈ room := by
    intro id _ further after
    obtain ⟨ref, -, resolved⟩ := mem_supertypesOf.mp after
    exact List.mem_toFinset.mpr (List.mem_cons_of_mem _ (mem_of_classOf? inside resolved))
  exact DepthFirst.exists_order closed (by simp [room])

/-- A walk takes the classes above its root in the order in which they are met first, up to
the limit. -/
theorem run_walk {order : List ClassId}
    (walk : DepthFirst (fun id => (resolver.supertypesOf id).run) [] [root] order) (start : σ) :
    (resolver.walk take start root).run = taken take start (order.take hierarchyLimit) := by
  have tours : resolver.ToursFrom take root _ (resolver.model.classes.size + 1) :=
    toursFrom (fun _ => mem_of_above inside) _
  have toured := tours root {} start [] order .self ⟨List.nodup_nil, by simp⟩ (by simp) walk
  unfold Resolver.walk
  rw [Id.run_bind]
  cases outcome : (resolver.visit take (resolver.model.classes.size + 1) ({}, start) root).run with
  | mk after yielded =>
      rw [outcome] at toured
      cases toured with
      | whole split trail short later =>
          cases later
          rw [List.append_nil] at split
          have length := congrArg List.length trail
          rw [split, List.take_of_length_le (by simp at length; omega)]
          rfl
      | cut _ _ => rfl

end Walk

end Visits

end Resolver

end JavaDecl
