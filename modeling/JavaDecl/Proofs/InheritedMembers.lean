import JavaDecl.Proofs.HierarchyWalk
import JavaDecl.Proofs.InheritedArguments
import JavaDecl.Proofs.OwnedMembers
import JavaDecl.Proofs.StandingMembers

/-!
# Members that are inherited

The members of a class and of the classes above it, with the first of each key.  The first
is that of the class which a depth-first search meets first, and in a class that which is
declared first.
-/

namespace JavaDecl

/-! ### The first of each key -/

/-- Where a list is split at two of its items, the places are the same or one is earlier. -/
theorem split_cases {α : Type} {front back otherFront otherBack : List α} {item other : α}
    (same : front ++ item :: back = otherFront ++ other :: otherBack) :
    (front = otherFront ∧ item = other) ∨ item ∈ otherFront ∨ other ∈ front := by
  rcases List.append_eq_append_iff.mp same with ⟨between, rfl, rest⟩ | ⟨between, rfl, rest⟩
  · cases between with
    | nil => exact .inl ⟨by simp, (List.cons.inj rest).1⟩
    | cons inner _ => exact .inr (.inl (by simp [(List.cons.inj rest).1]))
  · cases between with
    | nil => exact .inl ⟨by simp, (List.cons.inj rest).1.symm⟩
    | cons inner _ => exact .inr (.inr (by simp [(List.cons.inj rest).1]))

theorem front_eq_of_nodup {α β : Type} {f : α → β} {front back otherFront otherBack : List α}
    {item other : α} (same : front ++ item :: back = otherFront ++ other :: otherBack)
    (once : ((front ++ item :: back).map f).Nodup) (equal : f item = f other) :
    front = otherFront := by
  rcases split_cases same with ⟨stands, -⟩ | before | before
  · exact stands
  · rw [same, List.map_append, List.map_cons] at once
    have twice := (List.nodup_append.mp once).2.2 _ (List.mem_map_of_mem before)
    exact absurd equal (twice _ List.mem_cons_self)
  · rw [List.map_append, List.map_cons] at once
    have twice := (List.nodup_append.mp once).2.2 _ (List.mem_map_of_mem before)
    exact absurd equal.symm (twice _ List.mem_cons_self)

/-- What is found are the first items with each key. -/
structure FirstOfEach {α : Type} (items found : List (String × Member α)) : Prop where
  first : ∀ entry ∈ found, ∃ front back, items = front ++ entry :: back ∧
    ∀ earlier ∈ front, earlier.1 ≠ entry.1
  distinct : found.Pairwise fun one other => one.1 ≠ other.1
  covers : ∀ item ∈ items, ∃ entry ∈ found, entry.1 = item.1

namespace FirstOfEach

variable {α : Type} {items found : List (String × Member α)}

theorem nil : FirstOfEach ([] : List (String × Member α)) [] :=
  ⟨by simp, .nil, by simp⟩

/-- A further item is found if none of those before it has its key. -/
theorem addMember (firsts : FirstOfEach items found) (key : String) (member : Member α) :
    FirstOfEach (items ++ [(key, member)]) (Resolver.addMember found key member) := by
  have still : ∀ entry ∈ found, ∃ front back,
      items ++ [(key, member)] = front ++ entry :: back ∧
        ∀ earlier ∈ front, earlier.1 ≠ entry.1 := by
    intro entry listed
    obtain ⟨front, back, rfl, apart⟩ := firsts.first entry listed
    exact ⟨front, back ++ [(key, member)], by simp, apart⟩
  unfold Resolver.addMember
  split
  · next known =>
      obtain ⟨entry, listed, same⟩ := List.any_eq_true.mp known
      refine ⟨still, firsts.distinct, fun item waits => ?_⟩
      rcases List.mem_append.mp waits with earlier | last
      · exact firsts.covers item earlier
      · rw [List.mem_singleton.mp last]
        exact ⟨entry, listed, beq_iff_eq.mp same⟩
  · next unknown =>
      have new : ∀ entry ∈ found, entry.1 ≠ key := by
        intro entry listed same
        exact unknown (List.any_eq_true.mpr ⟨entry, listed, beq_iff_eq.mpr same⟩)
      refine ⟨fun entry listed => ?_, ?_, fun item waits => ?_⟩
      · rcases List.mem_append.mp listed with earlier | last
        · exact still entry earlier
        · rw [List.mem_singleton.mp last]
          refine ⟨items, [], rfl, fun earlier member same => ?_⟩
          obtain ⟨entry, listed, equal⟩ := firsts.covers earlier member
          exact new entry listed (equal.trans same)
      · refine List.pairwise_append.mpr ⟨firsts.distinct, List.pairwise_singleton _ _, ?_⟩
        intro entry listed other last
        rw [List.mem_singleton.mp last]
        exact new entry listed
      · rcases List.mem_append.mp waits with earlier | last
        · obtain ⟨entry, listed, same⟩ := firsts.covers item earlier
          exact ⟨entry, List.mem_append_left _ listed, same⟩
        · rw [List.mem_singleton.mp last]
          exact ⟨(key, member), List.mem_append_right _ (List.mem_singleton.mpr rfl), rfl⟩

theorem foldl (firsts : FirstOfEach items found) (further : List (String × Member α)) :
    FirstOfEach (items ++ further)
      (further.foldl (fun found item => Resolver.addMember found item.1 item.2) found) := by
  induction further generalizing items found with
  | nil => simpa using firsts
  | cons item rest ih => simpa using ih (firsts.addMember item.1 item.2)

/-- An item is found if none of those before it has its key. -/
theorem mem_of_first (firsts : FirstOfEach items found) {front back : List (String × Member α)}
    {item : String × Member α} (split : items = front ++ item :: back)
    (apart : ∀ earlier ∈ front, earlier.1 ≠ item.1) : item ∈ found := by
  have waits : item ∈ items := by simp [split]
  obtain ⟨entry, listed, same⟩ := firsts.covers item waits
  obtain ⟨otherFront, otherBack, again, otherApart⟩ := firsts.first entry listed
  rw [split] at again
  rcases split_cases again with ⟨-, rfl⟩ | earlier | earlier
  · exact listed
  · exact absurd same.symm (otherApart item earlier)
  · exact absurd same (apart entry earlier)

end FirstOfEach

/-! ### Members that can be inherited -/

/-- The members of some classes that are not private, class by class as they are declared. -/
def Model.heritable {α : Type} (model : Model) (declared : ClassEntity → List α)
    (isPrivate : α → Bool) (order : List ClassId) : List (ClassId × α) :=
  order.flatMap fun holder =>
    ((declared (model.classAt holder)).filter fun id => !isPrivate id).map (holder, ·)

theorem Model.mem_heritable {α : Type} {model : Model} {declared : ClassEntity → List α}
    {isPrivate : α → Bool} {order : List ClassId} {holder : ClassId} {id : α} :
    (holder, id) ∈ model.heritable declared isPrivate order ↔
      holder ∈ order ∧ id ∈ declared (model.classAt holder) ∧ isPrivate id = false := by
  simp only [heritable, List.mem_flatMap, List.mem_map, List.mem_filter, Prod.mk.injEq]
  constructor
  · rintro ⟨_, visited, _, ⟨listed, open'⟩, rfl, rfl⟩
    exact ⟨visited, listed, by simpa using open'⟩
  · rintro ⟨visited, listed, open'⟩
    exact ⟨holder, visited, id, ⟨listed, by simpa using open'⟩, rfl, rfl⟩

/-- Members that each class lists once and that belong to it are listed once. -/
theorem Model.heritable_nodup {α : Type} {model : Model} {declared : ClassEntity → List α}
    {isPrivate : α → Bool} {declaring : α → ClassId}
    (once : ∀ holder, (declared (model.classAt holder)).Nodup)
    (own : ∀ holder, ∀ id ∈ declared (model.classAt holder), declaring id = holder)
    {order : List ClassId} (nodup : order.Nodup) :
    ((model.heritable declared isPrivate order).map Prod.snd).Nodup := by
  induction order with
  | nil => exact List.nodup_nil
  | cons holder rest ih =>
      obtain ⟨new, nodup⟩ := List.nodup_cons.mp nodup
      have split : (model.heritable declared isPrivate (holder :: rest)).map Prod.snd =
          (declared (model.classAt holder)).filter (fun id => !isPrivate id) ++
            (model.heritable declared isPrivate rest).map Prod.snd := by
        simp [heritable, Function.comp_def]
      rw [split]
      refine List.nodup_append.mpr ⟨(once holder).filter _, ih nodup, ?_⟩
      rintro id listed other waits rfl
      obtain ⟨⟨elsewhere, found⟩, inherited, rfl⟩ := List.mem_map.mp waits
      obtain ⟨visited, further, -⟩ := mem_heritable.mp inherited
      have here := own holder _ (List.mem_filter.mp listed).1
      rw [own elsewhere _ further] at here
      exact new (here ▸ visited)

/-- Members as a class has them: each is declared in one of the classes from which the class
inherits, none has the key of another, and those are taken that come first. -/
structure Aggregates {α : Type} (root : ClassId) (declaring : α → ClassId)
    (heritable : List (ClassId × α)) (key : α → String) (members : List (Member α)) : Prop where
  sound : ∀ member ∈ members, (declaring member.id, member.id) ∈ heritable ∧
    member.viewing = if declaring member.id = root then none else some root
  distinct : members.Pairwise fun one other => key one.id ≠ key other.id
  covers : ∀ holder id, (holder, id) ∈ heritable → ∃ member ∈ members, key member.id = key id
  first : ∀ front holder id back, heritable = front ++ (holder, id) :: back →
    ((∃ member ∈ members, member.id = id) ↔ ∀ earlier ∈ front, key earlier.2 ≠ key id)

def keyed {α : Type} (root : ClassId) (key : α → String) (candidate : ClassId × α) :
    String × Member α :=
  (key candidate.2, Member.found root candidate.1 candidate.2)

theorem Member.id_found {α : Type} (root holder : ClassId) (id : α) :
    (Member.found root holder id).id = id := by
  unfold Member.found
  split <;> rfl

theorem Member.viewing_found {α : Type} (root holder : ClassId) (id : α) :
    (Member.found root holder id).viewing = if holder = root then none else some root := by
  unfold Member.found
  split <;> rfl

namespace FirstOfEach

variable {α : Type} {root : ClassId} {heritable : List (ClassId × α)} {key : α → String}
  {found : List (String × Member α)}
  (firsts : FirstOfEach (heritable.map (keyed root key)) found)

include firsts

theorem exists_candidate {entry : String × Member α} (member : entry ∈ found) :
    ∃ candidate ∈ heritable, entry = keyed root key candidate := by
  obtain ⟨front, back, split, -⟩ := firsts.first entry member
  have waits : entry ∈ heritable.map (keyed root key) := by simp [split]
  obtain ⟨candidate, inherited, rfl⟩ := List.mem_map.mp waits
  exact ⟨candidate, inherited, rfl⟩

theorem key_id {entry : String × Member α} (member : entry ∈ found) :
    key entry.2.id = entry.1 := by
  obtain ⟨candidate, -, rfl⟩ := firsts.exists_candidate member
  exact congrArg key (Member.id_found ..)

theorem distinct_keys :
    (found.map Prod.snd).Pairwise fun one other => key one.id ≠ key other.id := by
  refine List.pairwise_map.mpr (firsts.distinct.imp_of_mem fun one other differ => ?_)
  rw [firsts.key_id one, firsts.key_id other]
  exact differ

/-- The first of each key are the members that a class has. -/
theorem aggregates {declaring : α → ClassId}
    (own : ∀ holder id, (holder, id) ∈ heritable → declaring id = holder)
    (once : (heritable.map Prod.snd).Nodup) :
    Aggregates root declaring heritable key (found.map Prod.snd) := by
  refine ⟨fun member known => ?_, firsts.distinct_keys, fun holder id inherited => ?_,
    fun front holder id back split => ⟨?_, fun apart => ?_⟩⟩
  · obtain ⟨entry, member, rfl⟩ := List.mem_map.mp known
    obtain ⟨⟨holder, id⟩, inherited, rfl⟩ := firsts.exists_candidate member
    rw [keyed, Member.id_found, own holder id inherited]
    exact ⟨inherited, Member.viewing_found root holder id⟩
  · obtain ⟨entry, member, same⟩ := firsts.covers _ (List.mem_map_of_mem inherited)
    exact ⟨entry.2, List.mem_map_of_mem member, (firsts.key_id member).trans same⟩
  · rintro ⟨member, known, rfl⟩ earlier before same
    obtain ⟨entry, member, rfl⟩ := List.mem_map.mp known
    obtain ⟨entryFront, entryBack, place, apart⟩ := firsts.first entry member
    obtain ⟨otherFront, rest, again, rfl, onward⟩ := List.map_eq_append_iff.mp place
    obtain ⟨candidate, otherBack, rfl, rfl, rfl⟩ := List.map_eq_cons_iff.mp onward
    have found' : (keyed root key candidate).2.id = candidate.2 := Member.id_found ..
    rw [split] at again once
    have stands := front_eq_of_nodup again once found'
    refine apart (keyed root key earlier) (List.mem_map_of_mem (stands ▸ before)) ?_
    exact same.trans (congrArg key found')
  · have place : heritable.map (keyed root key) =
        front.map (keyed root key) ++ keyed root key (holder, id) :: back.map (keyed root key) := by
      simp [split]
    have member := firsts.mem_of_first place fun earlier before => by
      obtain ⟨candidate, known, rfl⟩ := List.mem_map.mp before
      exact apart candidate known
    exact ⟨_, List.mem_map_of_mem member, Member.id_found ..⟩

end FirstOfEach

namespace Resolver

variable {resolver : Resolver Id} {root : ClassId}

def collect {α : Type} (resolver : Resolver Id) (declared : ClassEntity → List α)
    (key? : α → Id (Option String)) (root : ClassId) (found : List (String × Member α))
    (holder : ClassId) : Id (List (String × Member α)) :=
  (declared (resolver.model.classAt holder)).foldlM (fun found id => do
    match ← key? id with
    | some key => return addMember found key (Member.found root holder id)
    | none => return found) found

section Collect

variable {α : Type} {declared : ClassEntity → List α} {key? : α → Id (Option String)}

theorem run_membersBy : (resolver.membersBy declared key? root).run =
    (resolver.walk (resolver.collect declared key? root) [] root).run.map Prod.snd :=
  rfl

variable {isPrivate : α → Bool} {key : α → String}
  (keys : ∀ id, (key? id).run = if isPrivate id then none else some (key id))

include keys

theorem run_collect (found : List (String × Member α)) (holder : ClassId) :
    (resolver.collect declared key? root found holder).run =
      ((((declared (resolver.model.classAt holder)).filter fun id => !isPrivate id).map
        (holder, ·)).map (keyed root key)).foldl
          (fun found item => addMember found item.1 item.2) found := by
  unfold collect
  rw [List.idRun_foldlM, List.foldl_map, List.foldl_map, List.foldl_filter]
  congr
  funext found id
  rw [Id.run_bind, keys]
  cases isPrivate id <;> rfl

/-- The members of a class are the first of each key among those that it can inherit. -/
theorem exists_run_membersBy
    (inside : resolver.Inside)
    {order : List ClassId}
    (walk : DepthFirst (fun id => (resolver.supertypesOf id).run) [] [root] order) :
    ∃ found, FirstOfEach ((resolver.model.heritable declared isPrivate
        (order.take hierarchyLimit)).map (keyed root key)) found ∧
      (resolver.membersBy declared key? root).run = found.map Prod.snd := by
  -- The walk is a fold over the order, and each class in it folds over its own members.
  have walked : (resolver.walk (resolver.collect declared key? root) [] root).run = _ :=
    run_walk inside walk []
  have firsts := FirstOfEach.nil.foldl
    ((resolver.model.heritable declared isPrivate (order.take hierarchyLimit)).map
      (keyed root key))
  refine ⟨_, firsts, ?_⟩
  rw [run_membersBy, walked]
  simp only [taken, run_collect keys, Model.heritable, List.map_flatMap, List.foldl_flatMap]

end Collect

/-- The signature of a method as seen from a class, unless the method is private. -/
def methodKey? (resolver : Resolver Id) (root : ClassId) (method : MethodId) :
    Id (Option String) := do
  let entity := resolver.model.method method
  if entity.isPrivate then return none
  else return some (← resolver.signatureKey entity root)

theorem run_methodKey? (method : MethodId) :
    (resolver.methodKey? root method).run =
      if (resolver.model.method method).isPrivate then none
      else some (resolver.signatureKey (resolver.model.method method) root).run := by
  unfold methodKey?
  dsimp only
  split <;> rfl

def fieldKey? (resolver : Resolver Id) (field : FieldId) : Id (Option String) :=
  let entity := resolver.model.field field
  pure (if entity.isPrivate then none else some entity.name)

theorem run_fieldKey? (field : FieldId) :
    (resolver.fieldKey? field).run =
      if (resolver.model.field field).isPrivate then none
      else some (resolver.model.field field).name :=
  rfl

theorem methods_eq_membersBy :
    resolver.methods root true =
      resolver.membersBy ClassEntity.methods (resolver.methodKey? root) root :=
  rfl

theorem fields_eq_membersBy :
    resolver.fields root true = resolver.membersBy ClassEntity.fields resolver.fieldKey? root :=
  rfl

end Resolver

namespace Session

variable {files : FileTree} {session : Session} (coherent : session.project.model.Coherent)

include coherent

theorem observe_signatureKey (method : MethodId) (viewing : ClassId) :
    session.observe files (fun resolver =>
      resolver.signatureKey (resolver.model.method method) viewing) =
        ((session.standing files).signatureKey (session.project.model.method method) viewing).run :=
  observe_eq (Yields.signatureKey coherent method viewing)

theorem observe_methods (id : ClassId) (withInherited : Bool) :
    session.observe files (·.methods id withInherited) =
      ((session.standing files).methods id withInherited).run :=
  observe_eq (Yields.methods coherent id withInherited)

theorem observe_fields (id : ClassId) (withInherited : Bool) :
    session.observe files (·.fields id withInherited) =
      ((session.standing files).fields id withInherited).run :=
  observe_eq (Yields.fields coherent id withInherited)

end Session

section Run

variable {files : FileTree} {session : Session} {past : List Session.Resolution}
  (run : Session.Run files session past) {root : ClassId} {order : List ClassId}
  (walk : DepthFirst (fun id => session.observe files (·.supertypesOf id)) [] [root] order)

include run walk

/-- The members of a sort that a class has come from the classes above it in their order. -/
theorem Session.Run.aggregates_membersBy {α : Type} {declared : ClassEntity → List α}
    {key? : α → Id (Option String)} {isPrivate : α → Bool} {key : α → String}
    {declaring : α → ClassId}
    (keys : ∀ id, (key? id).run = if isPrivate id then none else some (key id))
    (own : ∀ holder, ∀ id ∈ declared (session.project.model.classAt holder), declaring id = holder)
    (once : ∀ holder, (declared (session.project.model.classAt holder)).Nodup) :
    Aggregates root declaring
      (session.project.model.heritable declared isPrivate (order.take hierarchyLimit)) key
      ((session.standing files).membersBy declared key? root).run := by
  have coherent := run.faithful.coherent
  simp only [Session.observe_supertypesOf coherent] at walk
  obtain ⟨found, firsts, collected⟩ :=
    Resolver.exists_run_membersBy keys (Session.inside coherent) walk
  rw [collected]
  refine firsts.aggregates (fun holder id inherited => ?_) ?_
  · exact own holder id (Model.mem_heritable.mp inherited).2.1
  · exact Model.heritable_nodup once own (walk.nodup.sublist (List.take_sublist _ _))

theorem Session.Run.aggregates_methods :
    Aggregates root (fun id => (session.project.model.method id).declaring)
      (session.project.model.heritable ClassEntity.methods
        (fun id => (session.project.model.method id).isPrivate) (order.take hierarchyLimit))
      (fun id => session.observe files fun resolver =>
        resolver.signatureKey (resolver.model.method id) root)
      (session.observe files (·.methods root true)) := by
  have coherent := run.faithful.coherent
  have owned := run.owned
  simp only [Session.observe_signatureKey coherent, Session.observe_methods coherent,
    Resolver.methods_eq_membersBy]
  exact run.aggregates_membersBy walk Resolver.run_methodKey?
    (fun holder id listed => ((owned holder).method id listed).2.declaring)
    fun holder => (owned holder).methods

theorem Session.Run.aggregates_fields :
    Aggregates root (fun id => (session.project.model.field id).declaring)
      (session.project.model.heritable ClassEntity.fields
        (fun id => (session.project.model.field id).isPrivate) (order.take hierarchyLimit))
      (fun id => (session.project.model.field id).name)
      (session.observe files (·.fields root true)) := by
  have coherent := run.faithful.coherent
  have owned := run.owned
  simp only [Session.observe_fields coherent, Resolver.fields_eq_membersBy]
  exact run.aggregates_membersBy walk Resolver.run_fieldKey?
    (fun holder id listed => ((owned holder).field id listed).2)
    fun holder => (owned holder).fields

end Run

/-- The members that a class has, inherited ones included.  They are those of the classes
that a depth-first search meets above the class, superclasses before interfaces; each key
occurs once, and it is taken by the first member that has it.  This is so for methods, with
their signatures as seen from the class, and for fields, with their names. -/
theorem inherited_members_aggregate {files : FileTree} {session : Session}
    {past : List Session.Resolution} (run : Session.Run files session past) {root : ClassId}
    {classes : List ClassId} (bounded : classes.length ≤ hierarchyLimit)
    (complete : ∀ id, (session.standing files).Above root id → id ∈ classes) :
    ∃ order,
      DepthFirst (fun id => session.observe files (·.supertypesOf id)) [] [root] order ∧
        (∀ id, id ∈ order ↔ (session.standing files).Above root id) ∧
        Aggregates root (fun id => (session.project.model.method id).declaring)
          (session.project.model.heritable ClassEntity.methods
            (fun id => (session.project.model.method id).isPrivate) order)
          (fun id => session.observe files fun resolver =>
            resolver.signatureKey (resolver.model.method id) root)
          (session.observe files (·.methods root true)) ∧
        Aggregates root (fun id => (session.project.model.field id).declaring)
          (session.project.model.heritable ClassEntity.fields
            (fun id => (session.project.model.field id).isPrivate) order)
          (fun id => (session.project.model.field id).name)
          (session.observe files (·.fields root true)) := by
  have coherent := run.faithful.coherent
  obtain ⟨order, walk⟩ := Session.exists_order coherent root
  have methods := run.aggregates_methods walk
  have fields := run.aggregates_fields walk
  rw [Session.order_within_limit coherent bounded complete walk] at methods fields
  refine ⟨order, walk, fun id => ?_, methods, fields⟩
  simp only [Session.observe_supertypesOf coherent] at walk
  exact Resolver.mem_iff_above walk

/-! ### A hierarchy with a cycle -/

namespace Session

/-- The class that a type stands for if nothing is remembered. -/
def meant? (files : FileTree) (session : Session) (ref : TypeRef) : Option ClassId :=
  match session.meaning files ref.name ref.scope with
  | some (.named name) => session.project.model.firstNamed? name
  | _ => none

variable (files : FileTree) {session : Session}
  (first : session.project.model.NamesFirst) (forgotten : session.project.memo = ∅)

include forgotten

theorem stands_of_forgotten (ref : TypeRef) :
    ((session.standing files).referent ref).run = session.meaning files ref.name ref.scope :=
  referent_of_forgotten files forgotten ref

include first

theorem classOf?_of_forgotten (ref : TypeRef) :
    ((session.standing files).classOf? ref).run = session.meant? files ref := by
  unfold Resolver.classOf? meant?
  rw [Id.run_bind, stands_of_forgotten files forgotten]
  rcases session.meaning files ref.name ref.scope with _ | ⟨name⟩ | ⟨owner, position⟩
  · rfl
  · exact first name
  · rfl

theorem supertypesOf_of_forgotten (id : ClassId) :
    ((session.standing files).supertypesOf id).run =
      (session.project.model.classAt id).superRefs.filterMap (session.meant? files) := by
  unfold Resolver.supertypesOf
  rw [Resolver.run_filterMapM]
  exact congrArg (List.filterMap · _) (funext (classOf?_of_forgotten files first forgotten))

theorem above_of_forgotten {root id next : ClassId} {ref : TypeRef}
    (above : (session.standing files).Above root id)
    (listed : ref ∈ (session.project.model.classAt id).superRefs)
    (meant : session.meant? files ref = some next) : (session.standing files).Above root next :=
  .step above listed ((classOf?_of_forgotten files first forgotten ref).trans meant)

/-- A list of classes that has their supertypes has all that is above them. -/
theorem mem_of_above_of_forgotten {classes : List ClassId}
    (closed : ∀ id ∈ classes, ∀ next ∈ (session.project.model.classAt id).superRefs.filterMap
      (session.meant? files), next ∈ classes)
    {root : ClassId} (listed : root ∈ classes) {id : ClassId}
    (above : (session.standing files).Above root id) : id ∈ classes := by
  induction above with
  | self => exact listed
  | step _ member resolved ih =>
      rw [classOf?_of_forgotten files first forgotten] at resolved
      exact closed _ ih _ (List.mem_filterMap.mpr ⟨_, member, resolved⟩)

end Session

/-- A project with a class and two interfaces that extend each other. -/
def interfaceRing : Session :=
  (Session.add ("class C implements J \x7b public void f() \x7b\x7d int x; \x7d " ++
      "interface I extends J \x7b void f(); int y = 1; \x7d " ++
      "interface J extends I \x7b void g(); int x = 2; \x7d") {}
    { project := {}, library := .ofCore }).2

theorem interfaceRing_supertypes :
    [ClassId.mk 0, ⟨1⟩, ⟨2⟩].map (fun id =>
      (interfaceRing.project.model.classAt id).superRefs.filterMap (interfaceRing.meant? {})) =
        [[⟨2⟩], [⟨2⟩], [⟨1⟩]] := by
  decide +kernel

/-- The class has the methods and fields of both interfaces, one after the other. -/
theorem members_of_interface_ring :
    (∀ id, (interfaceRing.standing {}).Above ⟨0⟩ id → id ∈ [ClassId.mk 0, ⟨1⟩, ⟨2⟩]) ∧
      Aggregates ⟨0⟩ (fun id => (interfaceRing.project.model.method id).declaring)
        (interfaceRing.project.model.heritable ClassEntity.methods
          (fun id => (interfaceRing.project.model.method id).isPrivate) [⟨0⟩, ⟨2⟩, ⟨1⟩])
        (fun id => interfaceRing.observe {} fun resolver =>
          resolver.signatureKey (resolver.model.method id) ⟨0⟩)
        (interfaceRing.observe {} (·.methods ⟨0⟩ true)) := by
  have run : Session.Run {} interfaceRing [] := .change (.start {} .ofCore) (.add _ _)
  have coherent := run.faithful.coherent
  have forgotten := run.forgotten
  have supertypes := Session.supertypesOf_of_forgotten {} run.namesFirst forgotten
  have listed := interfaceRing_supertypes
  simp only [List.map_cons, List.map_nil, List.cons.injEq, and_true] at listed
  obtain ⟨ofClass, ofFirst, ofSecond⟩ := listed
  have complete : ∀ id, (interfaceRing.standing {}).Above ⟨0⟩ id →
      id ∈ [ClassId.mk 0, ⟨1⟩, ⟨2⟩] := by
    intro id above
    refine Session.mem_of_above_of_forgotten {} run.namesFirst forgotten ?_ (by simp) above
    simp only [List.forall_mem_cons, ofClass, ofFirst, ofSecond]
    simp
  obtain ⟨order, walk, -, methods, -⟩ := inherited_members_aggregate run (by decide) complete
  have steps : DepthFirst (fun id => interfaceRing.observe {} (·.supertypesOf id)) [] [⟨0⟩]
      [⟨0⟩, ⟨2⟩, ⟨1⟩] := by
    simp only [Session.observe_supertypesOf coherent, supertypes]
    refine .first (by simp) ?_
    rw [ofClass]
    refine .first (by simp) ?_
    rw [ofSecond]
    refine .first (by simp) ?_
    rw [ofFirst]
    exact .again (by simp) (.done _)
  obtain rfl := walk.unique steps
  exact ⟨complete, methods⟩

end JavaDecl
