import JavaDecl.Proofs.RememberedLookups
import JavaDecl.Proofs.TypeSubstitution

/-!
# Look-ups that only look

Looking types up, in whatever order, changes what none of them stands for.  So programs
that do nothing else yield what they yield where every type keeps what it stands for now.
What holds of the meaning of a name, and still does in larger models, holds of whatever the
look-ups of a run have found.
-/

namespace JavaDecl

namespace Session

variable (files : FileTree)

/-- What the types of a session stand for now. -/
def standing (session : Session) : Resolver Id where
  model := session.project.model
  referent ref := pure (referent ref files session).1

/-- A later session has the same model, and its types stand for the same. -/
structure Alike (session later : Session) : Prop where
  model : later.project.model = session.project.model
  referent : ∀ ref, session.project.model.Stores ref →
    (Session.referent ref files later).1 = (Session.referent ref files session).1

variable {files} {session : Session}

theorem remembered?_record (memo : Memo) (generation : Nat) (site other : RefSite)
    (result : Option Referent) :
    (memo.record generation site result).remembered? generation other =
      if site = other then some result else memo.remembered? generation other := by
  unfold Memo.remembered?
  rw [getElem?_record]
  by_cases same : site = other
  · rw [if_pos same, if_pos same]
    cases result <;> simp
  · rw [if_neg same, if_neg same]

/-- Looking a type up changes what no type stands for. -/
theorem alike_referent (coherent : session.project.model.Coherent) {ref : TypeRef}
    (stored : session.project.model.Stores ref) :
    Alike files session (referent ref files session).2 := by
  obtain ⟨library, agrees, looked⟩ := session.referent_eq files ref
  rw [looked]
  cases remembered : session.project.memo.remembered? session.library.generation ref.site with
  | some result => exact ⟨rfl, fun _ _ => rfl⟩
  | none =>
      rw [remembered] at looked
      refine ⟨rfl, fun other held => ?_⟩
      obtain ⟨asked, -, again⟩ := referent_eq files
        { project := { session.project with
            memo := session.project.memo.record session.library.generation ref.site
              (session.meaning files ref.name ref.scope) }
          library } other
      rw [again]
      dsimp only
      rw [agrees.generation, remembered?_record]
      by_cases same : ref.site = other.site
      · obtain rfl := stored.eq_of_site_eq coherent.settled held same
        rw [if_pos rfl, looked]
      · rw [if_neg same]
        obtain ⟨elsewhere, -, before⟩ := session.referent_eq files other
        rw [before]
        cases session.project.memo.remembered? session.library.generation other.site with
        | some result => rfl
        | none =>
            have onward : session.Onward files { session with library } :=
              .changeLibrary coherent (.inl agrees)
            exact onward.meaning_eq agrees coherent held

/-! ### What look-ups have found -/

section Found

variable {past : List Resolution} {ref : TypeRef}

/-- What a look-up finds has been found before or is what the name means now. -/
theorem Faithful.found {holds : TypeRef → Referent → Prop}
    (faithful : session.Faithful files past)
    (known : ∀ resolution ∈ past, ∀ found, resolution.result = some found →
      holds resolution.ref found)
    (stored : session.project.model.Stores ref) {found : Referent}
    (anew : session.meaning files ref.name ref.scope = some found → holds ref found)
    (stands : (referent ref files session).1 = some found) : holds ref found := by
  obtain ⟨library, -, looked⟩ := session.referent_eq files ref
  rw [looked] at stands
  cases faithful.lookback stored with
  | found referent held first =>
      obtain ⟨resolution, member, atSite⟩ := List.exists_of_findSome?_eq_some first
      split at atSite
      · next same =>
          rw [remembered?_of_found held] at stands
          rw [← faithful.eq_of_site_eq stored member same]
          exact known resolution member found (atSite.trans stands)
      · cases atSite
  | missed held first earlier still =>
      rw [remembered?_of_missed held] at stands
      cases stands
  | unknown fresh first earlier =>
      rw [fresh] at stands
      exact anew stands

/-- The name of a type that stands for nothing means nothing. -/
theorem Faithful.missed (faithful : session.Faithful files past)
    (stored : session.project.model.Stores ref) (missing : (referent ref files session).1 = none) :
    session.meaning files ref.name ref.scope = none := by
  obtain ⟨library, -, looked⟩ := session.referent_eq files ref
  rw [looked] at missing
  cases faithful.lookback stored with
  | found referent held first =>
      rw [remembered?_of_found held] at missing
      cases missing
  | missed held first earlier still => exact still
  | unknown fresh first earlier =>
      rw [fresh] at missing
      exact missing

variable (holds : Model → TypeRef → Referent → Prop)
  (anew : ∀ (session : Session) (ref : TypeRef) (found : Referent),
    session.meaning files ref.name ref.scope = some found → holds session.project.model ref found)
  (grown : ∀ (model larger : Model) (ref : TypeRef) (found : Referent), model.Coherent →
    model.Extends larger → model.Stores ref → holds model ref found → holds larger ref found)

include anew grown

/-- What holds of the meanings of names, and still holds in larger models, holds of what the
look-ups of a run have found. -/
theorem Run.foundBefore (run : Run files session past) :
    ∀ resolution ∈ past, ∀ found, resolution.result = some found →
      holds session.project.model resolution.ref found := by
  induction run with
  | start settings library => exact fun _ member => absurd member List.not_mem_nil
  | change run changes ih =>
      have faithful := run.faithful
      have onward := changes.onward faithful.coherent
      intro resolution member found result
      exact grown _ _ _ _ faithful.coherent onward.model.grown
        (faithful.stored resolution member) (ih resolution member found result)
  | @resolve session past ref run stored ih =>
      have alike : Alike files session (referent ref files session).2 :=
        alike_referent run.faithful.coherent stored
      intro resolution member found result
      rw [alike.model]
      rcases List.mem_append.mp member with earlier | latest
      · exact ih resolution earlier found result
      · obtain rfl := List.mem_singleton.mp latest
        exact run.faithful.found ih stored (anew session ref found) result

/-- So it holds of what the types of a run stand for. -/
theorem Run.found (run : Run files session past) (stored : session.project.model.Stores ref)
    {found : Referent} (stands : (referent ref files session).1 = some found) :
    holds session.project.model ref found :=
  run.faithful.found (run.foundBefore holds anew grown) stored (anew session ref found) stands

end Found

/-! ### Programs that only look types up -/

/-- In a session and all that are alike, a program yields a value and leaves the session
alike. -/
def Yields {α : Type} (files : FileTree) (session : Session) (program : SessionM α) (value : α) :
    Prop :=
  ∀ now, Alike files session now →
    (program files now).1 = value ∧ Alike files session (program files now).2

namespace Yields

variable {α β : Type}

theorem pure (value : α) : Yields files session (Pure.pure value) value :=
  fun _ alike => ⟨rfl, alike⟩

theorem bind {program : SessionM α} {next : α → SessionM β} {value : α} {result : β}
    (first : Yields files session program value)
    (further : Yields files session (next value) result) :
    Yields files session (program >>= next) result := by
  intro now alike
  obtain ⟨same, after⟩ := first now alike
  have ran : (program >>= next) files now =
      next (program files now).1 files (program files now).2 := rfl
  rw [ran, same]
  exact further _ after

end Yields

theorem Alike.trans {first second third : Session} (one : Alike files first second)
    (other : Alike files second third) : Alike files first third := by
  refine ⟨other.model.trans one.model, fun ref stored => ?_⟩
  have kept : second.project.model.Stores ref := by
    rw [one.model]
    exact stored
  exact (other.referent ref kept).trans (one.referent ref stored)

/-- The model of a session with its remembered look-ups. -/
def looking (session : Session) : Resolver SessionM where
  model := session.project.model
  referent := referent

@[simp]
theorem standing_model : (session.standing files).model = session.project.model :=
  rfl

@[simp]
theorem looking_model : session.looking.model = session.project.model :=
  rfl

end Session

/-! ### Types that look-ups meet -/

namespace Model

variable {model : Model}

theorem stores_superRef {id : ClassId} {ref : TypeRef}
    (listed : ref ∈ (model.classAt id).superRefs) : model.Stores ref := by
  refine ⟨.ofClass id, ref, ?_, .whole⟩
  rcases List.mem_append.mp listed with extended | implemented
  · simp [typesAt, ClassEntity.types, Option.mem_toList.mp extended]
  · simp [typesAt, ClassEntity.types, implemented]

theorem stores_bound {owner : VariableOwner} {position : Nat} {bound : TypeRef}
    (found : (model.typeParameter? owner position).bind (·.bounds.head?) = some bound) :
    model.Stores bound := by
  obtain ⟨parameter, present, first⟩ := Option.bind_eq_some_iff.mp found
  have bounds := List.mem_of_mem_head? (Option.mem_def.mpr first)
  have listed := List.mem_of_getElem? present
  cases owner with
  | ofClass id =>
      refine ⟨.ofClass id, bound, ?_, .whole⟩
      have inside : bound ∈ (model.classAt id).typeParameters.flatMap TypeParameter.bounds :=
        List.mem_flatMap.mpr ⟨parameter, listed, bounds⟩
      simp only [typesAt, ClassEntity.types, List.mem_append]
      exact .inl (.inl (.inl inside))
  | ofMethod id =>
      refine ⟨.ofMethod id, bound, ?_, .whole⟩
      have inside : bound ∈ (model.method id).typeParameters.flatMap TypeParameter.bounds :=
        List.mem_flatMap.mpr ⟨parameter, listed, bounds⟩
      simp only [typesAt, MethodEntity.types, List.mem_append]
      exact .inl (.inl (.inl inside))

end Model

/-! ### Programs of the resolver -/

namespace Session

variable {files : FileTree} {session : Session} (coherent : session.project.model.Coherent)

include coherent

namespace Yields

theorem referent {ref : TypeRef} (stored : session.project.model.Stores ref) :
    Yields files session (session.looking.referent ref)
      ((session.standing files).referent ref).run := by
  intro now alike
  refine ⟨alike.referent ref stored, alike.trans (alike_referent ?_ ?_)⟩
  · rw [alike.model]
    exact coherent
  · rw [alike.model]
    exact stored

theorem classOf? {ref : TypeRef} (stored : session.project.model.Stores ref) :
    Yields files session (session.looking.classOf? ref)
      ((session.standing files).classOf? ref).run := by
  apply (referent coherent stored).bind
  unfold Resolver.classOf?
  rw [Id.run_bind]
  rcases ((session.standing files).referent ref).run with _ | ⟨name⟩ | ⟨owner, position⟩
  · exact .pure none
  · exact .pure _
  · exact .pure none

theorem findM? {owner : ClassId} (refs : List TypeRef)
    (stored : ∀ ref ∈ refs, session.project.model.Stores ref) :
    Yields files session
      (refs.findM? fun ref => return (← session.looking.classOf? ref) == some owner)
      (refs.find? fun ref => ((session.standing files).classOf? ref).run == some owner) := by
  induction refs with
  | nil => exact .pure none
  | cons ref rest ih =>
      have first : Yields files session
          (do return (← session.looking.classOf? ref) == some owner)
          (((session.standing files).classOf? ref).run == some owner) :=
        (classOf? coherent (stored ref List.mem_cons_self)).bind (.pure _)
      have later := ih fun other member => stored other (List.mem_cons_of_mem _ member)
      unfold List.findM?
      apply first.bind
      rw [List.find?_cons]
      split
      · next found =>
          rw [found]
          exact .pure (some ref)
      · next missed =>
          rw [missed]
          exact later

theorem searchEach {owner : ClassId} {position depth : Nat}
    (deeper : ∀ id visited, Yields files session
      ((session.looking.argumentFrom? owner position depth id).run visited)
      ((session.standing files).searchFrom owner position depth id visited))
    (refs : List TypeRef) (stored : ∀ ref ∈ refs, session.project.model.Stores ref)
    (visited : Trail) :
    Yields files session ((session.looking.searchEach owner position depth refs).run visited)
      ((session.standing files).searchThrough owner position depth refs visited) := by
  induction refs generalizing visited with
  | nil => exact .pure (none, visited)
  | cons ref rest ih =>
      have later := ih fun other member => stored other (List.mem_cons_of_mem _ member)
      rw [Resolver.run_searchEach_cons, Resolver.searchThrough_cons]
      apply (classOf? coherent (stored ref List.mem_cons_self)).bind
      cases ((session.standing files).classOf? ref).run with
      | none => exact later visited
      | some next =>
          apply (deeper next visited).bind
          dsimp only
          cases (session.standing files).searchFrom owner position depth next visited with
          | mk found after =>
              cases found with
              | none => exact later after
              | some arg => exact .pure (some arg, after)

theorem argumentFrom? (owner : ClassId) (position depth : Nat) (id : ClassId)
    (visited : Trail) :
    Yields files session
      ((session.looking.argumentFrom? owner position depth id).run visited)
      ((session.standing files).searchFrom owner position depth id visited) := by
  induction depth generalizing id visited with
  | zero => exact .pure (none, visited)
  | succ depth ih =>
      have stored : ∀ ref ∈ (session.project.model.classAt id).superRefs,
          session.project.model.Stores ref :=
        fun _ listed => Model.stores_superRef listed
      rw [Resolver.run_argumentFrom?_succ, Resolver.searchFrom_succ]
      simp only [looking_model, standing_model]
      split
      · exact .pure (none, visited)
      · split
        · exact .pure (none, visited.add id)
        · apply (findM? coherent _ stored).bind
          split
          · exact .pure _
          · exact searchEach coherent ih _ stored (visited.add id)

theorem suppliedTo? (viewing : Option ClassId) (owner : VariableOwner) (position : Nat) :
    Yields files session (session.looking.suppliedTo? viewing owner position)
      ((session.standing files).suppliedTo? viewing owner position).run := by
  unfold Resolver.suppliedTo?
  split
  · next viewer declaring =>
      unfold Resolver.argument?
      split
      · exact .pure none
      · exact (argumentFrom? coherent declaring position _ viewer {}).bind (.pure _)
  · exact .pure none

section Types

variable {typeOf : TypeRef → SessionM ResolvedType} {standingTypeOf : TypeRef → Id ResolvedType}
  (same : ∀ ref, session.project.model.Stores ref →
    Yields files session (typeOf ref) (standingTypeOf ref).run)

include same

omit coherent in
theorem argumentType (arg : TypeArgument TypeRef)
    (stored : ∀ ref, arg.type? = some ref → session.project.model.Stores ref) :
    Yields files session (Resolver.argumentType typeOf arg)
      (Resolver.argumentType standingTypeOf arg).run := by
  cases arg with
  | type ref => exact same ref (stored ref rfl)
  | unbounded => exact .pure ResolvedType.unbounded
  | extending bound => exact (same bound (stored bound rfl)).bind (.pure _)
  | above bound => exact (same bound (stored bound rfl)).bind (.pure _)

omit coherent in
theorem arguments (args : List (TypeArgument TypeRef))
    (stored : ∀ arg ∈ args, ∀ ref, arg.type? = some ref → session.project.model.Stores ref) :
    Yields files session (args.mapM (Resolver.argumentType typeOf))
      (args.mapM (Resolver.argumentType standingTypeOf)).run := by
  induction args with
  | nil => exact .pure []
  | cons arg rest ih =>
      have first := argumentType same arg (stored arg List.mem_cons_self)
      have later := ih fun other member => stored other (List.mem_cons_of_mem _ member)
      rw [List.mapM_cons, List.mapM_cons]
      exact first.bind (later.bind (.pure _))

omit coherent in
theorem erasureBy (owner : VariableOwner) (position : Nat) :
    Yields files session (session.looking.erasureBy typeOf owner position)
      ((session.standing files).erasureBy standingTypeOf owner position).run := by
  unfold Resolver.erasureBy
  simp only [looking_model, standing_model]
  split
  · next bound found => exact (same bound (Model.stores_bound found)).bind (.pure _)
  · exact .pure ResolvedType.object

end Types

theorem typeAt (depth : Nat) (viewing : Option ClassId) {ref : TypeRef}
    (stored : session.project.model.Stores ref) :
    Yields files session (session.looking.typeAt depth viewing ref)
      ((session.standing files).typeAt depth viewing ref).run := by
  induction depth generalizing viewing ref with
  | zero => exact .pure ResolvedType.object
  | succ depth ih =>
      have args := arguments (fun _ => ih viewing) ref.args fun arg member part found =>
        stored.argument member found
      rw [Resolver.typeAt_succ]
      unfold Resolver.typeAt
      apply (referent coherent stored).bind
      rcases ((session.standing files).referent ref).run with _ | ⟨name⟩ | ⟨owner, position⟩
      · exact args.bind (.pure _)
      · exact args.bind (.pure _)
      · apply (suppliedTo? coherent viewing owner position).bind
        dsimp only
        cases supplied : ((session.standing files).suppliedTo? viewing owner position).run with
        | some arg =>
            obtain ⟨-, id, -, -, super, listed, member⟩ :=
              Resolver.exists_header_of_suppliedTo? supplied
            have parts : ∀ part, arg.type? = some part → session.project.model.Stores part :=
              fun _ found => (Model.stores_superRef listed).argument member found
            exact (argumentType (fun _ => ih viewing) arg parts).bind (.pure _)
        | none => exact (erasureBy (fun _ => ih none) owner position).bind (.pure _)

end Yields

end Session

end JavaDecl
