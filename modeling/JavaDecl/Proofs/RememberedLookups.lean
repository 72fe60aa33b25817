import JavaDecl.Proofs.GrownLookup
import JavaDecl.Proofs.SessionChanges

/-!
# Remembered look-ups

A look-up that is remembered is never stale.  `Run` mixes builds, changes of the library
and look-ups of stored types in any order, and keeps a record of the look-ups.  Whatever
the order, a look-up yields what the first successful one for the same type has yielded,
or else what the name stands for now.
-/

namespace JavaDecl

namespace Session

variable (files : FileTree)

/-! ### Looking a name up -/

/-- What a name stands for at a place, by what the library answers. -/
def meaning (session : Session) (name : String) (scope : Scope) :
    Option Referent :=
  Id.run (session.project.model.resolveName session.project.settings.order
    (fun asked => pure (session.library.answer files asked)) name scope)

theorem knows_eq (session : Session) (name : String) :
    knows name files session =
      (session.library.answer files name,
        { session with library := (session.library.contains files name).2 }) :=
  rfl

/-- Asking for candidates changes no answer. -/
theorem firstAdmissible_knows (candidates : List Candidate) (session : Session) :
    ∃ library, session.library.Agrees files library ∧
      firstAdmissible knows candidates files session =
        (Id.run (firstAdmissible (fun asked => pure (session.library.answer files asked))
          candidates), { session with library }) := by
  induction candidates generalizing session with
  | nil => exact ⟨session.library, .refl files _, rfl⟩
  | cons candidate rest ih =>
      cases candidate with
      | certain name => exact ⟨session.library, .refl files _, rfl⟩
      | ifKnown name =>
          have asked := session.library.agrees_contains files name
          cases known : session.library.answer files name with
          | true =>
              refine ⟨_, asked, ?_⟩
              simp only [firstAdmissible, Bind.bind, ReaderT.bind, StateT.bind, knows_eq, known]
              rfl
          | false =>
              obtain ⟨library, agrees, further⟩ :=
                ih { session with library := (session.library.contains files name).2 }
              have same : (session.library.contains files name).2.answer files =
                  session.library.answer files := funext asked.answer
              refine ⟨library, asked.trans agrees, ?_⟩
              rw [same] at further
              simp only [firstAdmissible, Bind.bind, ReaderT.bind, StateT.bind, knows_eq, known]
              exact further

/-- A look-up yields what the name stands for and changes no answer. -/
theorem lookUp_eq (session : Session) (name : String) (scope : Scope) :
    ∃ library, session.library.Agrees files library ∧
      lookUp name scope files session =
        (session.meaning files name scope, { session with library }) := by
  have fetched : lookUp name scope files session =
      session.project.model.resolveName session.project.settings.order knows name scope files
        session := rfl
  rw [fetched]
  unfold meaning Model.resolveName
  split
  · exact ⟨session.library, .refl files _, rfl⟩
  · cases session.project.model.typeVariable? name scope with
    | some parameter => exact ⟨session.library, .refl files _, rfl⟩
    | none =>
        obtain ⟨library, agrees, found⟩ := firstAdmissible_knows files
          (session.project.model.candidates session.project.settings.order name scope) session
        refine ⟨library, agrees, ?_⟩
        simp only [Bind.bind, ReaderT.bind, StateT.bind, found]
        rfl

/-- A look-up of a type that is remembered leaves the session alone.  Another one yields
what the name stands for, remembers it and changes no answer. -/
theorem referent_eq (session : Session) (ref : TypeRef) :
    ∃ library, session.library.Agrees files library ∧
      referent ref files session =
        match session.project.memo.remembered? session.library.generation ref.site with
        | some result => (result, session)
        | none =>
            (session.meaning files ref.name ref.scope,
              { project := { session.project with
                  memo := session.project.memo.record session.library.generation ref.site
                    (session.meaning files ref.name ref.scope) }
                library }) := by
  obtain ⟨library, agrees, looked⟩ := session.lookUp_eq files ref.name ref.scope
  refine ⟨library, agrees, ?_⟩
  have started : referent ref files session =
      ((match session.project.memo.remembered? session.library.generation ref.site with
        | some result => pure result
        | none => do
            let result ← lookUp ref.name ref.scope
            modify fun looked =>
              let memo := looked.project.memo.record session.library.generation ref.site result
              { looked with project := { looked.project with memo } }
            return result : SessionM (Option Referent))) files session :=
    rfl
  rw [started]
  cases session.project.memo.remembered? session.library.generation ref.site with
  | some result => rfl
  | none =>
      simp only [Bind.bind, ReaderT.bind, StateT.bind, looked]
      rfl

/-- Where nothing is remembered, types stand for what their names mean. -/
theorem referent_of_forgotten {session : Session} (forgotten : session.project.memo = ∅)
    (ref : TypeRef) :
    (referent ref files session).1 = session.meaning files ref.name ref.scope := by
  obtain ⟨library, -, looked⟩ := session.referent_eq files ref
  have blank : session.project.memo.remembered? session.library.generation ref.site = none := by
    rw [forgotten]
    simp [Memo.remembered?]
  rw [looked, blank]

/-- A look-up leaves the generation of the library as it is. -/
theorem generation_referent (session : Session) (ref : TypeRef) :
    (referent ref files session).2.library.generation = session.library.generation := by
  obtain ⟨library, agrees, looked⟩ := session.referent_eq files ref
  rw [looked]
  cases session.project.memo.remembered? session.library.generation ref.site with
  | some result => rfl
  | none => exact agrees.generation

/-! ### Runs -/

/-- A look-up of a type in a run. -/
structure Resolution where
  ref : TypeRef
  generation : Nat
  result : Option Referent

/-- The runs of a project: changes and look-ups of types that the model stores, in any
order.  A run keeps a record of its look-ups, the first one first. -/
inductive Run : Session → List Resolution → Prop where
  | start (settings : Settings) (library : Library) :
      Run { project := { settings }, library } []
  | change {session changed : Session} {past : List Resolution} :
      Run session past → Changes files session changed → Run changed past
  | resolve {session : Session} {past : List Resolution} {ref : TypeRef} :
      Run session past → session.project.model.Stores ref →
        Run (referent ref files session).2
          (past ++ [⟨ref, session.library.generation, (referent ref files session).1⟩])

/-- The first success among the look-ups at a site. -/
def firstFound (past : List Resolution) (site : RefSite) : Option Referent :=
  past.findSome? fun resolution =>
    if resolution.ref.site = site then resolution.result else none

theorem firstFound_append (past : List Resolution) (last : Resolution) (site : RefSite) :
    firstFound (past ++ [last]) site =
      (firstFound past site).or (if last.ref.site = site then last.result else none) := by
  simp [firstFound, List.findSome?_append]

theorem firstFound_eq_none_iff {past : List Resolution} {site : RefSite} :
    firstFound past site = none ↔
      ∀ resolution ∈ past, resolution.ref.site = site → resolution.result = none := by
  simp [firstFound, List.findSome?_eq_none_iff]

/-- What is remembered at a site agrees with the look-ups there.  A miss of the present
generation is still one. -/
def Recalls (session : Session) (past : List Resolution) (site : RefSite) :
    Option Recollection → Prop
  | none => ∀ resolution ∈ past, resolution.ref.site ≠ site
  | some (.found referent) => firstFound past site = some referent
  | some (.missed generation) =>
      generation ≤ session.library.generation ∧
        (∃ resolution ∈ past, resolution.ref.site = site) ∧
          ∀ resolution ∈ past, resolution.ref.site = site →
            resolution.result = none ∧ resolution.generation ≤ generation ∧
              (generation = session.library.generation →
                session.meaning files resolution.ref.name resolution.ref.scope = none)

/-- The memo of a session agrees with the look-ups of a run. -/
structure Faithful (session : Session) (past : List Resolution) : Prop where
  coherent : session.project.model.Coherent
  stored : ∀ resolution ∈ past, session.project.model.Stores resolution.ref
  recalls : ∀ site, session.Recalls files past site session.project.memo[site]?

variable {files} {session changed : Session} {past : List Resolution}

/-- Without a new generation a stored type stands for what it stood for. -/
theorem Onward.meaning_eq (onward : session.Onward files changed)
    (agrees : session.library.Agrees files changed.library)
    (coherent : session.project.model.Coherent) {ref : TypeRef}
    (stored : session.project.model.Stores ref) :
    changed.meaning files ref.name ref.scope = session.meaning files ref.name ref.scope := by
  have inside := stored.scope_inside coherent.settled
  have answers : changed.library.answer files = session.library.answer files :=
    funext agrees.answer
  unfold meaning
  rw [onward.settings, answers,
    Model.resolveName_eq coherent onward.model.grown inside]

/-- What agrees with the look-ups so far does so after a change. -/
theorem Recalls.onward {site : RefSite} {recollection : Option Recollection}
    (recalls : session.Recalls files past site recollection)
    (faithful : session.Faithful files past) (onward : session.Onward files changed) :
    changed.Recalls files past site recollection := by
  cases recollection with
  | none => exact recalls
  | some recollection =>
      cases recollection with
      | found referent => exact recalls
      | missed generation =>
          obtain ⟨earlier, looked, missed⟩ := recalls
          refine ⟨Nat.le_trans earlier onward.library.generation_le, looked, ?_⟩
          intro resolution member atSite
          obtain ⟨result, before, still⟩ := missed resolution member atSite
          refine ⟨result, before, fun present => ?_⟩
          rcases onward.library with agrees | newer
          · rw [onward.meaning_eq agrees faithful.coherent (faithful.stored resolution member)]
            exact still (present.trans agrees.generation)
          · omega

theorem Faithful.change (faithful : session.Faithful files past)
    (onward : session.Onward files changed) : changed.Faithful files past := by
  refine ⟨onward.model.coherent, fun resolution member => ?_, fun site => ?_⟩
  · exact onward.model.grown.stores (faithful.stored resolution member)
  · rw [onward.memo]
    exact (faithful.recalls site).onward faithful onward

/-! ### Look-ups in a run -/

/-- A look-up of a type says nothing about other sites. -/
theorem Recalls.append {site : RefSite} {recollection : Option Recollection}
    (recalls : session.Recalls files past site recollection) {last : Resolution}
    (other : last.ref.site ≠ site) :
    session.Recalls files (past ++ [last]) site recollection := by
  have members : ∀ resolution ∈ past ++ [last], resolution.ref.site = site →
      resolution ∈ past := by
    intro resolution member atSite
    rcases List.mem_append.mp member with earlier | latest
    · exact earlier
    · rw [List.mem_singleton.mp latest] at atSite
      exact absurd atSite other
  cases recollection with
  | none =>
      intro resolution member atSite
      exact recalls resolution (members resolution member atSite) atSite
  | some recollection =>
      cases recollection with
      | found referent =>
          have found : firstFound past site = some referent := recalls
          change firstFound (past ++ [last]) site = some referent
          rw [firstFound_append, if_neg other, found]
          rfl
      | missed generation =>
          obtain ⟨earlier, ⟨looked, member, atSite⟩, missed⟩ := recalls
          refine ⟨earlier, ⟨looked, List.mem_append_left _ member, atSite⟩, ?_⟩
          intro resolution member atSite
          exact missed resolution (members resolution member atSite) atSite

theorem remembered?_of_found {memo : Memo} {site : RefSite} {referent : Referent}
    (held : memo[site]? = some (.found referent)) (generation : Nat) :
    memo.remembered? generation site = some (some referent) := by
  simp [Memo.remembered?, held]

theorem remembered?_of_missed {memo : Memo} {site : RefSite} {generation : Nat}
    (held : memo[site]? = some (.missed generation)) :
    memo.remembered? generation site = some none := by
  simp [Memo.remembered?, held]

/-- What is known of the look-ups of a stored type when it is looked up again. -/
inductive Lookback (files : FileTree) (session : Session) (past : List Resolution)
    (ref : TypeRef) : Prop where
  /-- It has been found. -/
  | found (referent : Referent)
      (held : session.project.memo[ref.site]? = some (.found referent))
      (first : firstFound past ref.site = some referent)
  /-- It was missed in the present generation. -/
  | missed (held : session.project.memo[ref.site]? = some (.missed session.library.generation))
      (first : firstFound past ref.site = none)
      (earlier : ∀ resolution ∈ past, resolution.ref.site = ref.site →
        resolution.generation ≤ session.library.generation)
      (still : session.meaning files ref.name ref.scope = none)
  /-- It was missed in earlier generations at most. -/
  | unknown
      (fresh : session.project.memo.remembered? session.library.generation ref.site = none)
      (first : firstFound past ref.site = none)
      (earlier : ∀ resolution ∈ past, resolution.ref.site = ref.site →
        resolution.generation < session.library.generation)

/-- Types that have been looked up at the site of a stored type are that type. -/
theorem Faithful.eq_of_site_eq (faithful : session.Faithful files past) {ref : TypeRef}
    (stored : session.project.model.Stores ref) {resolution : Resolution}
    (member : resolution ∈ past) (atSite : resolution.ref.site = ref.site) :
    resolution.ref = ref :=
  (faithful.stored resolution member).eq_of_site_eq faithful.coherent.settled stored atSite

theorem Faithful.lookback (faithful : session.Faithful files past) {ref : TypeRef}
    (stored : session.project.model.Stores ref) : Lookback files session past ref := by
  have recalls := faithful.recalls ref.site
  cases held : session.project.memo[ref.site]? with
  | none =>
      rw [held] at recalls
      apply Lookback.unknown
      · simp [Memo.remembered?, held]
      · rw [firstFound_eq_none_iff]
        intro resolution member atSite
        exact absurd atSite (recalls resolution member)
      · intro resolution member atSite
        exact absurd atSite (recalls resolution member)
  | some recollection =>
      rw [held] at recalls
      cases recollection with
      | found referent => exact .found referent held recalls
      | missed generation =>
          obtain ⟨earlier, ⟨looked, lookedIn, lookedAt⟩, missed⟩ := recalls
          have first : firstFound past ref.site = none := by
            rw [firstFound_eq_none_iff]
            intro resolution member atSite
            exact (missed resolution member atSite).1
          by_cases present : generation = session.library.generation
          · have still := (missed looked lookedIn lookedAt).2.2 present
            rw [faithful.eq_of_site_eq stored lookedIn lookedAt] at still
            rw [present] at held
            refine .missed held first ?_ still
            intro resolution member atSite
            exact Nat.le_trans (missed resolution member atSite).2.1 earlier
          · apply Lookback.unknown
            · simp [Memo.remembered?, held, present]
            · exact first
            · intro resolution member atSite
              have before := (missed resolution member atSite).2.1
              omega

/-- One more look-up.  What is remembered elsewhere stays the same. -/
theorem Faithful.append (faithful : session.Faithful files past) {memo : Memo}
    {last : Resolution} (stored : session.project.model.Stores last.ref)
    (others : ∀ site, site ≠ last.ref.site → memo[site]? = session.project.memo[site]?)
    (own : session.Recalls files (past ++ [last]) last.ref.site memo[last.ref.site]?) :
    Faithful files { session with project := { session.project with memo } }
      (past ++ [last]) := by
  refine ⟨faithful.coherent, fun resolution member => ?_, fun site => ?_⟩
  · rcases List.mem_append.mp member with earlier | latest
    · exact faithful.stored resolution earlier
    · rw [List.mem_singleton.mp latest]
      exact stored
  · by_cases same : site = last.ref.site
    · subst same
      exact own
    · have kept : session.Recalls files (past ++ [last]) site session.project.memo[site]? :=
        (faithful.recalls site).append (Ne.symm same)
      rw [← others site same] at kept
      exact kept

/-- Recording a result changes what is remembered at its site alone. -/
theorem getElem?_record (memo : Memo) (generation : Nat) (site other : RefSite)
    (result : Option Referent) :
    (memo.record generation site result)[other]? =
      if site = other then
        some (match result with
          | some referent => .found referent
          | none => .missed generation)
      else memo[other]? := by
  cases result <;> simp [Memo.record, Std.ExtHashMap.getElem?_insert]

/-- A type that stands for nothing is remembered as a miss. -/
theorem Faithful.recalls_missed (faithful : session.Faithful files past) {ref : TypeRef}
    (stored : session.project.model.Stores ref) {generation : Nat}
    (present : generation = session.library.generation)
    (first : firstFound past ref.site = none)
    (earlier : ∀ resolution ∈ past, resolution.ref.site = ref.site →
      resolution.generation ≤ generation)
    (still : session.meaning files ref.name ref.scope = none) :
    session.Recalls files (past ++ [⟨ref, generation, none⟩]) ref.site
      (some (.missed generation)) := by
  refine ⟨Nat.le_of_eq present, ⟨_, List.mem_append_right _ (List.mem_singleton.mpr rfl), rfl⟩, ?_⟩
  intro resolution member atSite
  rcases List.mem_append.mp member with before | latest
  · have missed := firstFound_eq_none_iff.mp first resolution before atSite
    refine ⟨missed, earlier resolution before atSite, fun _ => ?_⟩
    rw [faithful.eq_of_site_eq stored before atSite]
    exact still
  · rw [List.mem_singleton.mp latest]
    exact ⟨rfl, Nat.le_refl generation, fun _ => still⟩

theorem Faithful.resolve (faithful : session.Faithful files past) {ref : TypeRef}
    (stored : session.project.model.Stores ref) :
    (referent ref files session).2.Faithful files
      (past ++ [⟨ref, session.library.generation, (referent ref files session).1⟩]) := by
  obtain ⟨library, agrees, looked⟩ := session.referent_eq files ref
  cases faithful.lookback stored with
  | found referent held first =>
      rw [remembered?_of_found held] at looked
      rw [looked]
      apply faithful.append stored (fun _ _ => rfl)
      rw [held]
      change firstFound _ ref.site = some referent
      rw [firstFound_append, first]
      rfl
  | missed held first earlier still =>
      rw [remembered?_of_missed held] at looked
      rw [looked]
      apply faithful.append stored (fun _ _ => rfl)
      rw [held]
      exact faithful.recalls_missed stored rfl first earlier still
  | unknown fresh first earlier =>
      rw [fresh] at looked
      rw [looked]
      have onward : session.Onward files { session with library } :=
        .changeLibrary faithful.coherent (.inl agrees)
      have asked := faithful.change onward
      apply asked.append stored
      · intro site other
        rw [getElem?_record, if_neg other.symm]
      · rw [getElem?_record, if_pos rfl]
        cases outcome : session.meaning files ref.name ref.scope with
        | some referent =>
            change firstFound _ ref.site = some referent
            rw [firstFound_append, first, if_pos rfl]
            rfl
        | none =>
            refine asked.recalls_missed stored agrees.generation.symm first ?_ ?_
            · intro resolution member atSite
              exact Nat.le_of_lt (earlier resolution member atSite)
            · exact (onward.meaning_eq agrees faithful.coherent stored).trans outcome

theorem Faithful.start (settings : Settings) (library : Library) :
    Faithful files { project := { settings }, library } [] := by
  refine ⟨.empty, by simp, fun site => ?_⟩
  have blank : (∅ : Memo)[site]? = none := Std.ExtHashMap.getElem?_empty
  change Recalls files _ [] site (∅ : Memo)[site]?
  rw [blank]
  simp [Recalls]

theorem Run.faithful (run : Run files session past) : session.Faithful files past := by
  induction run with
  | start settings library => exact .start settings library
  | change _ changes ih => exact ih.change (changes.onward ih.coherent)
  | resolve _ stored ih => exact ih.resolve stored

theorem Run.forgotten (run : Run files session []) : session.project.memo = ∅ := by
  refine Std.ExtHashMap.ext_getElem? fun site => ?_
  rw [Std.ExtHashMap.getElem?_empty]
  have recalls := run.faithful.recalls site
  cases held : session.project.memo[site]? with
  | none => rfl
  | some recollection =>
      rw [held] at recalls
      cases recollection with
      | found referent => cases recalls
      | missed generation =>
          obtain ⟨-, ⟨resolution, member, -⟩, -⟩ := recalls
          cases member

end Session

/-- No remembered look-up is stale.  In every run the look-up of a stored type yields what
the first successful one has yielded, or else what its name stands for now.  After a success,
or after a miss in the present generation, nothing is asked and nothing changes. -/
theorem lookups_are_never_stale {files : FileTree} {session : Session}
    {past : List Session.Resolution} (run : Session.Run files session past) {ref : TypeRef}
    (stored : session.project.model.Stores ref) :
    (∀ other, session.project.model.Stores other → other.site = ref.site → other = ref) ∧
      (∀ resolution ∈ past, resolution.ref.site = ref.site → resolution.ref = ref) ∧
      (Session.referent ref files session).1 =
        (Session.firstFound past ref.site).or
          (Session.lookUp ref.name ref.scope files session).1 ∧
      ((∃ resolution ∈ past, resolution.ref = ref ∧
          (resolution.result.isSome ∨ resolution.generation = session.library.generation)) →
        (Session.referent ref files session).2 = session) := by
  have faithful := run.faithful
  refine ⟨fun other held same => ?_, fun resolution => faithful.eq_of_site_eq stored, ?_⟩
  · exact held.eq_of_site_eq faithful.coherent.settled stored same
  obtain ⟨library, agrees, looked⟩ := session.referent_eq files ref
  obtain ⟨asked, -, anew⟩ := session.lookUp_eq files ref.name ref.scope
  rw [anew]
  cases faithful.lookback stored with
  | found referent held first =>
      rw [Session.remembered?_of_found held] at looked
      rw [looked, first]
      exact ⟨rfl, fun _ => rfl⟩
  | missed held first earlier still =>
      rw [Session.remembered?_of_missed held] at looked
      rw [looked, first]
      exact ⟨still.symm, fun _ => rfl⟩
  | unknown fresh first earlier =>
      rw [fresh] at looked
      rw [looked, first]
      refine ⟨rfl, ?_⟩
      rintro ⟨resolution, member, rfl, before⟩
      have missed := Session.firstFound_eq_none_iff.mp first resolution member rfl
      rcases before with success | present
      · rw [missed] at success
        cases success
      · exact absurd present (Nat.ne_of_lt (earlier resolution member rfl))

/-- A superclass that is not known is asked for once. -/
theorem unknown_superclass_is_asked_for_once :
    let opened : Session := { project := {}, library := .ofCore }
    let session := (Session.build "class A extends B \x7b\x7d" {} opened).2
    ∃ ref, (session.project.model.classAt ⟨0⟩).superclass = some ref ∧
      session.project.model.Stores ref ∧
        let asked := (Session.referent ref {} session).2
        Session.Run {} asked
            [⟨ref, session.library.generation, (Session.referent ref {} session).1⟩] ∧
          asked.project.model.Stores ref ∧ (Session.referent ref {} asked).2 = asked := by
  intro opened session
  have present : (session.project.model.classAt ⟨0⟩).superclass.isSome = true := by
    decide +kernel
  obtain ⟨ref, extended⟩ := Option.isSome_iff_exists.mp present
  have stored : session.project.model.Stores ref := by
    refine ⟨.ofClass ⟨0⟩, ref, ?_, .whole⟩
    simp [Model.typesAt, ClassEntity.types, extended]
  have started : Session.Run {} session [] :=
    .change (.start {} .ofCore) (.build opened _)
  have run := Session.Run.resolve started stored
  have kept : (Session.referent ref {} session).2.project.model.Stores ref :=
    run.faithful.stored _ (List.mem_singleton.mpr rfl)
  refine ⟨ref, extended, stored, run, kept, (lookups_are_never_stale run kept).2.2.2 ?_⟩
  exact ⟨_, List.mem_singleton.mpr rfl, rfl, .inr (session.generation_referent {} ref).symm⟩

end JavaDecl
