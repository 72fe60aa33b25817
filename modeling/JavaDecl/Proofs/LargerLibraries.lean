import JavaDecl.Proofs.ResolutionOrder
import Mathlib.Data.List.Nodup
import Mathlib.Logic.Relation

/-!
# Look-ups in a library that knows more

A name that stands for something goes on to stand for something when the library learns
further names.  It may come to stand for something else only if an earlier origin offers a
full name that was not known before.
-/

namespace JavaDecl

namespace Library

/-- All that one library knows is known to another, each asked with files of its own. -/
def KnownIn (files : FileTree) (library : Library) (laterFiles : FileTree) (later : Library) :
    Prop :=
  ∀ name, library.answer files name = true → later.answer laterFiles name = true

variable {files : FileTree} {library later : Library}

theorem KnownIn.refl (files : FileTree) (library : Library) :
    library.KnownIn files files library :=
  fun _ known => known

theorem KnownIn.trans {middle : Library} (one : library.KnownIn files files middle)
    (other : middle.KnownIn files files later) : library.KnownIn files files later :=
  fun name known => other name (one name known)

theorem Agrees.knownIn (agrees : library.Agrees files later) :
    library.KnownIn files files later :=
  fun name known => (agrees.answer name).trans known

theorem knownIn_registerAll (files : FileTree) (library : Library) (names : List String) :
    library.KnownIn files files (library.registerAll names).2 := by
  intro name known
  have kept : library.registered ⊆ (library.registerAll names).2.registered :=
    (prefix_foldl_appendNew library.registered names).subset
  simp only [answer_eq, Bool.or_eq_true, List.contains_iff_mem] at known ⊢
  exact known.imp (kept ·) id

theorem knownIn_addSource (files : FileTree) (library : Library) (source : ClassSource) :
    library.KnownIn files files (library.addSource source) := by
  intro name known
  simp only [answer_eq, Bool.or_eq_true, addSource, List.any_append] at known ⊢
  exact known.imp id .inl

theorem Learns.knownIn (learns : library.Learns files later) :
    library.KnownIn files files later := by
  cases learns with
  | names names => exact library.knownIn_registerAll files names
  | source source => exact library.knownIn_addSource files source
  | ask name => exact (library.agrees_contains files name).knownIn

end Library

namespace Origin

variable {origin : Origin} {knows further : String → Bool} {fullName : String}

theorem Admits.mono (admits : origin.Admits knows fullName)
    (grown : ∀ known, knows known = true → further known = true) :
    origin.Admits further fullName :=
  admits.imp id (grown fullName)

theorem unknown (refused : ¬ origin.Admits knows fullName) : knows fullName = false :=
  Bool.eq_false_iff.mpr fun known => refused (.inr known)

end Origin

namespace Model

variable (model : Model) (name : String) (order : LookupOrder) (knows : String → Bool)
  (scope : Scope)

/-- A full name is the admissible one of the first origin that offers any. -/
structure Decides (origin : Origin) (fullName : String) : Prop where
  offered : model.Offers name scope origin fullName
  admitted : origin.Admits knows fullName
  first : ∀ other otherName, model.Offers name scope other otherName →
    other.rank order < origin.rank order → ¬ other.Admits knows otherName

/-- What a name stood for and what it stands for when more is known. -/
inductive Refines : Option Referent → Option Referent → Prop where
  | keeps (referent : Option Referent) : Refines referent referent
  /-- Nothing that was offered was known. -/
  | appears {origin : Origin} {fullName : String} :
      model.Offers name scope origin fullName → knows fullName = false →
        Refines none (some (.named fullName))
  /-- A full name that was not known takes the place of one from a later origin. -/
  | yields {origin earlier : Origin} {fullName otherName : String} :
      model.Decides name order knows scope origin fullName →
      model.Offers name scope earlier otherName → earlier.rank order < origin.rank order →
      knows otherName = false →
        Refines (some (.named fullName)) (some (.named otherName))

variable {model name order knows scope}

/-- A name that stands for something goes on to stand for something. -/
theorem Refines.isSome {referent later : Option Referent}
    (refines : model.Refines name order knows scope referent later)
    (found : referent.isSome = true) : later.isSome = true := by
  cases refines with
  | keeps => exact found
  | appears => cases found
  | yields => rfl

/-- Origins of one rank offer the same full name. -/
theorem Offers.eq_of_rank_eq (descends : model.Descends) {origin other : Origin}
    {fullName otherName : String} (offered : model.Offers name scope origin fullName)
    (otherOffered : model.Offers name scope other otherName)
    (same : origin.rank order = other.rank order) : fullName = otherName := by
  have sorted : (model.offers order name scope).Pairwise
      fun one other => one.1.rank order < other.1.rank order := pairwise_offers order scope
  have ranks : ((model.offers order name scope).map fun one => one.1.rank order).Nodup :=
    List.pairwise_map.mpr (sorted.imp Nat.ne_of_lt)
  have member := (mem_offers descends order scope _ _).mpr offered
  have otherMember := (mem_offers descends order scope _ _).mpr otherOffered
  exact (Prod.mk.inj (List.inj_on_of_nodup_map ranks member otherMember same)).2

/-- What a name stands for when more is known refines what it stood for. -/
theorem StandsFor.refines (descends : model.Descends) {further : String → Bool}
    (grown : ∀ fullName, knows fullName = true → further fullName = true)
    {referent later : Option Referent} (stood : model.StandsFor name order knows scope referent)
    (stands : model.StandsFor name order further scope later) :
    model.Refines name order knows scope referent later ∧
      (isPrimitiveName name = true ∨ '.' ∈ name.toList ∨
        (∃ found, model.NamesVariable name scope found) → later = referent) := by
  cases stood with
  | itself special =>
      cases stands with
      | itself _ => exact ⟨.keeps _, fun _ => rfl⟩
      | typeVariable simple plain _ | fullName simple plain _ _ _ _ | nothing simple plain _ _ =>
          exact absurd special (by simp [simple, plain])
  | @typeVariable found simple plain names =>
      have ordinary : ¬ (isPrimitiveName name = true ∨ '.' ∈ name.toList) := by
        simp [simple, plain]
      cases stands with
      | itself special => exact absurd special ordinary
      | typeVariable _ _ others =>
          have same := (typeVariable?_eq_some_iff descends scope _).mpr names
          rw [(typeVariable?_eq_some_iff descends scope _).mpr others] at same
          rw [Option.some.inj same]
          exact ⟨.keeps _, fun _ => rfl⟩
      | fullName _ _ none _ _ _ | nothing _ _ none _ => exact absurd names (none found)
  | @fullName origin fullName simple plain none offered admits first =>
      have classes : ¬ (isPrimitiveName name = true ∨ '.' ∈ name.toList ∨
          ∃ found, model.NamesVariable name scope found) := by
        simp [simple, plain, none]
      have admitsStill := admits.mono grown
      cases stands with
      | itself special => exact absurd (special.imp id .inl) classes
      | typeVariable _ _ names => exact absurd names (none _)
      | nothing _ _ _ missed => exact absurd admitsStill (missed _ _ offered)
      | @fullName other otherName _ _ _ otherOffered _ otherFirst =>
          refine ⟨?_, fun special => absurd special classes⟩
          rcases Nat.lt_trichotomy (other.rank order) (origin.rank order) with less | same | more
          · exact .yields ⟨offered, admits, first⟩ otherOffered less
              (Origin.unknown (first _ _ otherOffered less))
          · rw [otherOffered.eq_of_rank_eq descends offered same]
            exact .keeps _
          · exact absurd admitsStill (otherFirst _ _ offered more)
  | nothing simple plain none missed =>
      have classes : ¬ (isPrimitiveName name = true ∨ '.' ∈ name.toList ∨
          ∃ found, model.NamesVariable name scope found) := by
        simp [simple, plain, none]
      cases stands with
      | itself special => exact absurd (special.imp id .inl) classes
      | typeVariable _ _ names => exact absurd names (none _)
      | fullName _ _ _ offered _ _ =>
          exact ⟨.appears offered (Origin.unknown (missed _ _ offered)),
            fun special => absurd special classes⟩
      | nothing _ _ _ _ => exact ⟨.keeps _, fun _ => rfl⟩

end Model

namespace Session

variable {files : FileTree} {session changed : Session}

/-- Whatever is done to a session, its library goes on to know what it knows. -/
theorem Changes.knownIn (changes : Changes files session changed) :
    session.library.KnownIn files files changed.library :=
  changes.effects.library.knownIn

/-- One session comes of another in which a name stands for the same if the same is known. -/
structure Enlarges (files : FileTree) (name : String) (scope : Scope) (session changed : Session) :
    Prop where
  coherent : changed.project.model.Coherent
  inside : scope.Inside changed.project.model
  library : session.library.KnownIn files files changed.library
  resolves : ∀ knows : String → Bool,
    Id.run (changed.project.model.resolveName changed.project.settings.order
        (fun asked => pure (knows asked)) name scope) =
      Id.run (session.project.model.resolveName session.project.settings.order
        (fun asked => pure (knows asked)) name scope)

/-- Whatever is done to a session in any number of steps, names stand for the same at the
places of its model if the same is known. -/
theorem enlarges_of_changes {name : String} {scope : Scope}
    (coherent : session.project.model.Coherent) (inside : scope.Inside session.project.model)
    (changes : Relation.ReflTransGen (Changes files) session changed) :
    Enlarges files name scope session changed := by
  induction changes with
  | refl => exact ⟨coherent, inside, .refl files session.library, fun _ => rfl⟩
  | @tail between changed _ step ih =>
      have onward := step.onward ih.coherent
      have grown := onward.model.grown
      refine ⟨onward.model.coherent, ?_, ih.library.trans step.knownIn, fun knows => ?_⟩
      · exact Model.inside_mono ih.inside
          ⟨grown.units.size_le, grown.classes.size_le, grown.methods.size_le⟩
      · rw [onward.settings, Model.resolveName_eq ih.coherent grown ih.inside]
        exact ih.resolves knows

end Session

/-- Growing the library never loses what a name stands for.  With a library that knows more,
whatever it is, a look-up finds what the smaller one has found, or else a full name from an
earlier origin which the smaller one does not know; primitive types, dotted names and type
variables stay what they are.  So it is after any builds, registrations and questions in a run. -/
theorem larger_libraries_refine_lookups {session : Session}
    (reachable : session.project.model.Reachable) (files : FileTree) (name : String)
    (scope : Scope) :
    let order := session.project.settings.order
    let knows := session.library.answer files
    let found := (Session.lookUp name scope files session).1
    (∀ laterFiles later, session.library.KnownIn files laterFiles later →
      let refined := (Session.lookUp name scope laterFiles { session with library := later }).1
      (found.isSome → refined.isSome) ∧
        session.project.model.Refines name order knows scope found refined ∧
          (isPrimitiveName name = true ∨ '.' ∈ name.toList ∨
            (∃ parameter, session.project.model.NamesVariable name scope parameter) →
              refined = found)) ∧
      ∀ past changed, Session.Run files session past → scope.Inside session.project.model →
        Relation.ReflTransGen (Session.Changes files) session changed →
          let refined := (Session.lookUp name scope files changed).1
          (found.isSome → refined.isSome) ∧
            session.project.model.Refines name order knows scope found refined := by
  intro order knows found
  have stands (further : String → Bool) : session.project.model.StandsFor name order further scope
      (Id.run (session.project.model.resolveName order (fun asked => pure (further asked)) name
        scope)) :=
    Model.standsFor_resolveName reachable.descends order further scope
  have refines (further : String → Bool)
      (grown : ∀ fullName, knows fullName = true → further fullName = true) :=
    Model.StandsFor.refines reachable.descends grown (stands knows) (stands further)
  have looked : found = session.meaning files name scope := by
    obtain ⟨library, -, looked⟩ := session.lookUp_eq files name scope
    exact congrArg Prod.fst looked
  rw [looked]
  refine ⟨fun laterFiles later known => ?_, fun past changed run inside changes => ?_⟩
  · obtain ⟨refined, fixed⟩ := refines (later.answer laterFiles) known
    obtain ⟨library, -, later⟩ :=
      Session.lookUp_eq laterFiles { session with library := later } name scope
    rw [later]
    exact ⟨refined.isSome, refined, fixed⟩
  · have enlarges : Session.Enlarges files name scope session changed :=
      Session.enlarges_of_changes run.faithful.coherent inside changes
    obtain ⟨refined, -⟩ := refines (changed.library.answer files) enlarges.library
    obtain ⟨library, -, later⟩ := changed.lookUp_eq files name scope
    rw [later]
    rw [← enlarges.resolves (changed.library.answer files)] at refined
    exact ⟨refined.isSome, refined⟩

/-- A class of the package takes the place of the core class with its name once it is added, or
once its full name is registered. -/
theorem class_of_package_takes_over :
    let opened : Session := { project := {}, library := .ofCore }
    let session := (Session.build "package p; class A extends String \x7b\x7d" {} opened).2
    let changed := (Session.add "package p; class String \x7b\x7d" {} session).2
    let later := (session.library.registerAll ["p.String"]).2
    let scope : Scope := { unit := ⟨0⟩, classId := some ⟨0⟩ }
    let found := (Session.lookUp "String" scope {} session).1
    session.project.model.Reachable ∧ session.library.KnownIn {} {} later ∧
      Session.Run {} session [] ∧ scope.Inside session.project.model ∧
      Relation.ReflTransGen (Session.Changes {}) session changed ∧
      found = some (.named "java.lang.String") ∧
      (Session.lookUp "String" scope {} changed).1 = some (.named "p.String") ∧
      session.project.model.Refines "String" .nestedFirst (session.library.answer {}) scope found
        (Session.lookUp "String" scope {} { session with library := later }).1 ∧
      session.project.model.Refines "String" .nestedFirst (session.library.answer {}) scope found
        (Session.lookUp "String" scope {} changed).1 := by
  intro opened session changed later scope found
  have reachable : session.project.model.Reachable := .addSource .empty _
  have known := session.library.knownIn_registerAll {} ["p.String"]
  have run : Session.Run {} session [] := .change (.start {} .ofCore) (.build opened _)
  have changes : Relation.ReflTransGen (Session.Changes {}) session changed :=
    .single (.add session "package p; class String \x7b\x7d")
  have inside : scope.Inside session.project.model := by
    refine ⟨by decide +kernel, fun id same => ?_, fun id same => by cases same⟩
    obtain rfl := Option.some.inj same
    decide +kernel
  obtain ⟨refined, added⟩ := larger_libraries_refine_lookups reachable {} "String" scope
  exact ⟨reachable, known, run, inside, changes, by decide +kernel, by decide +kernel,
    (refined {} later known).2.1, (added [] changed run inside changes).2⟩

end JavaDecl
