import JavaDecl.Proofs.AddedTogether
import JavaDecl.Proofs.InterlinkedModels
import JavaDecl.Proofs.LargerLibraries

/-!
# Units that sessions add

A text that a session adds, alone or together with others, becomes a unit whose classes come
after all earlier ones and are registered.  In every later session a type of the unit stands for
what its name has meant all along, if that has not changed.
-/

namespace JavaDecl

namespace Model

variable {model grown larger : Model}

theorem Extends.trans {base : Model} (one : base.Extends model) (other : model.Extends larger) :
    base.Extends larger where
  units := one.units.trans other.units
  classes := one.classes.trans other.classes
  methods := one.methods.trans other.methods
  fields := one.fields.trans other.fields
  names name := by
    rw [← one.names, ← other.names, Option.filter_filter]
    have fewer := one.classes.size_le
    congr 1
    funext id
    rw [Bool.eq_iff_iff]
    simp only [Bool.and_eq_true, decide_eq_true_eq]
    omega

/-! ### Units of texts -/

/-- A unit mirrors a text, and its classes are those that the text declares.  They come after a
number of others. -/
structure IsUnitOf (model : Model) (source : List Char) (unit : UnitId) (earlier : Nat) :
    Prop where
  known : unit.index < model.units.size
  mirrors : ∃ start stop, model.MirrorsText source unit start stop ∧ earlier ≤ start.classes ∧
    ∀ id : ClassId, id.index < model.classes.size → (model.classAt id).unit = unit →
      start.classes ≤ id.index ∧ id.index < stop.classes

/-- A unit has no classes in a larger model that it has not had before. -/
theorem Linked.inside_of_unit (linked : model.Linked) (further : model.Extends larger)
    (whole : larger.Linked) {id : ClassId} (inside : id.index < larger.classes.size)
    (known : (larger.classAt id).unit.index < model.units.size) :
    id.index < model.classes.size := by
  have wider := Nat.lt_of_lt_of_le known further.units.size_le
  have listed := ((whole.classesInUnit wider).1.mem_iff id).mpr ⟨inside, rfl⟩
  rw [classesInUnit_grown linked further known] at listed
  exact (((linked.classesInUnit known).1.mem_iff id).mp listed).1

theorem Built.isUnitOf (built : model.Built) {source : List Char}
    (accepted : (readUnit source).2 = none)
    (added : model.addUnit (readUnit source).1 = (grown, .ok ⟨model.units.size⟩))
    (further : grown.Extends larger) (whole : larger.Linked) :
    larger.IsUnitOf source ⟨model.units.size⟩ model.classes.size := by
  obtain ⟨other, again, units, mirrored⟩ := model.addUnit_of_accepted accepted
  obtain rfl : grown = other := (Prod.mk.inj (added.symm.trans again)).1
  have known : model.units.size < grown.units.size := units ▸ Nat.lt_succ_self _
  have extended := (Extends.refl built.reachable.namesInside).addUnit (readUnit source).1
  rw [added] at extended
  refine ⟨Nat.lt_of_lt_of_le known further.units.size_le, _, _,
    mirrored larger (further.settles _ known) (further.unit_eq known), Nat.le_refl _,
    fun id inside inUnit => ?_⟩
  have within := (built.addUnit accepted added).linked.inside_of_unit further whole inside
    (inUnit ▸ known)
  refine ⟨Nat.le_of_not_lt fun old => ?_, within⟩
  have earlier := built.linked.inUnit id old
  rw [← extended.classAt_eq old, ← further.classAt_eq within, inUnit] at earlier
  exact Nat.lt_irrefl _ earlier

theorem IsUnitOf.after {source : List Char} {unit : UnitId} {earlier fewer : Nat}
    (isUnit : model.IsUnitOf source unit earlier) (less : fewer ≤ earlier) :
    model.IsUnitOf source unit fewer := by
  obtain ⟨known, start, stop, mirrors, after, all⟩ := isUnit
  exact ⟨known, start, stop, mirrors, Nat.le_trans less after, all⟩

theorem Built.isUnitOf_of_addUnits (built : model.Built) {sources : List (List Char)}
    (accepted : ∀ source ∈ sources, (readUnit source).2 = none) {ids : List UnitId}
    (added : model.addUnits (sources.map fun source => (readUnit source).1) = (grown, .ok ids))
    {position : Nat} {source : List Char} {unit : UnitId}
    (listed : sources[position]? = some source) (found : ids[position]? = some unit) :
    grown.IsUnitOf source unit model.classes.size := by
  induction sources generalizing model ids position with
  | nil => cases listed
  | cons first rest ih =>
      obtain ⟨taken, others⟩ := List.forall_mem_cons.mp accepted
      obtain ⟨between, one, -⟩ := model.addUnit_of_accepted taken
      have extended := (Extends.refl built.reachable.namesInside).addUnit (readUnit first).1
      rw [one] at extended
      have further := built.addUnit taken one
      obtain ⟨last, more, whole, later⟩ := further.addUnits others
      have grows := (Extends.refl further.reachable.namesInside).addUnits
        (rest.map fun source => (readUnit source).1)
      rw [later] at grows
      simp only [List.map_cons, Model.addUnits, one, later] at added
      obtain ⟨rfl, rfl⟩ : last = grown ∧ ⟨model.units.size⟩ :: more = ids := by
        simpa [Except.map] using added
      cases position with
      | zero =>
          obtain rfl := Option.some.inj listed
          obtain rfl := Option.some.inj found
          exact built.isUnitOf taken one grows whole.linked
      | succ position =>
          exact (ih further others later listed found).after extended.classes.size_le

end Model

theorem Library.answer_of_mem (files : FileTree) (library : Library) {names : List String}
    {name : String} (listed : name ∈ names) :
    (library.registerAll names).2.answer files name = true := by
  have registered : name ∈ names.foldl appendNew library.registered := by
    obtain ⟨front, back, rfl⟩ := List.append_of_mem listed
    rw [List.foldl_append, List.foldl_cons]
    refine (prefix_foldl_appendNew _ back).subset ?_
    unfold appendNew
    split
    · next known => exact List.contains_iff_mem.mp known
    · simp
  rw [answer_eq, Bool.or_eq_true]
  exact .inl (List.contains_iff_mem.mpr registered)

namespace Session

variable {files : FileTree} {before added session : Session} {past : List Resolution}

/-- A text becomes a unit of a session, alone or together with others. -/
inductive AddsUnit (files : FileTree) (before : Session) (source : String) (unit : UnitId) :
    Session → Prop where
  | alone : (add source files before).1 = .ok unit →
      AddsUnit files before source unit (add source files before).2
  | together {sources : List String} {ids : List UnitId} {position : Nat} :
      (addAll sources files before).1 = .ok ids → sources[position]? = some source →
        ids[position]? = some unit →
          AddsUnit files before source unit (addAll sources files before).2

/-- A session has the unit of a text, after a number of other classes, and its library knows all
classes of the unit. -/
structure HasUnit (files : FileTree) (source : String) (unit : UnitId) (earlier : Nat)
    (session : Session) : Prop where
  isUnit : session.project.model.IsUnitOf source.toList unit earlier
  registered : ∀ name ∈ namesInUnit session.project.model unit,
    session.library.answer files name = true

theorem AddsUnit.hasUnit {source : String} {unit : UnitId}
    (adds : before.AddsUnit files source unit added) (built : before.project.model.Built) :
    HasUnit files source unit before.project.model.classes.size added ∧
      added.project.settings = before.project.settings := by
  cases adds with
  | alone succeeded =>
      cases accepted : (readUnit source.toList).2 with
      | some refused =>
          rw [before.add_of_refused files accepted] at succeeded
          cases succeeded
      | none =>
          obtain ⟨grown, taken, -⟩ := before.project.model.addUnit_of_accepted accepted
          rw [before.add_of_accepted files accepted taken] at succeeded ⊢
          obtain rfl := Except.ok.inj succeeded
          have further := built.addUnit accepted taken
          refine ⟨⟨?_, fun name => before.library.answer_of_mem files⟩, rfl⟩
          exact built.isUnitOf accepted taken (.refl further.coherent.names) further.linked
  | @together sources ids position succeeded listed found =>
      by_cases accepted : ∀ source ∈ sources, (readUnit source.toList).2 = none
      · have each : ∀ source ∈ sources.map String.toList, (readUnit source).2 = none := by
          simpa using accepted
        obtain ⟨grown, others, further, taken⟩ := built.addUnits each
        have taken' := taken
        rw [List.map_map] at taken
        rw [addAll_of_accepted accepted taken] at succeeded ⊢
        obtain rfl := Except.ok.inj succeeded
        refine ⟨⟨?_, fun name inUnit => before.library.answer_of_mem files ?_⟩, rfl⟩
        · exact built.isUnitOf_of_addUnits each taken' (by simp [listed]) found
        · exact List.mem_flatMap.mpr ⟨unit, List.mem_of_getElem? found, inUnit⟩
      · obtain ⟨front, failing, back, refused, rfl, earlier, unread⟩ :=
          exists_first_refused (by simpa using accepted)
        rw [addAll_of_refused earlier unread built.reachable.namesInside] at succeeded
        cases succeeded

/-! ### Later sessions -/

/-- What may follow a session: changes, and look-ups of types that its model stores. -/
inductive Later (files : FileTree) (start : Session) : Session → Prop where
  | same : Later files start start
  | change {session changed : Session} : Later files start session →
      Changes files session changed → Later files start changed
  | resolve {session : Session} {ref : TypeRef} : Later files start session →
      session.project.model.Stores ref → Later files start (referent ref files session).2

/-- What later sessions keep. -/
structure Keeps (files : FileTree) (start later : Session) : Prop where
  settings : later.project.settings = start.project.settings
  model : later.project.model.Supersedes start.project.model
  library : start.library.KnownIn files files later.library

/-- Looking a type up keeps the model, the settings and all answers. -/
theorem referent_keeps (session : Session) (files : FileTree) (ref : TypeRef) :
    (referent ref files session).2.project.model = session.project.model ∧
      (referent ref files session).2.project.settings = session.project.settings ∧
      session.library.Agrees files (referent ref files session).2.library := by
  obtain ⟨library, agrees, looked⟩ := session.referent_eq files ref
  rw [looked]
  cases session.project.memo.remembered? session.library.generation ref.site with
  | some result => exact ⟨rfl, rfl, .refl files session.library⟩
  | none => exact ⟨rfl, rfl, agrees⟩

theorem Later.keeps (later : Later files added session) (coherent : added.project.model.Coherent) :
    Keeps files added session := by
  induction later with
  | same => exact ⟨rfl, coherent.supersedes, .refl files added.library⟩
  | change _ changes ih =>
      have onward := changes.onward ih.model.coherent
      exact ⟨onward.settings.trans ih.settings,
        ⟨onward.model.coherent, ih.model.grown.trans onward.model.grown⟩,
        ih.library.trans changes.knownIn⟩
  | @resolve session ref _ _ ih =>
      obtain ⟨model, settings, agrees⟩ := session.referent_keeps files ref
      exact ⟨settings.trans ih.settings, model ▸ ih.model, ih.library.trans agrees.knownIn⟩

/-- A look-up yields what has been found before, or else what the name means now. -/
theorem Faithful.referent_eq (faithful : session.Faithful files past) {ref : TypeRef}
    (stored : session.project.model.Stores ref) :
    (referent ref files session).1 =
      (firstFound past ref.site).or (session.meaning files ref.name ref.scope) := by
  obtain ⟨library, -, looked⟩ := session.referent_eq files ref
  rw [looked]
  cases faithful.lookback stored with
  | found referent held first => rw [remembered?_of_found held, first, Option.some_or]
  | missed held first _ still => rw [remembered?_of_missed held, first, still, Option.none_or]
  | unknown fresh first _ => rw [fresh, first, Option.none_or]

/-- A look-up finds what the name means, if nothing else has been found before. -/
theorem Faithful.steady (faithful : session.Faithful files past) {ref : TypeRef}
    (stored : session.project.model.Stores ref) {found : Referent}
    (always : ∀ resolution ∈ past, resolution.ref.site = ref.site → resolution.result = some found)
    (means : session.meaning files ref.name ref.scope = some found) :
    (referent ref files session).1 = some found := by
  rw [faithful.referent_eq stored, means]
  cases first : firstFound past ref.site with
  | none => rfl
  | some other =>
      obtain ⟨resolution, listed, result⟩ := List.exists_of_findSome?_eq_some first
      split at result
      · next same =>
          rw [always resolution listed same] at result
          exact result.symm
      · cases result

/-- The types of a declaration that a model does not have have not been looked up in it. -/
theorem Run.site_ne_of_new (run : Run files session past) {larger : Model}
    (coherent : larger.Coherent) {holder : Holder} (new : ¬ holder.Inside session.project.model)
    {ref : TypeRef} (listed : ref ∈ larger.typesAt holder) :
    ∀ resolution ∈ past, resolution.ref.site ≠ ref.site := by
  intro resolution looked same
  obtain ⟨other, outer, held, part⟩ := run.faithful.stored resolution looked
  have placed := ((run.faithful.coherent.settled other).placed outer held).1
  rw [← part.placed.2.holder, same, ((coherent.settled holder).placed ref listed).1] at placed
  exact new (placed ▸ Model.inside_of_mem_typesAt held)

section Steady

variable {ref : TypeRef} (stored : added.project.model.Stores ref) {found : Referent}
  (means : ∀ now, Later files added now → now.meaning files ref.name ref.scope = some found)

include stored means

/-- Whenever a type is looked up, that has been found which its name means. -/
theorem Later.exists_run (later : Later files added session) (run : Run files added past)
    (unasked : ∀ resolution ∈ past, resolution.ref.site ≠ ref.site) :
    ∃ past, Run files session past ∧
      ∀ resolution ∈ past, resolution.ref.site = ref.site → resolution.result = some found := by
  induction later with
  | same =>
      exact ⟨past, run, fun resolution listed same => absurd same (unasked resolution listed)⟩
  | change _ changes ih =>
      obtain ⟨past, further, always⟩ := ih
      exact ⟨past, .change further changes, always⟩
  | @resolve session asked later held ih =>
      obtain ⟨past, further, always⟩ := ih
      refine ⟨_, .resolve further held, fun resolution listed same => ?_⟩
      rcases List.mem_append.mp listed with earlier | latest
      · exact always resolution earlier same
      · obtain rfl := List.mem_singleton.mp latest
        have kept := (later.keeps run.faithful.coherent).model.grown.stores stored
        obtain rfl : asked = ref :=
          held.eq_of_site_eq further.faithful.coherent.settled kept same
        exact further.faithful.steady held always (means session later)

/-- A type that has not been looked up before stands for what its name means in all later
sessions, if that is always the same. -/
theorem Later.referent_eq (later : Later files added session) (run : Run files added past)
    (unasked : ∀ resolution ∈ past, resolution.ref.site ≠ ref.site) :
    ∃ past, Run files session past ∧ (referent ref files session).1 = some found := by
  obtain ⟨past, further, always⟩ := later.exists_run stored means run unasked
  have kept := (later.keeps run.faithful.coherent).model.grown.stores stored
  exact ⟨past, further, further.faithful.steady kept always (means session later)⟩

end Steady

end Session

end JavaDecl
