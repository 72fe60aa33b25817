import JavaDecl.Proofs.GrownLookup
import JavaDecl.Proofs.MirroredDeclarations

/-!
# The model mirrors source texts

The unit of a source text has, in the order of the text, the classes that the text declares,
and each class has what is declared directly in it.
-/

namespace JavaDecl

namespace Model

/-- A unit mirrors its source text, with all that the model has from one size to another.
The beginnings and ends of declarations that the text announces are those of one outline. -/
structure MirrorsText (model : Model) (source : List Char) (unit : UnitId) (start stop : Size) :
    Prop where
  package : (readUnit source).1.filterMap Event.package? = (model.unit unit).packageName.toList
  outline : ∃ outline : Outline, outline.events = (readUnit source).1.filter Event.isPart ∧
    (∀ other : Outline, other.events = outline.events → other = outline) ∧
    Mirrors model unit none [] start outline { nested := (model.unit unit).classes } stop

end Model

namespace Assembly

theorem StandsAt.ofOutside {assembly : Assembly}
    (inside : assembly.unit.index < assembly.model.units.size)
    (outside : assembly.openClasses = []) : assembly.StandsAt [] where
  inside := inside
  owner _ some := by simp [outside] at some
  named _ some := by simp [outside] at some
  outermost _ := rfl

theorem unit_ofModel (model : Model) :
    (ofModel model).model.unit (ofModel model).unit = {} := by
  simp [ofModel, Model.pushUnit, Model.unit]

/-- A new unit holds the declarations of an outline, after its package has been declared. -/
theorem unit_of_outline {model : Model} {package : Option String} {outline : Outline}
    {between after : Assembly} (aside : Aside package.toList (ofModel model) between)
    (formed : outline.Formed) (gathers : Gathers outline.events between after) :
    (after.model.unit ⟨model.units.size⟩).packageName = package ∧
      ∀ later : Model,
        later.Settles (model.pushUnit {}).size ⟨model.units.size⟩ after.model →
        Mirrors later ⟨model.units.size⟩ none [] (model.pushUnit {}).size outline
          { nested := (after.model.unit ⟨model.units.size⟩).classes } after.model.size := by
  have unit : between.unit = ⟨model.units.size⟩ := aside.unit
  have size : between.model.size = (model.pushUnit {}).size := aside.size
  have outside : between.openClasses.head? = none := by
    rw [aside.openClasses]
    rfl
  have inside : between.unit.index < between.model.units.size := by
    rw [aside.unit, aside.units]
    exact (standsIn_ofModel model).2.2.2
  obtain ⟨added, same, grows, mirrors⟩ :=
    gathered_outline formed (.ofOutside inside aside.openClasses) gathers
  have named := aside.package
  have classes := aside.outermost
  rw [unit_ofModel, unit] at named classes
  rw [unit] at grows mirrors
  rw [size, outside] at mirrors
  refine ⟨?_, fun later settles => ?_⟩
  · rw [grows.package, named]
    cases package <;> rfl
  · have mirrors := mirrors later settles
    rw [grows.outermost outside, classes]
    rw [mirrors.eq_classes] at mirrors
    exact mirrors

end Assembly

namespace Model

/-- The unit of a text that is accepted is added. -/
theorem addUnit_of_accepted (model : Model) {source : List Char}
    (accepted : (readUnit source).2 = none) :
    ∃ grown : Model, model.addUnit (readUnit source).1 = (grown, .ok ⟨model.units.size⟩) ∧
      grown.units.size = model.units.size + 1 ∧
      ∀ later : Model, later.Settles (model.pushUnit {}).size ⟨model.units.size⟩ grown →
        later.unit ⟨model.units.size⟩ = grown.unit ⟨model.units.size⟩ →
        later.MirrorsText source ⟨model.units.size⟩ (model.pushUnit {}).size grown.size := by
  obtain ⟨front, back, split, plain, ⟨package, declared⟩, outline, formed, parts⟩ :=
    readUnit_outlined accepted
  obtain ⟨missing, nested, complete, -⟩ := readUnit_announces source
  rw [complete accepted, List.append_nil] at nested
  obtain ⟨after, taken, same⟩ :=
    Assembly.takes_nested nested (Assembly.standsIn_ofModel model)
  refine ⟨after.model, model.addUnit_of_takes taken same,
    same.units.trans (Array.size_push _), fun later settles kept => ?_⟩
  rw [split] at taken
  obtain ⟨between, first, second⟩ := Assembly.takes_append.mp taken
  have aside := Assembly.takes_asides plain (Assembly.standsIn_ofModel model).2.2.2 first
  rw [declared] at aside
  obtain ⟨named, mirrors⟩ := Assembly.unit_of_outline aside formed ⟨back, parts, second⟩
  refine ⟨?_, outline, ?_, fun other => Outline.events_inj, kept ▸ mirrors later settles⟩
  · rw [split, List.filterMap_append, declared, kept, named]
    simpa using parts.free
  · rw [split, List.filter_append, plain, parts.filter]
    rfl

theorem readUnit_of_accepted {source : List Char} (accepted : (readUnit source).2 = none) :
    readUnit source = ((readUnit source).1, none) :=
  Prod.ext rfl accepted

theorem addSource_of_accepted {model grown : Model} {source : List Char} {id : UnitId}
    (accepted : (readUnit source).2 = none)
    (added : model.addUnit (readUnit source).1 = (grown, .ok id)) :
    model.addSource source = (grown, .ok id) := by
  unfold addSource
  rw [readUnit_of_accepted accepted]
  simp only [added]
  rfl

end Model

/-- A text that is accepted is added as the next unit, which mirrors what the text declares.
All that the model has more than before is declared in the text. -/
theorem unit_mirrors_declarations (model : Model) (source : List Char)
    (accepted : (readUnit source).2 = none) :
    ∃ grown : Model, model.addSource source = (grown, .ok ⟨model.units.size⟩) ∧
      grown.MirrorsText source ⟨model.units.size⟩ (model.pushUnit {}).size grown.size := by
  obtain ⟨grown, added, -, mirrors⟩ := model.addUnit_of_accepted accepted
  exact ⟨grown, Model.addSource_of_accepted accepted added,
    mirrors grown (.refl grown _ _) rfl⟩

/-- Classes in a class, one of them an enumeration with a body for a constant. -/
theorem nested_shapes_are_mirrored :
    let source := ("package shapes; class Shape \x7b int sides; enum Kind \x7b " ++
      "ROUND \x7b void roll() \x7b\x7d \x7d, FLAT \x7d Shape(int sides) \x7b\x7d " ++
      "class Edge \x7b\x7d \x7d").toList
    (readUnit source).2 = none ∧ ∃ grown : Model,
      ({} : Model).addSource source = (grown, .ok ⟨0⟩) ∧
        grown.classes.toList.map ClassEntity.binaryName = ["shapes.Shape", "shapes.Shape$Kind",
          "shapes.Shape$Kind$ROUND", "shapes.Shape$Edge"] ∧
        grown.MirrorsText source ⟨0⟩ (({} : Model).pushUnit {}).size grown.size := by
  intro source
  have accepted : (readUnit source).2 = none := Option.isNone_iff_eq_none.mp (by decide +kernel)
  have names : (({} : Model).addSource source).1.classes.toList.map ClassEntity.binaryName =
      ["shapes.Shape", "shapes.Shape$Kind", "shapes.Shape$Kind$ROUND", "shapes.Shape$Edge"] := by
    decide +kernel
  obtain ⟨grown, added, mirrors⟩ := unit_mirrors_declarations {} source accepted
  rw [added] at names
  exact ⟨accepted, grown, added, names, mirrors⟩

/-! ### Several texts -/

namespace Model

/-- What has grown out of a model has what is in it. -/
theorem Extends.settles {base grown : Model} (further : base.Extends grown) (size : Size)
    {unit : UnitId} (known : unit.index < base.units.size) : grown.Settles size unit base where
  classAt _ _ inside := further.classAt_eq inside
  method _ _ inside := further.method_eq inside
  field _ _ inside := further.field_eq inside
  package := by rw [further.unit_eq known]

/-- The units of texts that are accepted are added, and mirror them after the last one. -/
theorem addUnits_of_accepted {model : Model} (inside : model.NamesInside)
    {sources : List (List Char)} (accepted : ∀ source ∈ sources, (readUnit source).2 = none) :
    ∃ (grown : Model) (ids : List UnitId),
      model.addUnits (sources.map fun source => (readUnit source).1) = (grown, .ok ids) ∧
        List.Forall₂ (fun source id => ∃ start stop, grown.MirrorsText source id start stop)
          sources ids := by
  induction sources generalizing model with
  | nil => exact ⟨model, [], rfl, .nil⟩
  | cons source sources ih =>
      obtain ⟨first, rest⟩ := List.forall_mem_cons.mp accepted
      obtain ⟨between, added, units, mirrors⟩ := model.addUnit_of_accepted first
      have within : between.NamesInside := by
        have names := inside.addEvents (readUnit source).1
        rwa [← addUnit_eq, added] at names
      obtain ⟨grown, ids, further, mirrored⟩ := ih within rest
      have extended := (Extends.refl within).addUnits
        (sources.map fun source => (readUnit source).1)
      rw [further] at extended
      have known : model.units.size < between.units.size := units ▸ Nat.lt_succ_self _
      have mirrors := mirrors grown (extended.settles _ known) (extended.unit_eq known)
      refine ⟨grown, ⟨model.units.size⟩ :: ids, ?_, .cons ⟨_, _, mirrors⟩ mirrored⟩
      simp only [List.map_cons, addUnits, added, further]
      rfl

theorem mapM_eventsOf {sources : List (List Char)}
    (accepted : ∀ source ∈ sources, (readUnit source).2 = none) :
    sources.mapM eventsOf = .ok (sources.map fun source => (readUnit source).1) := by
  induction sources with
  | nil => rfl
  | cons source sources ih =>
      obtain ⟨first, rest⟩ := List.forall_mem_cons.mp accepted
      have events : eventsOf source = .ok (readUnit source).1 := by
        unfold eventsOf
        rw [readUnit_of_accepted first]
      rw [List.mapM_cons, events, ih rest]
      rfl

/-- Texts that are all accepted are added, one unit for each text, and each unit mirrors what
its text declares. -/
theorem addSources_of_accepted {model : Model} (inside : model.NamesInside)
    {sources : List (List Char)} (accepted : ∀ source ∈ sources, (readUnit source).2 = none) :
    ∃ (grown : Model) (ids : List UnitId), model.addSources sources = (grown, .ok ids) ∧
      List.Forall₂ (fun source id => ∃ start stop, grown.MirrorsText source id start stop)
        sources ids := by
  obtain ⟨grown, ids, added, mirrored⟩ := addUnits_of_accepted inside accepted
  refine ⟨grown, ids, ?_, mirrored⟩
  unfold addSources
  rw [mapM_eventsOf accepted]
  simp only [added]
  rfl

end Model

end JavaDecl
