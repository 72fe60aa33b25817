import JavaDecl.Proofs.LinkedDeclarations
import JavaDecl.Proofs.MirroredUnits
import JavaDecl.Proofs.OwnedMembers

/-!
# Models built of accepted texts

A model of a run consists of the units of texts that have been accepted, since what a text
that is refused leaves is cut off again.  So what an accepted text adds to a model can be
followed from the first unit to the last.
-/

namespace JavaDecl

namespace Model

/-- The models that consist of the units of accepted texts. -/
inductive Built : Model → Prop where
  | empty : Built {}
  | addUnit {model grown : Model} {source : List Char} :
      Built model → (readUnit source).2 = none →
        model.addUnit (readUnit source).1 = (grown, .ok ⟨model.units.size⟩) → Built grown

/-- A text that is refused fails, whatever its events do. -/
theorem addSource_of_refused (model : Model) {source : List Char} {error : ParseError}
    (refused : (readUnit source).2 = some error) :
    ∃ failure, (model.addSource source).2 = .error failure := by
  unfold addSource
  cases read : readUnit source with
  | mk events outcome =>
      rw [read] at refused
      subst refused
      cases taken : model.addEvents events with
      | mk grown result =>
          simp only [taken]
          cases result <;> exact ⟨_, rfl⟩

theorem accepted_of_eventsOf {source : List Char} {events : List Event}
    (taken : eventsOf source = .ok events) : (readUnit source).2 = none := by
  unfold eventsOf at taken
  split at taken
  · next read => rw [read]
  · cases taken

/-- Texts are only taken together if all of them are accepted. -/
theorem accepted_of_mapM {sources : List (List Char)} {units : List (List Event)}
    (taken : sources.mapM eventsOf = .ok units) :
    ∀ source ∈ sources, (readUnit source).2 = none := by
  induction sources generalizing units with
  | nil => simp
  | cons source sources ih =>
      rw [List.mapM_cons] at taken
      cases first : eventsOf source with
      | error failure =>
          rw [first] at taken
          cases taken
      | ok events =>
          cases rest : sources.mapM eventsOf with
          | error failure =>
              rw [first, rest] at taken
              cases taken
          | ok others => exact List.forall_mem_cons.mpr ⟨accepted_of_eventsOf first, ih rest⟩

namespace Built

variable {model : Model}

theorem reachable (built : model.Built) : model.Reachable := by
  induction built with
  | empty => exact .empty
  | @addUnit model grown source _ _ added ih =>
      have further := ih.addUnit (readUnit source).1
      rwa [added] at further

theorem coherent (built : model.Built) : model.Coherent := by
  induction built with
  | empty => exact .empty
  | @addUnit model grown source _ _ added ih =>
      have further := ih.addUnit (readUnit source).1
      rwa [added] at further

theorem addUnits (built : model.Built) {sources : List (List Char)}
    (accepted : ∀ source ∈ sources, (readUnit source).2 = none) :
    ∃ (grown : Model) (ids : List UnitId), grown.Built ∧
      model.addUnits (sources.map fun source => (readUnit source).1) = (grown, .ok ids) := by
  induction sources generalizing model with
  | nil => exact ⟨model, [], built, rfl⟩
  | cons source sources ih =>
      obtain ⟨first, rest⟩ := List.forall_mem_cons.mp accepted
      obtain ⟨between, added, -⟩ := model.addUnit_of_accepted first
      obtain ⟨grown, ids, whole, further⟩ := ih (built.addUnit first added) rest
      refine ⟨grown, ⟨model.units.size⟩ :: ids, whole, ?_⟩
      simp only [List.map_cons, Model.addUnits, added, further]
      rfl

theorem addSource (built : model.Built) (source : List Char) :
    (model.addSource source).1.Built := by
  cases accepted : (readUnit source).2 with
  | none =>
      obtain ⟨grown, added, -⟩ := model.addUnit_of_accepted accepted
      rw [addSource_of_accepted accepted added]
      exact built.addUnit accepted added
  | some error =>
      obtain ⟨failure, failed⟩ := model.addSource_of_refused accepted
      rw [addSource_of_failed built.reachable.namesInside failed]
      exact built

theorem addSources (built : model.Built) (sources : List (List Char)) :
    (model.addSources sources).1.Built := by
  unfold Model.addSources
  cases taken : sources.mapM eventsOf with
  | ok units =>
      have accepted := accepted_of_mapM taken
      obtain ⟨grown, ids, whole, added⟩ := built.addUnits accepted
      obtain rfl := Except.ok.inj ((mapM_eventsOf accepted).symm.trans taken)
      simp only [added]
      exact whole
  | error failure =>
      have same := Extends.refl built.reachable.namesInside
      change (model.truncate model.size).Built
      rwa [same.truncate_eq]

theorem adds {grown : Model} (built : model.Built) (adds : model.Adds grown) : grown.Built := by
  cases adds with
  | nothing => exact built
  | source source => exact built.addSource source
  | sources sources => exact built.addSources sources

end Built

end Model

/-- The model of a run consists of the units of accepted texts. -/
theorem Session.Run.built {files : FileTree} {session : Session}
    {past : List Session.Resolution} (run : Session.Run files session past) :
    session.project.model.Built := by
  induction run with
  | start settings library => exact .empty
  | change _ changes ih => exact ih.adds changes.effects.model
  | @resolve session past ref _ _ ih =>
      obtain ⟨library, -, looked⟩ := session.referent_eq files ref
      rw [looked]
      split <;> exact ih

end JavaDecl
