import JavaDecl.Lookup.Member
import JavaDecl.Proofs.StandingLookups

/-!
# Members from look-ups that only look

Collecting the members of a class does nothing but look types up, so it yields what it
yields where every type keeps what it stands for now.
-/

namespace JavaDecl

namespace Model

variable {model : Model}

theorem stores_parameter {id : MethodId} {parameter : ParameterEntity}
    (listed : parameter ∈ (model.method id).parameters) : model.Stores parameter.type := by
  obtain ⟨position, found⟩ := List.mem_iff_getElem?.mp listed
  refine ⟨.ofParameter id position, parameter.type, ?_, .whole⟩
  simp [typesAt, found, ParameterEntity.types]

end Model

namespace Session

variable {files : FileTree} {session : Session}

namespace Yields

theorem foldlM {σ α : Type} {step : σ → α → SessionM σ} {standingStep : σ → α → Id σ}
    (items : List α)
    (same : ∀ item ∈ items, ∀ state,
      Yields files session (step state item) (standingStep state item).run) (state : σ) :
    Yields files session (items.foldlM step state) (items.foldlM standingStep state).run := by
  induction items generalizing state with
  | nil => exact .pure state
  | cons item rest ih =>
      have later := ih fun other member => same other (List.mem_cons_of_mem _ member)
      rw [List.foldlM_cons, List.foldlM_cons]
      exact (same item List.mem_cons_self state).bind (later _)

theorem filterMapM {α β : Type} {select : α → SessionM (Option β)}
    {standingSelect : α → Id (Option β)} (items : List α)
    (same : ∀ item ∈ items, Yields files session (select item) (standingSelect item).run) :
    Yields files session (items.filterMapM select) (items.filterMapM standingSelect).run := by
  induction items with
  | nil => exact .pure []
  | cons item rest ih =>
      have later := ih fun other member => same other (List.mem_cons_of_mem _ member)
      rw [List.filterMapM_cons, List.filterMapM_cons]
      apply (same item List.mem_cons_self).bind
      rw [Id.run_bind]
      cases (standingSelect item).run with
      | none => exact later
      | some value => exact later.bind (.pure _)

theorem mapM {α β : Type} {look : α → SessionM β} {standingLook : α → Id β} (items : List α)
    (same : ∀ item ∈ items, Yields files session (look item) (standingLook item).run) :
    Yields files session (items.mapM look) (items.mapM standingLook).run := by
  induction items with
  | nil => exact .pure []
  | cons item rest ih =>
      have later := ih fun other member => same other (List.mem_cons_of_mem _ member)
      rw [List.mapM_cons, List.mapM_cons]
      exact (same item List.mem_cons_self).bind (later.bind (.pure _))

section Coherent

variable (coherent : session.project.model.Coherent)

include coherent

theorem supertypesOf (id : ClassId) :
    Yields files session (session.looking.supertypesOf id)
      ((session.standing files).supertypesOf id).run :=
  filterMapM _ fun _ listed => classOf? coherent (Model.stores_superRef listed)

section Walk

variable {σ : Type} {take : σ → ClassId → SessionM σ} {standingTake : σ → ClassId → Id σ}
  (same : ∀ state id, Yields files session (take state id) (standingTake state id).run)

include same

theorem visit (depth : Nat) (state : Trail × σ) (id : ClassId) :
    Yields files session (session.looking.visit take depth state id)
      ((session.standing files).visit standingTake depth state id).run := by
  induction depth generalizing state id with
  | zero => exact .pure state
  | succ depth ih =>
      obtain ⟨visited, yielded⟩ := state
      rw [Resolver.visit, Resolver.visit]
      split
      · exact .pure (visited, yielded)
      · split
        · exact .pure (visited.add id, yielded)
        · apply (same yielded id).bind
          apply (supertypesOf coherent id).bind
          exact foldlM _ (fun further _ state => ih state further) _

theorem walk (start : σ) (root : ClassId) :
    Yields files session (session.looking.walk take start root)
      ((session.standing files).walk standingTake start root).run :=
  (visit coherent same _ _ root).bind (.pure _)

end Walk

theorem signatureKey (id : MethodId) (viewing : ClassId) :
    Yields files session
      (session.looking.signatureKey (session.project.model.method id) viewing)
      ((session.standing files).signatureKey (session.project.model.method id) viewing).run := by
  unfold Resolver.signatureKey
  refine (mapM _ fun parameter listed => ?_).bind (.pure _)
  exact typeAt coherent _ (some viewing) (Model.stores_parameter listed)

theorem membersBy {α : Type} (declared : ClassEntity → List α)
    {key? : α → SessionM (Option String)} {standingKey? : α → Id (Option String)}
    (same : ∀ id, Yields files session (key? id) (standingKey? id).run) (root : ClassId) :
    Yields files session (session.looking.membersBy declared key? root)
      ((session.standing files).membersBy declared standingKey? root).run := by
  unfold Resolver.membersBy
  refine (walk coherent (fun found holder => ?_) [] root).bind (.pure _)
  refine foldlM _ (fun id _ found => ?_) found
  apply (same id).bind
  rw [Id.run_bind]
  cases (standingKey? id).run with
  | none => exact .pure found
  | some key => exact .pure _

theorem methods (id : ClassId) (withInherited : Bool) :
    Yields files session (session.looking.methods id withInherited)
      ((session.standing files).methods id withInherited).run := by
  unfold Resolver.methods
  cases withInherited with
  | false => exact .pure _
  | true =>
      refine membersBy coherent _ (fun method => ?_) id
      dsimp only [looking_model, standing_model]
      split
      · exact .pure none
      · exact (signatureKey coherent method id).bind (.pure _)

theorem fields (id : ClassId) (withInherited : Bool) :
    Yields files session (session.looking.fields id withInherited)
      ((session.standing files).fields id withInherited).run := by
  unfold Resolver.fields
  cases withInherited with
  | false => exact .pure _
  | true => exact membersBy coherent _ (fun field => .pure _) id

end Coherent

end Yields

end Session

end JavaDecl
