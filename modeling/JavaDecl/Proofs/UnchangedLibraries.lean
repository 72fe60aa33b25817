import JavaDecl.Proofs.RememberedLookups

/-!
# Look-ups in a library that does not change

As long as the library keeps its generation, what a type has been found to stand for is
what its name means now.
-/

namespace JavaDecl.Session

variable {files : FileTree} {session : Session} {past : List Resolution}

/-- Look-ups have taken place in the present generation at the latest. -/
theorem Run.generation_le (run : Run files session past) :
    ∀ resolution ∈ past, resolution.generation ≤ session.library.generation := by
  induction run with
  | start settings library => simp
  | change run changes ih =>
      intro resolution member
      have onward := changes.onward run.faithful.coherent
      exact Nat.le_trans (ih resolution member) onward.library.generation_le
  | @resolve session past ref run stored ih =>
      intro resolution member
      rw [session.generation_referent files ref]
      rcases List.mem_append.mp member with earlier | latest
      · exact ih resolution earlier
      · obtain rfl := List.mem_singleton.mp latest
        exact Nat.le_refl _

theorem meaning_referent (ref : TypeRef) (name : String) (scope : Scope) :
    (referent ref files session).2.meaning files name scope = session.meaning files name scope := by
  obtain ⟨library, agrees, looked⟩ := session.referent_eq files ref
  have answers : library.answer files = session.library.answer files := funext agrees.answer
  rw [looked]
  split
  · rfl
  · simp only [meaning, answers]

/-- All look-ups have taken place in the present generation. -/
def Unchanged (session : Session) (past : List Resolution) : Prop :=
  ∀ resolution ∈ past, resolution.generation = session.library.generation

/-- Look-ups have found what names mean now. -/
def Current (files : FileTree) (session : Session) (past : List Resolution) : Prop :=
  ∀ resolution ∈ past,
    resolution.result = session.meaning files resolution.ref.name resolution.ref.scope

/-- A type that has been looked up, or not, stands for what its name means now. -/
theorem Current.referent_eq (current : Current files session past)
    (faithful : session.Faithful files past) {ref : TypeRef}
    (stored : session.project.model.Stores ref) :
    (referent ref files session).1 = session.meaning files ref.name ref.scope := by
  obtain ⟨library, -, looked⟩ := session.referent_eq files ref
  cases faithful.lookback stored with
  | found referent held first =>
      rw [remembered?_of_found held] at looked
      obtain ⟨resolution, member, found⟩ := List.exists_of_findSome?_eq_some first
      split at found
      · next atSite =>
          have same := current resolution member
          rw [faithful.eq_of_site_eq stored member atSite, found] at same
          rw [looked]
          exact same
      · cases found
  | missed held first earlier still =>
      rw [remembered?_of_missed held] at looked
      rw [looked]
      exact still.symm
  | unknown fresh first earlier =>
      rw [fresh] at looked
      rw [looked]

theorem Onward.current {changed : Session} (onward : session.Onward files changed)
    (agrees : session.library.Agrees files changed.library)
    (faithful : session.Faithful files past) (current : Current files session past) :
    Current files changed past := by
  intro resolution member
  rw [onward.meaning_eq agrees faithful.coherent (faithful.stored resolution member)]
  exact current resolution member

/-- In a run without a change of the library, look-ups have found what names mean now. -/
theorem Run.current (run : Run files session past) (unchanged : session.Unchanged past) :
    Current files session past := by
  induction run with
  | start settings library => simp [Current]
  | @change session changed past run changes ih =>
      have faithful := run.faithful
      have onward := changes.onward faithful.coherent
      rcases onward.library with agrees | newer
      · have same := agrees.generation
        refine onward.current agrees faithful (ih fun resolution member => ?_)
        exact (unchanged resolution member).trans same
      · intro resolution member
        have earlier := run.generation_le resolution member
        have later := unchanged resolution member
        omega
  | @resolve session past ref run stored ih =>
      have faithful := run.faithful
      have before : session.Unchanged past := by
        intro resolution member
        rw [unchanged resolution (List.mem_append_left _ member)]
        exact session.generation_referent files ref
      have current := ih before
      intro resolution member
      rw [meaning_referent]
      rcases List.mem_append.mp member with earlier | latest
      · exact current resolution earlier
      · rw [List.mem_singleton.mp latest]
        exact current.referent_eq faithful stored

/-- In a run without a change of the library, every type stands for what its name means. -/
theorem Run.referent_eq_meaning (run : Run files session past)
    (unchanged : session.Unchanged past) {ref : TypeRef}
    (stored : session.project.model.Stores ref) :
    (referent ref files session).1 = session.meaning files ref.name ref.scope :=
  (run.current unchanged).referent_eq run.faithful stored

end JavaDecl.Session
