import JavaDecl.Proofs.Overloads

/-!
# Members of the first supertype

The first supertype of a class is visited right after the class.  So a member of it is among the
members of the class unless one of the class itself, or an earlier one of that supertype, has
its key.
-/

namespace JavaDecl

namespace Resolver

variable {resolver : Resolver Id} {root outer : ClassId} {others : List ClassId} {α : Type}
  {declared : ClassEntity → List α} {key? : α → Id (Option String)} {isPrivate : α → Bool}
  {key : α → String}

/-- The first supertype of a class is met right after it. -/
theorem exists_order_of_first (inside : resolver.Inside)
    (first : (resolver.supertypesOf root).run = outer :: others) (different : outer ≠ root) :
    ∃ rest, DepthFirst (fun id => (resolver.supertypesOf id).run) [] [root]
      (root :: outer :: rest) := by
  obtain ⟨order, walk⟩ := exists_order inside root
  obtain ⟨rest, rfl⟩ : ∃ rest, order = root :: outer :: rest := by
    cases walk with
    | again old _ => cases old
    | first _ later =>
        rw [first] at later
        cases later with
        | again old _ => exact absurd (List.mem_singleton.mp old) different
        | first _ _ => exact ⟨_, rfl⟩
  exact ⟨rest, walk⟩

/-- A member of the first supertype is inherited, or hidden by one of the class itself or by an
earlier one of that supertype. -/
theorem exists_member_of_first
    (keys : ∀ id, (key? id).run = if isPrivate id then none else some (key id))
    (inside : resolver.Inside)
    (first : (resolver.supertypesOf root).run = outer :: others) (different : outer ≠ root)
    {front back : List α} {id : α}
    (listed : declared (resolver.model.classAt outer) = front ++ id :: back)
    (heritable : isPrivate id = false) :
    ∃ member ∈ (resolver.membersBy declared key? root).run, key member.id = key id ∧
      (member = { id, viewing := root } ∨
        (∃ own ∈ declared (resolver.model.classAt root), member = { id := own }) ∨
        ∃ earlier ∈ front, member = { id := earlier, viewing := root }) := by
  obtain ⟨rest, walk⟩ := exists_order_of_first inside first different
  obtain ⟨found, firsts, collected⟩ := exists_run_membersBy keys inside walk
  rw [collected]
  let ahead := ((declared (resolver.model.classAt root)).filter fun id => !isPrivate id).map
      (root, ·) ++ (front.filter fun id => !isPrivate id).map (outer, ·)
  obtain ⟨behind, whole⟩ : ∃ behind,
      (resolver.model.heritable declared isPrivate
        ((root :: outer :: rest).take hierarchyLimit)).map (keyed root key) =
          ahead.map (keyed root key) ++ keyed root key (outer, id) :: behind := by
    refine ⟨((back.filter fun id => !isPrivate id).map (outer, ·) ++
      resolver.model.heritable declared isPrivate (rest.take (hierarchyLimit - 2))).map
        (keyed root key), ?_⟩
    have taken : (root :: outer :: rest).take hierarchyLimit =
      root :: outer :: rest.take (hierarchyLimit - 2) := rfl
    simp [ahead, taken, Model.heritable, listed, heritable]
  obtain ⟨entry, known, same⟩ := firsts.covers (keyed root key (outer, id)) (by simp [whole])
  obtain ⟨before, after, split, apart⟩ := firsts.first entry known
  refine ⟨entry.2, List.mem_map_of_mem known,
    (firsts.key_id known).trans same, ?_⟩
  have inherited (id : α) : Member.found root outer id = { id, viewing := root } :=
    if_neg different
  rcases split_cases (whole.symm.trans split) with ⟨-, rfl⟩ | earlier | earlier
  · exact .inl (inherited id)
  · exact absurd same.symm (apart _ earlier)
  · obtain ⟨⟨holder, other⟩, candidate, rfl⟩ := List.mem_map.mp earlier
    rcases List.mem_append.mp candidate with own | theirs
    · obtain ⟨_, open', same⟩ := List.mem_map.mp own
      obtain ⟨rfl, rfl⟩ := Prod.mk.inj same
      exact .inr (.inl ⟨_, (List.mem_filter.mp open').1, if_pos rfl⟩)
    · obtain ⟨_, open', same⟩ := List.mem_map.mp theirs
      obtain ⟨rfl, rfl⟩ := Prod.mk.inj same
      exact .inr (.inr ⟨_, (List.mem_filter.mp open').1, inherited _⟩)

end Resolver

end JavaDecl
