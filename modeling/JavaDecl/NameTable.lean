import Std.Data.ExtHashMap

/-!
# Tables of names

A table keeps at most one value under each name.  All that can be told of a table
is which value `find?` gives for which name, and each operation is described by
what it does to that.
-/

namespace JavaDecl

/-- Values that are found by names. -/
abbrev NameTable (α : Type) := Std.ExtHashMap String α

namespace NameTable

variable {α : Type}

def find? (table : NameTable α) (name : String) : Option α :=
  table[name]?

/-- The table with a value under a name, in place of any other. -/
def set (table : NameTable α) (name : String) (value : α) : NameTable α :=
  table.insert name value

/-- The table with a value under a name, unless there is another. -/
def setIfNew (table : NameTable α) (name : String) (value : α) : NameTable α :=
  table.insertIfNew name value

/-- The table without the values that are not to be kept. -/
def keep (table : NameTable α) (isKept : α → Bool) : NameTable α :=
  table.filter fun _ value => isKept value

/-- Tables that give the same values are the same. -/
theorem eq_of_find?_eq {one other : NameTable α}
    (same : ∀ name, one.find? name = other.find? name) : one = other :=
  Std.ExtHashMap.ext_getElem? fun name => same name

@[simp] theorem find?_empty (name : String) : (∅ : NameTable α).find? name = none :=
  Std.ExtHashMap.getElem?_empty

@[simp] theorem find?_set (table : NameTable α) (name other : String) (value : α) :
    (table.set name value).find? other =
      if name = other then some value else table.find? other := by
  simp [set, find?, Std.ExtHashMap.getElem?_insert]

@[simp] theorem find?_setIfNew (table : NameTable α) (name other : String) (value : α) :
    (table.setIfNew name value).find? other =
      if name = other then some ((table.find? name).getD value) else table.find? other := by
  simp only [setIfNew, find?, Std.ExtHashMap.getElem?_insertIfNew, beq_iff_eq]
  by_cases same : name = other
  · subst same
    by_cases held : name ∈ table
    · simp [held]
    · simp [held]
  · simp [same]

@[simp] theorem find?_keep (table : NameTable α) (isKept : α → Bool) (name : String) :
    (table.keep isKept).find? name = (table.find? name).filter isKept := by
  simp [keep, find?]

end NameTable

end JavaDecl
