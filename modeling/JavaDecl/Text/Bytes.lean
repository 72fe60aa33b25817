/-!
# Byte offsets into a text

Positions in a source text are counted in UTF-8 bytes.  A slice between two
byte offsets exists only if both are character boundaries, in order and inside
the text.
-/

namespace JavaDecl.Text

def byteSize : List Char → Nat
  | [] => 0
  | c :: text => c.utf8Size + byteSize text

@[simp] theorem byteSize_nil : byteSize [] = 0 := rfl

@[simp] theorem byteSize_cons (c : Char) (text : List Char) :
    byteSize (c :: text) = c.utf8Size + byteSize text := rfl

@[simp] theorem byteSize_append (front back : List Char) :
    byteSize (front ++ back) = byteSize front + byteSize back := by
  induction front with
  | nil => simp
  | cons c front ih => simp [ih, Nat.add_assoc]

/-- The text after its first `count` bytes, if a character ends there. -/
def dropBytes? : Nat → List Char → Option (List Char)
  | 0, text => some text
  | _ + 1, [] => none
  | count + 1, c :: text =>
      if c.utf8Size ≤ count + 1 then dropBytes? (count + 1 - c.utf8Size) text else none
termination_by _ text => text.length

/-- The first `count` bytes of the text, if a character ends there. -/
def takeBytes? : Nat → List Char → Option (List Char)
  | 0, _ => some []
  | _ + 1, [] => none
  | count + 1, c :: text =>
      if c.utf8Size ≤ count + 1 then
        (takeBytes? (count + 1 - c.utf8Size) text).map (c :: ·)
      else none
termination_by _ text => text.length

def slice? (text : List Char) (start stop : Nat) : Option (List Char) :=
  if start ≤ stop then (dropBytes? start text).bind (takeBytes? (stop - start)) else none

theorem dropBytes?_byteSize (front back : List Char) :
    dropBytes? (byteSize front) (front ++ back) = some back := by
  induction front with
  | nil => simp [dropBytes?]
  | cons c front ih =>
      have size := c.utf8Size_pos
      obtain ⟨count, sum⟩ : ∃ count, byteSize (c :: front) = count + 1 :=
        ⟨c.utf8Size + byteSize front - 1, by simp; omega⟩
      rw [sum, List.cons_append, dropBytes?]
      have whole : c.utf8Size + byteSize front = count + 1 := by simpa using sum
      rw [if_pos (by omega), show count + 1 - c.utf8Size = byteSize front by omega, ih]

theorem takeBytes?_byteSize (front back : List Char) :
    takeBytes? (byteSize front) (front ++ back) = some front := by
  induction front with
  | nil => simp [takeBytes?]
  | cons c front ih =>
      have size := c.utf8Size_pos
      obtain ⟨count, sum⟩ : ∃ count, byteSize (c :: front) = count + 1 :=
        ⟨c.utf8Size + byteSize front - 1, by simp; omega⟩
      rw [sum, List.cons_append, takeBytes?]
      have whole : c.utf8Size + byteSize front = count + 1 := by simpa using sum
      rw [if_pos (by omega), show count + 1 - c.utf8Size = byteSize front by omega, ih]
      rfl

/-- A slice between the ends of a middle part is that middle part. -/
theorem slice?_middle (front middle back : List Char) :
    slice? (front ++ (middle ++ back)) (byteSize front) (byteSize front + byteSize middle) =
      some middle := by
  rw [slice?, if_pos (by omega), dropBytes?_byteSize, Option.bind_some,
    show byteSize front + byteSize middle - byteSize front = byteSize middle by omega,
    takeBytes?_byteSize]

end JavaDecl.Text
