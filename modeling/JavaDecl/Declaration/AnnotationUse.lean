import JavaDecl.Declaration.TypeExpr

/-!
# Annotations on declarations

An annotation gives values to the elements of its type.  Values nest, since an
annotation may be the value of an element of another.
-/

namespace JavaDecl

mutual

/-- An annotation in front of a declaration. -/
structure AnnotationUse (τ : Type) where
  type : τ
  /-- The values of its elements, by name.  A value without a name belongs to the
  element `value`. -/
  values : List (String × ElementValue τ)
  line : Nat

/-- The value of an annotation element. -/
inductive ElementValue (τ : Type) where
  /-- A single literal, as it is written. -/
  | constant (text : String)
  /-- The class object of a type. -/
  | classLiteral (type : τ)
  | nested (use : AnnotationUse τ)
  /-- A list of values in braces. -/
  | array (items : List (ElementValue τ))
  /-- Any other expression, as it is written. -/
  | expression (text : String)

end

instance {τ : Type} [Inhabited τ] : Inhabited (AnnotationUse τ) := ⟨⟨default, [], 0⟩⟩

instance {τ : Type} : Inhabited (ElementValue τ) := ⟨.constant ""⟩

/-- Gives an element a value.  An element that has one keeps its position. -/
def setElement {υ : Type} (pairs : List (String × υ)) (element : String) (value : υ) :
    List (String × υ) :=
  match pairs with
  | [] => [(element, value)]
  | (other, old) :: rest =>
      if other = element then (element, value) :: rest
      else (other, old) :: setElement rest element value

/-- The values of elements given one after the other. -/
def elementsOfList {υ : Type} (pairs : List (String × υ)) : List (String × υ) :=
  pairs.foldl (fun known pair => setElement known pair.1 pair.2) []

end JavaDecl
