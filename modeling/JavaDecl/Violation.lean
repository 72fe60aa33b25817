/-!
# Violations

A model is assembled from events that nest: what begins ends, and parts come
between the beginning and the end of what they are parts of.  There are a dozen
ways in which events can fail to nest.
-/

namespace JavaDecl

/-- How a sequence of events fails to nest. -/
inductive Violation where
  /-- Declarations have begun and not ended. -/
  | stillOpen (classes fields methods : Nat)
  /-- The body of an enumeration constant stands in no class. -/
  | bodyOutsideClass (name : String)
  /-- The body of an enumeration constant stands in no constant. -/
  | bodyOutsideConstant
  | noOpenClass
  | noOpenField
  /-- A method ends that has not begun. -/
  | noOpenMethod (name : String)
  /-- A method ends as a constructor or a constructor as a method. -/
  | otherMethodOpen
  | methodInMethod
  | fieldInMethod
  | parameterOutsideMethod
  /-- A member stands outside of classes. -/
  | outsideClass (step : String)
  /-- A directive stands before the module it is for. -/
  | beforeModule (step : String)
deriving DecidableEq, Repr, Inhabited

def Violation.message : Violation → String
  | stillOpen classes fields methods =>
      "unbalanced builder calls: " ++ toString classes ++ " classes, " ++ toString fields ++
        " fields and " ++ toString methods ++ " methods still open"
  | bodyOutsideClass name => "enum constant body '" ++ name ++ "' outside of an enum"
  | bodyOutsideConstant => "enum constant body opened outside of its constant"
  | noOpenClass => "end_class without matching begin_class"
  | noOpenField => "end_field without matching begin_field"
  | noOpenMethod name => "end of method '" ++ name ++ "' without a matching begin"
  | otherMethodOpen => "end_method/end_constructor does not match the open declaration"
  | methodInMethod => "method opened while another method is still open"
  | fieldInMethod => "begin_field called inside a method"
  | parameterOutsideMethod => "add_parameter called outside of a method"
  | outsideClass step => step ++ " called outside of any class"
  | beforeModule step => step ++ " called before set_module"

end JavaDecl
