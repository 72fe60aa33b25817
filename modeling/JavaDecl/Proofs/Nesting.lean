import JavaDecl.Event

/-!
# Events that nest

A sequence of events nests if every class, method, constructor and field that
begins also ends, inside of what it began in, and if each event stands where it
may stand.  Comments may come anywhere.  Annotations come right before the
declaration that they belong to; before the package and the module only comments
come between them and the declaration.
-/

namespace JavaDecl

/-- What a sequence of events stands in. -/
inductive Surrounding where
  | unit
  /-- A class, between its beginning and its end. -/
  | inClass
  /-- A field, between its beginning and its end. -/
  | inField
  /-- A method or constructor, between its beginning and its end. -/
  | inMethod (isConstructor : Bool)
deriving DecidableEq, Repr

/-- The classes that may begin in a surrounding: bodies of enumeration constants in
their constants, and all others in units and classes. -/
def Surrounding.Admits (surrounding : Surrounding) (declared : ClassDecl) : Prop :=
  match surrounding with
  | unit | inClass => declared.isConstantBody = false
  | inField => declared.isConstantBody = true
  | inMethod _ => False

namespace Event

def isComment : Event → Bool
  | docText _ | docTag _ => true
  | _ => false

def isDirective : Event → Bool
  | requires _ | exported _ | opened _ | uses _ | provides _ => true
  | _ => false

def beginOf (isConstructor : Bool) : Event :=
  if isConstructor then beginConstructor else beginMethod

def endOf (isConstructor : Bool) (declared : MethodDecl) : Event :=
  if isConstructor then endConstructor declared else endMethod declared

end Event

def annotating (uses : List (AnnotationUse TypeExpr)) : List Event :=
  uses.map .annotated

/-- Events that nest inside a surrounding.  The last argument of each constructor is the
rest of the sequence, after one more declaration. -/
inductive Nested : Surrounding → List Event → Prop where
  | nothing {surrounding : Surrounding} : Nested surrounding []
  | comment {surrounding : Surrounding} {event : Event} {rest : List Event} :
      event.isComment → Nested surrounding rest → Nested surrounding (event :: rest)
  | package {uses : List (AnnotationUse TypeExpr)} {gap rest : List Event}
      {declared : PackageDecl} :
      (∀ event ∈ gap, event.isComment) → Nested .unit rest →
        Nested .unit (annotating uses ++ (gap ++ .package declared :: rest))
  | imported {declared : ImportDecl} {rest : List Event} :
      Nested .unit rest → Nested .unit (.imported declared :: rest)
  /-- The module of the unit with its directives. -/
  | moduleHeader {uses : List (AnnotationUse TypeExpr)} {gap directives rest : List Event}
      {declared : ModuleDecl} :
      (∀ event ∈ gap, event.isComment) →
        (∀ event ∈ directives, event.isDirective ∨ event.isComment) → Nested .unit rest →
          Nested .unit
            (annotating uses ++ (gap ++ .moduleHeader declared :: (directives ++ rest)))
  | aClass {surrounding : Surrounding} {uses : List (AnnotationUse TypeExpr)}
      {declared : ClassDecl} {inner rest : List Event} :
      surrounding.Admits declared → Nested .inClass inner → Nested surrounding rest →
        Nested surrounding
          (annotating uses ++ .beginClass declared :: (inner ++ .endClass :: rest))
  | initializer {declared : InitializerDecl} {rest : List Event} :
      Nested .inClass rest → Nested .inClass (.initializer declared :: rest)
  | field {uses : List (AnnotationUse TypeExpr)} {declared : VariableDecl}
      {inner rest : List Event} :
      Nested .inField inner → Nested .inClass rest →
        Nested .inClass
          (annotating uses ++ .beginField declared :: (inner ++ .endField :: rest))
  | method {isConstructor : Bool} {uses : List (AnnotationUse TypeExpr)}
      {declared : MethodDecl} {inner rest : List Event} :
      Nested (.inMethod isConstructor) inner → Nested .inClass rest →
        Nested .inClass
          (annotating uses ++ Event.beginOf isConstructor ::
            (inner ++ Event.endOf isConstructor declared :: rest))
  | parameter {isConstructor : Bool} {uses : List (AnnotationUse TypeExpr)}
      {declared : VariableDecl} {rest : List Event} :
      Nested (.inMethod isConstructor) rest →
        Nested (.inMethod isConstructor) (annotating uses ++ .parameter declared :: rest)

namespace Nested

/-- Sequences that nest in the same surrounding nest one after the other. -/
theorem append {surrounding : Surrounding} {front back : List Event}
    (first : Nested surrounding front) (second : Nested surrounding back) :
    Nested surrounding (front ++ back) := by
  induction first with
  | nothing => exact second
  | comment isComment _ ih => exact .comment isComment (ih second)
  | package gap _ ih => simpa using .package gap (ih second)
  | imported _ ih => exact .imported (ih second)
  | moduleHeader gap directives _ ih => simpa using .moduleHeader gap directives (ih second)
  | aClass admits inner _ _ ih => simpa using .aClass admits inner (ih second)
  | initializer _ ih => exact .initializer (ih second)
  | field inner _ _ ih => simpa using .field inner (ih second)
  | method inner _ _ ih => simpa using .method inner (ih second)
  | parameter _ ih => simpa using .parameter (ih second)

theorem ofComments {surrounding : Surrounding} {events : List Event}
    (comments : ∀ event ∈ events, event.isComment) : Nested surrounding events := by
  induction events with
  | nil => exact .nothing
  | cons event rest ih =>
      exact .comment (comments event (by simp))
        (ih fun other member => comments other (by simp [member]))

theorem unannotatedClass {surrounding : Surrounding} {declared : ClassDecl} {inner : List Event}
    (admits : surrounding.Admits declared) (nested : Nested .inClass inner) :
    Nested surrounding (.beginClass declared :: (inner ++ [.endClass])) := by
  have whole : Nested surrounding
      (annotating [] ++ .beginClass declared :: (inner ++ .endClass :: [])) :=
    .aClass admits nested .nothing
  exact whole

end Nested

end JavaDecl
