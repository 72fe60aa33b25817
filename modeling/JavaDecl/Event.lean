import JavaDecl.Declaration.Basic

/-!
# Events of a compilation unit

Reading a compilation unit yields its declarations in the order of the source.
Classes, methods, constructors and fields have a beginning and an end, between
which their parts come.  Comments and annotations come before the declaration
they belong to.
-/

namespace JavaDecl

/-- One step in the reading of a compilation unit. -/
inductive Event where
  | package (declared : PackageDecl)
  | imported (declared : ImportDecl)
  | docText (text : String)
  /-- A block tag of the doc comment before it. -/
  | docTag (tag : DocTag)
  /-- An annotation of the next declaration. -/
  | annotated (use : AnnotationUse TypeExpr)
  | beginClass (declared : ClassDecl)
  | endClass
  | beginConstructor
  | endConstructor (declared : MethodDecl)
  | beginMethod
  | endMethod (declared : MethodDecl)
  | parameter (declared : VariableDecl)
  | beginField (declared : VariableDecl)
  | endField
  | initializer (declared : InitializerDecl)
  | moduleHeader (declared : ModuleDecl)
  | requires (directive : RequiresDirective)
  | exported (directive : PackageDirective)
  | opened (directive : PackageDirective)
  | uses (directive : UsesDirective)
  | provides (directive : ProvidesDirective)
deriving Inhabited

/-- The events of a doc comment: its text, then its tags. -/
def DocComment.events (comment : DocComment) : List Event :=
  .docText comment.text :: comment.tags.map .docTag

end JavaDecl
