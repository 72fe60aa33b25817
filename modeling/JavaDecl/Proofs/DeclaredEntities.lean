import Mathlib.Data.List.Forall2
import JavaDecl.Proofs.MemberGrowth

/-!
# Entities of declarations

The entities of a model have what is declared, and the lists of a class have what is
declared directly in it, in the order of an outline.
-/

namespace JavaDecl

/-! ### Declarations as they are written -/

def TypeParameter.written (parameter : TypeParameter TypeRef) : TypeParameter TypeExpr where
  name := parameter.name
  bounds := parameter.bounds.map TypeRef.type

/-- A class is declared so.  What an interface extends are interfaces. -/
structure ClassEntity.Declares (entity : ClassEntity) (declared : ClassDecl) : Prop where
  name : entity.name = declared.name
  kind : entity.kind = declared.kind
  modifiers : entity.modifiers = declared.modifiers
  typeParameters : entity.typeParameters.map TypeParameter.written = declared.typeParameters
  superclass : entity.superclass.toList.map TypeRef.type =
    if declared.kind.isInterface then [] else declared.extending
  interfaces : entity.interfaces.map TypeRef.type =
    if declared.kind.isInterface then declared.extending ++ declared.implementing
    else declared.implementing
  line : entity.line = declared.line
  isConstantBody : entity.isConstantBody = declared.isConstantBody

/-- A field or enumeration constant is declared so. -/
structure FieldEntity.Declares (entity : FieldEntity) (declared : VariableDecl) : Prop where
  name : entity.name = declared.name
  type : entity.type.type = declared.type
  modifiers : entity.modifiers = declared.modifiers
  initializer : entity.initializer = declared.initializer
  isConstant : entity.isConstant = declared.isConstant
  args : entity.args = declared.args
  line : entity.line = declared.line

structure ParameterEntity.Declares (entity : ParameterEntity) (declared : VariableDecl) :
    Prop where
  name : entity.name = declared.name
  type : entity.type.type = declared.type
  isVarargs : entity.isVarargs = declared.isVarargs
  modifiers : entity.modifiers = declared.modifiers
  line : entity.line = declared.line

/-- A method or constructor is declared so, with its parameters in order. -/
structure MethodEntity.Declares (entity : MethodEntity) (isConstructor : Bool)
    (parameters : List VariableDecl) (declared : MethodDecl) : Prop where
  name : entity.name = declared.name
  isConstructor : entity.isConstructor = isConstructor
  returnType : entity.returnType.map TypeRef.type = declared.returnType
  parameters : List.Forall₂ ParameterEntity.Declares entity.parameters parameters
  exceptions : entity.exceptions.map TypeRef.type = declared.exceptions
  typeParameters : entity.typeParameters.map TypeParameter.written = declared.typeParameters
  modifiers : entity.modifiers = declared.modifiers
  body : entity.body = declared.body
  defaultValue : entity.defaultValue = declared.defaultValue
  line : entity.line = declared.line

/-- The binary name of a class: its package and a dot, then its name after the names of the
classes around it, from the outermost one inward, with dollar signs between them. -/
def binaryName (package : Option String) (path : List String) : String :=
  ((package.map (· ++ ".")).getD "") ++ "$".intercalate path

/-- A class of a unit is declared so, in a class or in none, at the end of a path of names. -/
structure Model.Holds (model : Model) (unit : UnitId) (owner : Option ClassId)
    (path : List String) (id : ClassId) (declared : ClassDecl) : Prop where
  declares : (model.classAt id).Declares declared
  inUnit : (model.classAt id).unit = unit
  enclosing : (model.classAt id).enclosing = owner
  binaryName : (model.classAt id).binaryName =
    JavaDecl.binaryName (model.unit unit).packageName (path ++ [declared.name])

/-- The declarations of an outline, from one size of the model to another, are members of
one owner, which is at the end of a path of names.  Classes and fields have been numbered
where they begin, methods and constructors where they end. -/
inductive Mirrors (model : Model) (unit : UnitId) :
    Option ClassId → List String → Model.Size → Outline → Members → Model.Size → Prop
  | nothing {owner : Option ClassId} {path : List String} {start : Model.Size} :
      Mirrors model unit owner path start .nothing {} start
  | aClass {owner : Option ClassId} {path : List String} {start middle stop : Model.Size}
      {declared : ClassDecl} {inner rest : Outline} {members : Members} :
      model.Holds unit owner path ⟨start.classes⟩ declared →
        Mirrors model unit (some ⟨start.classes⟩) (path ++ [declared.name])
          { start with classes := start.classes + 1 } inner
          (model.classAt ⟨start.classes⟩).members middle →
        Mirrors model unit owner path middle rest members stop →
          Mirrors model unit owner path start (.aClass declared inner rest)
            ({ nested := [⟨start.classes⟩] } ++ members) stop
  | field {owner : ClassId} {path : List String} {start stop : Model.Size}
      {declared : VariableDecl} {rest : Outline} {members : Members} :
      (model.field ⟨start.fields⟩).Declares declared →
        (model.field ⟨start.fields⟩).declaring = owner →
        (model.field ⟨start.fields⟩).bodyClass = none →
        Mirrors model unit (some owner) path { start with fields := start.fields + 1 } rest
          members stop →
          Mirrors model unit (some owner) path start (.field declared rest)
            ({ fields := [⟨start.fields⟩] } ++ members) stop
  | constant {owner : ClassId} {path : List String} {start middle stop : Model.Size}
      {declared : VariableDecl} {body : ClassDecl} {inner rest : Outline} {members : Members} :
      (model.field ⟨start.fields⟩).Declares declared →
        (model.field ⟨start.fields⟩).declaring = owner →
        (model.field ⟨start.fields⟩).bodyClass = some ⟨start.classes⟩ →
        model.Holds unit (some owner) path ⟨start.classes⟩ body →
        Mirrors model unit (some ⟨start.classes⟩) (path ++ [body.name])
          { start with classes := start.classes + 1, fields := start.fields + 1 } inner
          (model.classAt ⟨start.classes⟩).members middle →
        Mirrors model unit (some owner) path middle rest members stop →
          Mirrors model unit (some owner) path start (.constant declared body inner rest)
            ({ fields := [⟨start.fields⟩] } ++ members) stop
  | method {owner : ClassId} {path : List String} {start stop : Model.Size}
      {isConstructor : Bool} {parameters : List VariableDecl} {declared : MethodDecl}
      {rest : Outline} {members : Members} :
      (model.method ⟨start.methods⟩).Declares isConstructor parameters declared →
        (model.method ⟨start.methods⟩).declaring = owner →
        Mirrors model unit (some owner) path { start with methods := start.methods + 1 } rest
          members stop →
          Mirrors model unit (some owner) path start
            (.method isConstructor parameters declared rest)
            (Members.ofMethod isConstructor ⟨start.methods⟩ ++ members) stop
  | initializer {owner : ClassId} {path : List String} {start stop : Model.Size}
      {declared : InitializerDecl} {rest : Outline} {members : Members} :
      Mirrors model unit (some owner) path start rest members stop →
        Mirrors model unit (some owner) path start (.initializer declared rest)
          ({ initializers := [declared] } ++ members) stop

theorem Mirrors.append {model : Model} {unit : UnitId} {owner : Option ClassId}
    {path : List String} {start middle stop : Model.Size} {front back : Outline}
    {members others : Members} (first : Mirrors model unit owner path start front members middle)
    (second : Mirrors model unit owner path middle back others stop) :
    Mirrors model unit owner path start (front.append back) (members ++ others) stop := by
  induction first with
  | nothing => exact second
  | aClass holds inner _ _ ih =>
      rw [Members.append_assoc]
      exact .aClass holds inner (ih second)
  | field declares declaring bodyClass _ ih =>
      rw [Members.append_assoc]
      exact .field declares declaring bodyClass (ih second)
  | constant declares declaring bodyClass holds inner _ _ ih =>
      rw [Members.append_assoc]
      exact .constant declares declaring bodyClass holds inner (ih second)
  | method declares declaring _ ih =>
      rw [Members.append_assoc]
      exact .method declares declaring (ih second)
  | initializer _ ih =>
      rw [Members.append_assoc]
      exact .initializer (ih second)

/-- Outside of classes there are only classes. -/
theorem Mirrors.eq_classes {model : Model} {unit : UnitId} {path : List String}
    {start stop : Model.Size} {outline : Outline} {members : Members}
    (mirrors : Mirrors model unit none path start outline members stop) :
    members = { nested := members.nested } := by
  generalize outside : (none : Option ClassId) = owner at mirrors
  induction mirrors with
  | nothing => rfl
  | aClass _ _ _ _ ih =>
      rw [ih outside]
      rfl
  | _ => cases outside

namespace Assembly

/-! ### What a declaration becomes -/

@[simp]
theorem map_type_refsAt (scope : Scope) (holder : Holder) (role : Nat → RefRole)
    (types : List TypeExpr) : (refsAt scope holder role types).map TypeRef.type = types := by
  unfold refsAt
  rw [List.map_map]
  exact List.zipIdx_map_fst 0 types

@[simp]
theorem map_written_parametersAt (scope : Scope) (holder : Holder)
    (parameters : List (TypeParameter TypeExpr)) :
    (parametersAt scope holder parameters).map TypeParameter.written = parameters := by
  unfold parametersAt
  rw [List.map_map]
  refine Eq.trans (List.map_congr_left fun pair _ => ?_) (List.zipIdx_map_fst 0 parameters)
  simp [TypeParameter.written]

theorem declares_classEntity {assembly : Assembly} {declared : ClassDecl}
    (once : declared.ExtendsOnce) (comment : Option String) (tags : List DocTag)
    (uses : List (AnnotationUse TypeExpr)) (added : Members) :
    ((assembly.classEntity declared comment tags uses).adding added).Declares declared := by
  have single : declared.kind.isInterface = false →
      declared.extending.head?.toList = declared.extending := by
    intro plain
    have short : declared.extending.length ≤ 1 := once fun same => by
      rw [same] at plain
      cases plain
    match declared.extending, short with
    | [], _ => rfl
    | [_], _ => rfl
  refine ⟨rfl, rfl, rfl, map_written_parametersAt _ _ _, ?_, ?_, rfl, rfl⟩
  · change ((supertypesOf declared).1.map _).toList.map TypeRef.type = _
    unfold supertypesOf
    split
    · rfl
    · next plain =>
        have written := single (by simpa using plain)
        rw [Option.toList_map, List.map_map]
        exact (List.map_id' _).trans written
  · change (refsAt _ _ _ (supertypesOf declared).2).map TypeRef.type = _
    rw [map_type_refsAt]
    unfold supertypesOf
    split <;> rfl

theorem declares_fieldEntity (unit : UnitId) (owner : ClassId) (id : FieldId)
    (declared : VariableDecl) (comment : Option String) (tags : List DocTag)
    (uses : List (AnnotationUse TypeExpr)) :
    (fieldEntity unit owner id declared comment tags uses).Declares declared :=
  ⟨rfl, rfl, rfl, rfl, rfl, rfl, rfl⟩

theorem declares_methodEntity (unit : UnitId) (owner : ClassId) (id : MethodId)
    (waiting : OpenMethod) (declared : MethodDecl) :
    (methodEntity unit owner id waiting declared).Declares waiting.isConstructor
      (waiting.parameters.map Prod.fst) declared := by
  refine ⟨rfl, rfl, ?_, ?_, map_type_refsAt _ _ _ _, map_written_parametersAt _ _ _, rfl, rfl,
    rfl, rfl⟩
  · change (declared.returnType.map _).map TypeRef.type = declared.returnType
    rw [Option.map_map]
    exact Option.map_id'
  · have listed : waiting.parameters.map Prod.fst =
        waiting.parameters.zipIdx.map (Prod.fst ∘ Prod.fst) := by
      rw [← List.map_map, List.zipIdx_map_fst]
    rw [listed]
    refine List.forall₂_map_left_iff.mpr (List.forall₂_map_right_iff.mpr ?_)
    exact List.forall₂_same.mpr fun _ _ => ⟨rfl, rfl, rfl, rfl, rfl⟩

end Assembly

end JavaDecl
