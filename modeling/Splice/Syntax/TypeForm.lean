import Splice.Syntax.Node

/-!
# Forms of types

The name of a type tells how the type is written.

* `TypeForm.of`: the form of a type with a name.
* `Node.namedType`, `Node.templateType`, `Node.qualifiedType`, `Node.pointerType`,
  `Node.arrayType`: a type of each form.
-/

namespace Splice

/-- The ways in which types are written. -/
inductive TypeForm
  /-- `T*` -/
  | pointer
  /-- `T[]`, or `T[size]` -/
  | array
  /-- `const(T)`, and likewise for the other qualifiers. -/
  | qualified
  /-- `Name!(args)` -/
  | template
  /-- A builtin type, or a name with its points. -/
  | plain
deriving DecidableEq, Inhabited

namespace TypeForm

/-- The name of pointer types. -/
def pointerName : Text := ['*']

/-- The name of array types, with and without a size. -/
def arrayName : Text := ['[', ']']

/-- The form of a type with a name. -/
def of (name : Text) (isTemplate : Bool) : TypeForm :=
  if name = pointerName then .pointer
  else if name = arrayName then .array
  else if Qualifier.all.any fun q => q.word = name then .qualified
  else if isTemplate then .template
  else .plain

/-- The part of a type that the form looks for first. -/
def firstPart : TypeForm → NodePart
  | pointer | qualified => .args
  | array => .size
  | template | plain => .isTemplate

end TypeForm

namespace Node

/-- A builtin type, or a name with its points. -/
def namedType (loc : Loc) (name : Text) : Node := .type (some loc) name false [] .missing

/-- A template of types with its arguments. -/
def templateType (loc : Loc) (name : Text) (args : List Node) : Node :=
  .type (some loc) name true args .missing

/-- A type with a qualifier around it. -/
def qualifiedType (loc : Loc) (q : Qualifier) (inner : Node) : Node :=
  .type (some loc) q.word false [inner] .missing

/-- The pointers to a type. Like all types with a suffix it stands where the type began. -/
def pointerType (target : Node) : Node :=
  .type target.loc? TypeForm.pointerName false [target] .missing

/-- The arrays of a type. The size may be missing. -/
def arrayType (element size : Node) : Node :=
  .type element.loc? TypeForm.arrayName false [element] size

end Node

end Splice
