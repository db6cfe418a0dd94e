import FlatRecord.Json.Value
import FlatRecord.Schema

/-!
# Schema definitions

A schema definition is what a schema is made from, in a form that can be written as
JSON and kept in a file: a packing and a list of fields.

The parts of a definition have types of their own.  Scalars are called by other names
there than in messages, and each scalar is a type of fields beside the enumerations.
`Definition.descriptors` turns a definition into what the rest of the library works
with.
-/

namespace FlatRecord

/-! ## The parts of a definition -/

/-- How boolean fields are stored. -/
inductive PackingDef where
  /-- One byte for each boolean. -/
  | noCompaction
  /-- Up to eight booleans to a byte. -/
  | compactBools
deriving DecidableEq, Repr

instance : Inhabited PackingDef := ⟨.noCompaction⟩

/-- A scalar.  `char16` is a UTF-16 code unit. -/
inductive ScalarDef where
  | bool | int8 | uint8 | int16 | uint16 | int32 | uint32 | int64 | uint64
  | float32 | float64 | char16
deriving DecidableEq, Repr

/-- The type of a field. -/
inductive TypeDef where
  | bool | int8 | uint8 | int16 | uint16 | int32 | uint32 | int64 | uint64
  | float32 | float64 | char16
  /-- An enumeration, stored as a value of `underlying`. -/
  | enumeration (name : String) (underlying : ScalarDef)
  /-- A type that cannot be stored. -/
  | unsupported (name : String)
deriving DecidableEq, Repr

/-- A field. -/
structure FieldDef where
  name : String
  type : TypeDef
  /-- Whether the field is stored. -/
  included : Bool := true
deriving DecidableEq, Repr

/-- A packing and a list of fields. -/
structure Definition where
  packing : PackingDef := default
  fields : List FieldDef
deriving DecidableEq, Repr

/-! ## What the parts stand for -/

def PackingDef.toPacking : PackingDef → Packing
  | noCompaction => .loose
  | compactBools => .dense

def ScalarDef.toScalar : ScalarDef → Scalar
  | bool => .bool
  | int8 => .i8
  | uint8 => .u8
  | int16 => .i16
  | uint16 => .u16
  | int32 => .i32
  | uint32 => .u32
  | int64 => .i64
  | uint64 => .u64
  | float32 => .f32
  | float64 => .f64
  | char16 => .char16

def TypeDef.toFieldType : TypeDef → FieldType
  | bool => .scalar .bool
  | int8 => .scalar .i8
  | uint8 => .scalar .u8
  | int16 => .scalar .i16
  | uint16 => .scalar .u16
  | int32 => .scalar .i32
  | uint32 => .scalar .u32
  | int64 => .scalar .i64
  | uint64 => .scalar .u64
  | float32 => .scalar .f32
  | float64 => .scalar .f64
  | char16 => .scalar .char16
  | enumeration name underlying => .enumeration name underlying.toScalar
  | unsupported name => .unsupported name

def FieldDef.toField (f : FieldDef) : Field where
  name := f.name
  type := f.type.toFieldType
  included := f.included

/-- The packing and the fields that a definition stands for. -/
def Definition.descriptors (d : Definition) : Packing × List Field :=
  (d.packing.toPacking, d.fields.map FieldDef.toField)

/-- The schema that a definition defines. -/
def Schema.ofDefinition (d : Definition) : Except LayoutError Schema :=
  Schema.ofFields d.descriptors.2 d.descriptors.1

/-! ## Names -/

namespace PackingDef

/-- The name of a packing in a definition. -/
def keyword : PackingDef → String
  | noCompaction => "NoCompaction"
  | compactBools => "CompactBools"

/-- The packings by their names. -/
def keywords : List (String × PackingDef) :=
  [noCompaction, compactBools].map fun p => (p.keyword, p)

end PackingDef

namespace ScalarDef

/-- Every scalar once, in declaration order. -/
def all : List ScalarDef :=
  [bool, int8, uint8, int16, uint16, int32, uint32, int64, uint64, float32, float64, char16]

/-- The name of a scalar in a definition. -/
def keyword : ScalarDef → String
  | bool => "Bool"
  | int8 => "Int8"
  | uint8 => "UInt8"
  | int16 => "Int16"
  | uint16 => "UInt16"
  | int32 => "Int32"
  | uint32 => "UInt32"
  | int64 => "Int64"
  | uint64 => "UInt64"
  | float32 => "Float32"
  | float64 => "Float64"
  | char16 => "Char16"

/-- The scalars by their names. -/
def keywords : List (String × ScalarDef) :=
  all.map fun s => (s.keyword, s)

end ScalarDef

namespace TypeDef

/-- The type of the fields that hold a scalar. -/
def scalar : ScalarDef → TypeDef
  | .bool => bool
  | .int8 => int8
  | .uint8 => uint8
  | .int16 => int16
  | .uint16 => uint16
  | .int32 => int32
  | .uint32 => uint32
  | .int64 => int64
  | .uint64 => uint64
  | .float32 => float32
  | .float64 => float64
  | .char16 => char16

/-- The name of the kind of a type.  A scalar is called the same here. -/
def keyword : TypeDef → String
  | bool => "Bool"
  | int8 => "Int8"
  | uint8 => "UInt8"
  | int16 => "Int16"
  | uint16 => "UInt16"
  | int32 => "Int32"
  | uint32 => "UInt32"
  | int64 => "Int64"
  | uint64 => "UInt64"
  | float32 => "Float32"
  | float64 => "Float64"
  | char16 => "Char16"
  | enumeration .. => "Enum"
  | unsupported .. => "Unsupported"

/-- A type is a scalar, an enumeration or one that cannot be stored. -/
@[cases_eliminator]
theorem casesByKind {motive : TypeDef → Prop} (t : TypeDef) (scalar : ∀ s, motive (scalar s))
    (enumeration : ∀ name underlying, motive (enumeration name underlying))
    (unsupported : ∀ name, motive (unsupported name)) : motive t := by
  cases t
  case enumeration name underlying => exact enumeration name underlying
  case unsupported name => exact unsupported name
  case bool => exact scalar .bool
  case int8 => exact scalar .int8
  case uint8 => exact scalar .uint8
  case int16 => exact scalar .int16
  case uint16 => exact scalar .uint16
  case int32 => exact scalar .int32
  case uint32 => exact scalar .uint32
  case int64 => exact scalar .int64
  case uint64 => exact scalar .uint64
  case float32 => exact scalar .float32
  case float64 => exact scalar .float64
  case char16 => exact scalar .char16

@[simp] theorem toFieldType_scalar (s : ScalarDef) :
    (scalar s).toFieldType = .scalar s.toScalar := by
  cases s <;> rfl

end TypeDef

/-! ## Written form -/

def PackingDef.toJson (p : PackingDef) : Json :=
  .string p.keyword

def ScalarDef.toJson (s : ScalarDef) : Json :=
  .string s.keyword

namespace TypeDef

/-- The members that a type has beside the one that says which kind it is. -/
def members : TypeDef → List (String × Json)
  | enumeration name underlying =>
    [("name", .string name), ("underlying", underlying.toJson)]
  | unsupported name => [("name", .string name)]
  | _ => []

/-- A type is an object whose member `type` says which kind of type it is. -/
def toJson (t : TypeDef) : Json :=
  .object (("type", .string t.keyword) :: t.members)

theorem toJson_scalar (s : ScalarDef) :
    (scalar s).toJson = .object [("type", .string s.keyword)] := by
  cases s <;> rfl

theorem toJson_enumeration (name : String) (underlying : ScalarDef) :
    (enumeration name underlying).toJson =
      .object [("type", .string "Enum"), ("name", .string name),
        ("underlying", .string underlying.keyword)] :=
  rfl

theorem toJson_unsupported (name : String) :
    (unsupported name).toJson =
      .object [("type", .string "Unsupported"), ("name", .string name)] :=
  rfl

/-- Every member that a type is written with is a text. -/
theorem exists_toJson_eq (t : TypeDef) :
    ∃ texts : List (String × String),
      t.toJson = .object (texts.map fun (name, text) => (name, .string text)) := by
  cases t with
  | scalar s => exact ⟨[("type", s.keyword)], toJson_scalar s⟩
  | enumeration name underlying =>
    exact ⟨[("type", "Enum"), ("name", name), ("underlying", underlying.keyword)], rfl⟩
  | unsupported name => exact ⟨[("type", "Unsupported"), ("name", name)], rfl⟩

end TypeDef

def FieldDef.toJson (f : FieldDef) : Json :=
  .object [("name", .string f.name), ("ty", f.type.toJson), ("include", .boolean f.included)]

def Definition.toJson (d : Definition) : Json :=
  .object [("mode", d.packing.toJson), ("fields", .array (d.fields.map FieldDef.toJson))]

end FlatRecord
