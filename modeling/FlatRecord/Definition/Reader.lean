import FlatRecord.Definition.Basic
import FlatRecord.Json.Reader

/-!
# Reading schema definitions

A definition, a field and a type are given as objects, or as arrays of their
parts in order.  In an object the members may come in any order.  In a
definition and in a field, members that have no meaning are passed over, and
parts that have a default may be left out.

A type is read whole before its parts are looked at, since the member that says
what kind of type it is may come last.
-/

namespace FlatRecord

open Json (Node Problem)

/-! ## Types -/

/-- The kinds of types, as the member `type` tells them. -/
inductive TypeTag where
  | scalar (s : ScalarDef)
  | enumeration
  | unsupported
deriving DecidableEq, Repr

/-- The kinds of types by their names. -/
def TypeTag.keywords : List (String × TypeTag) :=
  ScalarDef.keywords.map (fun (k, s) => (k, scalar s)) ++
    [("Enum", enumeration), ("Unsupported", unsupported)]

/-- The scalar that a value names.  The value is the name, or an object with the
name as its only key and null or an empty object as its value. -/
def ScalarDef.ofJson : Json → Except Problem ScalarDef
  | .string s => Json.choose keywords s
  | .object [(key, value)] => do
    let s ← Json.choose keywords key
    match value with
    | .null | .object [] => pure s
    | v => throw (.data (.wrongKind v.kind "unit"))
  | .object _ => .error (.data (.wrongValue .map "map with a single key"))
  | v => .error (.data (.wrongKind v.kind "string or map"))

namespace TypeDef

/-- The parts of an enumeration type as far as they have been read. -/
structure Draft where
  name : Option String := none
  underlying : Option ScalarDef := none

/-- Takes the parts that an enumeration type has from a member. -/
def Draft.addToEnumeration (d : Draft) (member : String × Json) : Except Problem Draft :=
  if member.1 = "name" then do
    let name ← Json.readOnce "name" d.name member.2.readString
    pure { d with name }
  else if member.1 = "underlying" then do
    let underlying ← Json.readOnce "underlying" d.underlying (ScalarDef.ofJson member.2)
    pure { d with underlying }
  else
    pure d

/-- Takes the part that an unsupported type has from a member. -/
def Draft.addToUnsupported (d : Draft) (member : String × Json) : Except Problem Draft :=
  if member.1 = "name" then do
    let name ← Json.readOnce "name" d.name member.2.readString
    pure { d with name }
  else
    pure d

/-- The type of a kind, from the members beside the kind. -/
def ofMembers (members : List (String × Json)) : TypeTag → Except Problem TypeDef
  | .scalar s => .ok (scalar s)
  | .enumeration => do
    let d ← members.foldlM Draft.addToEnumeration {}
    let name ← Json.required "name" d.name
    let underlying ← Json.required "underlying" d.underlying
    pure (enumeration name underlying)
  | .unsupported => do
    let d ← members.foldlM Draft.addToUnsupported {}
    let name ← Json.required "name" d.name
    pure (unsupported name)

/-- The type of a kind, from the items after the kind. -/
def ofItems (items : List Json) : TypeTag → Except Problem TypeDef
  | .scalar s => do
    Json.noMoreItems 0 "0 elements in sequence" items
    pure (scalar s)
  | .enumeration =>
    let short (n : Nat) : Problem :=
      .data (.wrongLength n "struct variant TypeDef::Enum with 2 elements")
    match items with
    | [] => .error (short 0)
    | name :: rest => do
      let name ← name.readString
      match rest with
      | [] => throw (short 1)
      | underlying :: rest =>
        let underlying ← ScalarDef.ofJson underlying
        Json.noMoreItems 2 "2 elements in sequence" rest
        pure (enumeration name underlying)
  | .unsupported =>
    match items with
    | [] => .error (.data (.wrongLength 0 "struct variant TypeDef::Unsupported with 1 element"))
    | name :: rest => do
      let name ← name.readString
      Json.noMoreItems 1 "1 element in sequence" rest
      pure (unsupported name)

/-- The kind of a type. -/
def readTag (n : Node) : Except Problem TypeTag := do
  Json.choose TypeTag.keywords (← n.readString "variant identifier")

/-- Takes the kind from a member, or keeps the member for later. -/
def addMember (levels : Nat) (read : Option TypeTag × List (String × Json)) (name : String)
    (value : Node) : Except Problem (Option TypeTag × List (String × Json)) :=
  if name = "type" then do
    let tag ← Json.readOnce "type" read.1 (readTag value)
    pure (tag, read.2)
  else do
    let value ← value.toJson levels
    pure (read.1, read.2 ++ [(name, value)])

/-- The type that a tree gives.  Containers in it may lie `levels` deep in each
other. -/
def ofNode (levels : Nat) : Node → Except Problem TypeDef
  | .array items ending => do
    match ← Node.firstItem ending items with
    | (none, _) => throw (.data (.missing "type"))
    | (some tag, rest) =>
      let tag ← readTag tag
      let values ← rest.mapM (Node.toJson levels)
      ending.read
      ofItems values tag
  | .object members ending => do
    let (tag, others) ← Node.foldMembers (addMember levels) (none, []) members
    ending.read
    ofMembers others (← Json.required "type" tag)
  | n => .error (n.mismatch "internally tagged enum TypeDef")

end TypeDef

/-! ## Fields -/

namespace FieldDef

/-- The parts of a field as far as they have been read. -/
structure Draft where
  name : Option String := none
  type : Option TypeDef := none
  included : Option Bool := none

def readName : Node → Except Problem String :=
  Node.readString "a string"

/-- Takes a part from a member. -/
def Draft.add (levels : Nat) (d : Draft) (key : String) (value : Node) : Except Problem Draft :=
  if key = "name" then do
    let name ← Json.readOnce "name" d.name (readName value)
    pure { d with name }
  else if key = "ty" then do
    let type ← Json.readOnce "ty" d.type (TypeDef.ofNode levels value)
    pure { d with type }
  else if key = "include" then do
    let included ← Json.readOnce "include" d.included value.readBoolean
    pure { d with included }
  else do
    value.skip
    pure d

/-- The field, if all its parts are there.  A field is included by default. -/
def Draft.finish (d : Draft) : Except Problem FieldDef := do
  let name ← Json.required "name" d.name
  let type ← Json.required "ty" d.type
  pure { name, type, included := d.included.getD true }

/-- The problem of a field in an array that is too short. -/
def tooShort (length : Nat) : Problem :=
  .data (.wrongLength length "struct FieldDef with 3 elements")

/-- The field that a tree gives.  Containers in its type may lie `levels` deep in
each other. -/
def ofNode (levels : Nat) : Node → Except Problem FieldDef
  | .array items ending => do
    let (name, rest) ← Node.firstItem ending items
    let some name := name | throw (tooShort 0)
    let name ← readName name
    let (type, rest) ← Node.firstItem ending rest
    let some type := type | throw (tooShort 1)
    let type ← TypeDef.ofNode levels type
    let (included, rest) ← Node.firstItem ending rest
    let included ←
      match included with
      | some n => n.readBoolean
      | none => pure true
    Node.lastItem ending rest
    pure { name, type, included }
  | .object members ending => do
    let d ← Node.foldMembers (Draft.add levels) {} members
    ending.read
    d.finish
  | n => .error (n.mismatch "struct FieldDef")

end FieldDef

/-! ## Definitions -/

def PackingDef.ofNode : Node → Except Problem PackingDef :=
  Node.readChoice PackingDef.keywords

def ScalarDef.ofNode : Node → Except Problem ScalarDef :=
  Node.readChoice ScalarDef.keywords

namespace Definition

/-- The parts of a definition as far as they have been read. -/
structure Draft where
  packing : Option PackingDef := none
  fields : Option (List FieldDef) := none

/-- The fields that a tree gives. -/
def readFields (levels : Nat) : Node → Except Problem (List FieldDef) :=
  Node.readArray (FieldDef.ofNode levels)

/-- Takes a part from a member. -/
def Draft.add (levels : Nat) (d : Draft) (key : String) (value : Node) : Except Problem Draft :=
  if key = "mode" then do
    let packing ← Json.readOnce "mode" d.packing (PackingDef.ofNode value)
    pure { d with packing }
  else if key = "fields" then do
    let fields ← Json.readOnce "fields" d.fields (readFields levels value)
    pure { d with fields }
  else do
    value.skip
    pure d

/-- The definition, if all its parts are there. -/
def Draft.finish (d : Draft) : Except Problem Definition := do
  let fields ← Json.required "fields" d.fields
  pure { packing := d.packing.getD default, fields }

/-- The definition that a tree gives.  Containers in the types of its fields may
lie `levels` deep in each other. -/
def ofNode (levels : Nat) : Node → Except Problem Definition
  | .array items ending => do
    let (packing, rest) ← Node.firstItem ending items
    let packing ←
      match packing with
      | some n => PackingDef.ofNode n
      | none => pure default
    let (fields, rest) ← Node.firstItem ending rest
    let some fields := fields |
      throw (.data (.wrongLength 1 "struct SchemaDef with 2 elements"))
    let fields ← readFields levels fields
    Node.lastItem ending rest
    pure { packing, fields }
  | .object members ending => do
    let d ← Node.foldMembers (Draft.add levels) {} members
    ending.read
    d.finish
  | n => .error (n.mismatch "struct SchemaDef")

end Definition

/-! ## Texts

What is read whole inside a type lies below the type itself, the field, the list
of fields and the definition. -/

def PackingDef.parse : String → Except Problem PackingDef :=
  Json.readText PackingDef.ofNode

def ScalarDef.parse : String → Except Problem ScalarDef :=
  Json.readText ScalarDef.ofNode

def TypeDef.parse : String → Except Problem TypeDef :=
  Json.readText (TypeDef.ofNode (Json.maxNesting - 1))

def FieldDef.parse : String → Except Problem FieldDef :=
  Json.readText (FieldDef.ofNode (Json.maxNesting - 2))

def Definition.parse : String → Except Problem Definition :=
  Json.readText (Definition.ofNode (Json.maxNesting - 4))

end FlatRecord
