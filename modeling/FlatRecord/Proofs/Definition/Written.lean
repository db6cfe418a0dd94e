import FlatRecord.Definition.Reader
import FlatRecord.Proofs.Json.Readers
import FlatRecord.Proofs.Json.Rendering
import Mathlib.Data.List.Basic

/-!
# Written definitions

A definition that is written as JSON and read again is the same definition,
whatever names it holds.  So are its parts, and nothing is lost when a schema is
kept in a file.  Every packing with every list of fields can be kept so.

* `choose_keyword` says that a name stands for what it was written for.
* `ofNode_toJson` is the round trip for trees, one lemma for each kind of part.  A
  part is read in the same way however deep the text may be below it.
* `Definition.ofDescriptors` is the inverse of `Definition.descriptors`, and again there
  is one for each kind of part.
* `Lossless` is the round trip for texts, and what follows from it.
-/

namespace FlatRecord

open Json (Node Problem Rendered)

/-! ## What is written is rendered -/

theorem PackingDef.rendered_toJson (p : PackingDef) : p.toJson.Rendered :=
  Json.rendered_string _

theorem ScalarDef.rendered_toJson (s : ScalarDef) : s.toJson.Rendered :=
  Json.rendered_string _

theorem TypeDef.rendered_toJson (t : TypeDef) : t.toJson.Rendered := by
  obtain ⟨texts, htexts⟩ := t.exists_toJson_eq
  rw [htexts]
  exact Json.rendered_object (List.forall_mem_map.mpr fun m _ => Json.rendered_string m.2)

theorem FieldDef.rendered_toJson (f : FieldDef) : f.toJson.Rendered := by
  refine Json.rendered_object ?_
  simp [Json.rendered_string, Json.rendered_boolean, TypeDef.rendered_toJson]

theorem Definition.rendered_toJson (d : Definition) : d.toJson.Rendered := by
  refine Json.rendered_object ?_
  have hfields : Rendered (.array (d.fields.map FieldDef.toJson)) :=
    Json.rendered_array (List.forall_mem_map.mpr fun f _ => f.rendered_toJson)
  simp [PackingDef.rendered_toJson, hfields]

/-! ## Names -/

theorem PackingDef.choose_keyword (p : PackingDef) : Json.choose keywords p.keyword = .ok p := by
  cases p <;> rfl

theorem ScalarDef.choose_keyword (s : ScalarDef) : Json.choose keywords s.keyword = .ok s := by
  cases s <;> rfl

/-- A type that is a scalar is called as the scalar is. -/
theorem TypeTag.choose_keyword (s : ScalarDef) :
    Json.choose keywords s.keyword = .ok (.scalar s) := by
  cases s <;> rfl

/-! ## Trees -/

theorem PackingDef.ofNode_toJson (p : PackingDef) : ofNode p.toJson.toNode = .ok p :=
  p.choose_keyword

theorem ScalarDef.ofNode_toJson (s : ScalarDef) : ofNode s.toJson.toNode = .ok s :=
  s.choose_keyword

theorem TypeDef.ofNode_toJson (levels : Nat) (t : TypeDef) :
    ofNode levels t.toJson.toNode = .ok t := by
  have htag (name : String) (tag : TypeTag) (h : Json.choose TypeTag.keywords name = .ok tag) :
      readTag (.string (some name)) = .ok tag := h
  cases t with
  | scalar s =>
    simp [toJson_scalar, Json.toNode, Json.memberNodes, ofNode, addMember,
      htag _ _ (TypeTag.choose_keyword s), ofMembers]
  | enumeration name underlying =>
    have hunderlying : ScalarDef.ofJson (.string underlying.keyword) = .ok underlying :=
      underlying.choose_keyword
    simp [toJson_enumeration, Json.toNode, Json.memberNodes, ofNode, addMember,
      htag "Enum" .enumeration rfl, ofMembers, Draft.addToEnumeration, hunderlying]
  | unsupported name =>
    simp [toJson_unsupported, Json.toNode, Json.memberNodes, ofNode, addMember,
      htag "Unsupported" .unsupported rfl, ofMembers, Draft.addToUnsupported]

theorem FieldDef.ofNode_toJson (levels : Nat) (f : FieldDef) :
    ofNode levels f.toJson.toNode = .ok f := by
  simp [toJson, Json.toNode, Json.memberNodes, ofNode, Draft.add, readName,
    TypeDef.ofNode_toJson, Draft.finish]

theorem Definition.ofNode_toJson (levels : Nat) (d : Definition) :
    ofNode levels d.toJson.toNode = .ok d := by
  have hfields : readFields levels (.array (d.fields.map (Json.toNode ∘ FieldDef.toJson)) .closed) =
      .ok d.fields :=
    Node.readArray_map fun f _ => f.ofNode_toJson levels
  simp [toJson, Json.toNode, Json.memberNodes, Json.itemNodes_eq_map, ofNode, Draft.add,
    PackingDef.ofNode_toJson, hfields, Draft.finish]

/-! ## What definitions stand for -/

namespace PackingDef

/-- The packing of a definition that stands for a packing. -/
def ofPacking : Packing → PackingDef
  | .loose => noCompaction
  | .dense => compactBools

theorem ofPacking_toPacking (p : PackingDef) : ofPacking p.toPacking = p := by
  cases p <;> rfl

theorem toPacking_ofPacking (p : Packing) : (ofPacking p).toPacking = p := by
  cases p <;> rfl

end PackingDef

namespace ScalarDef

/-- The scalar of a definition that stands for a scalar. -/
def ofScalar : Scalar → ScalarDef
  | .bool => bool
  | .i8 => int8
  | .u8 => uint8
  | .i16 => int16
  | .u16 => uint16
  | .i32 => int32
  | .u32 => uint32
  | .i64 => int64
  | .u64 => uint64
  | .f32 => float32
  | .f64 => float64
  | .char16 => char16

theorem ofScalar_toScalar (s : ScalarDef) : ofScalar s.toScalar = s := by
  cases s <;> rfl

theorem toScalar_ofScalar (s : Scalar) : (ofScalar s).toScalar = s := by
  cases s <;> rfl

end ScalarDef

namespace TypeDef

/-- The type of a definition that stands for a type. -/
def ofFieldType : FieldType → TypeDef
  | .scalar s => scalar (.ofScalar s)
  | .enumeration name underlying => enumeration name (.ofScalar underlying)
  | .unsupported name => unsupported name

theorem ofFieldType_toFieldType (t : TypeDef) : ofFieldType t.toFieldType = t := by
  cases t with
  | scalar s => rw [toFieldType_scalar, ofFieldType, ScalarDef.ofScalar_toScalar]
  | enumeration name underlying =>
    rw [toFieldType, ofFieldType, ScalarDef.ofScalar_toScalar]
  | unsupported name => rfl

theorem toFieldType_ofFieldType (t : FieldType) : (ofFieldType t).toFieldType = t := by
  cases t with
  | scalar s => rw [ofFieldType, toFieldType_scalar, ScalarDef.toScalar_ofScalar]
  | enumeration name underlying =>
    rw [ofFieldType, toFieldType, ScalarDef.toScalar_ofScalar]
  | unsupported name => rfl

end TypeDef

namespace FieldDef

/-- The field of a definition that stands for a field. -/
def ofField (f : Field) : FieldDef where
  name := f.name
  type := .ofFieldType f.type
  included := f.included

theorem ofField_toField (f : FieldDef) : ofField f.toField = f := by
  rw [ofField, toField, TypeDef.ofFieldType_toFieldType]

theorem toField_ofField (f : Field) : (ofField f).toField = f := by
  rw [ofField, toField, TypeDef.toFieldType_ofFieldType]

end FieldDef

namespace Definition

/-- The definition that stands for a packing and a list of fields. -/
def ofDescriptors (x : Packing × List Field) : Definition where
  packing := .ofPacking x.1
  fields := x.2.map .ofField

theorem ofDescriptors_descriptors (d : Definition) : ofDescriptors d.descriptors = d := by
  have hfields : (d.fields.map FieldDef.toField).map FieldDef.ofField = d.fields :=
    Function.LeftInverse.list_map FieldDef.ofField_toField d.fields
  rw [descriptors, ofDescriptors, PackingDef.ofPacking_toPacking, hfields]

theorem descriptors_ofDescriptors (x : Packing × List Field) :
    (ofDescriptors x).descriptors = x := by
  have hfields : (x.2.map FieldDef.ofField).map FieldDef.toField = x.2 :=
    Function.LeftInverse.list_map FieldDef.toField_ofField x.2
  rw [ofDescriptors, descriptors, PackingDef.toPacking_ofPacking, hfields]

/-- Every packing with every list of fields is what one definition stands for, and no
two definitions stand for the same. -/
theorem descriptors_bijective : Function.Bijective descriptors :=
  Function.bijective_iff_has_inverse.mpr
    ⟨ofDescriptors, ofDescriptors_descriptors, descriptors_ofDescriptors⟩

end Definition

/-! ## Texts -/

/-- Writing as JSON loses nothing: `parse` gives every value back, and different
values have different texts. -/
structure Lossless {α : Type} (toJson : α → Json) (parse : String → Except Problem α) : Prop where
  parse_render (a : α) : parse (String.ofList (toJson a).render) = .ok a
  render_injective : Function.Injective fun a => (toJson a).render

theorem Lossless.of_readText {α : Type} {toJson : α → Json} {read : Node → Except Problem α}
    (hrendered : ∀ a, (toJson a).Rendered) (hread : ∀ a, read (toJson a).toNode = .ok a) :
    Lossless toJson (Json.readText read) := by
  have hparse (a : α) : Json.readText read (String.ofList (toJson a).render) = .ok a := by
    rw [(hrendered a).readText_eq, hread]
  refine ⟨hparse, fun a b hab => ?_⟩
  have hab : (toJson a).render = (toJson b).render := hab
  have hok : (Except.ok a : Except Problem α) = .ok b := by rw [← hparse a, hab, hparse b]
  exact Except.ok.inj hok

/-- Neither a definition nor any part of it is changed by writing and reading it, and
definitions stand for packings with lists of fields, one for one.  So every layout, and
every reason why there is none, can be had from a text. -/
theorem Definition.lossless_and_complete :
    Lossless Definition.toJson Definition.parse ∧ Lossless FieldDef.toJson FieldDef.parse ∧
    Lossless TypeDef.toJson TypeDef.parse ∧ Lossless ScalarDef.toJson ScalarDef.parse ∧
    Lossless PackingDef.toJson PackingDef.parse ∧
    Function.Bijective Definition.descriptors ∧
    ∀ packing fields, ∃ text, (Definition.parse text).map Schema.ofDefinition =
      .ok (Schema.ofFields fields packing) := by
  have hdefinition : Lossless Definition.toJson Definition.parse :=
    .of_readText Definition.rendered_toJson (Definition.ofNode_toJson _)
  refine ⟨hdefinition, .of_readText FieldDef.rendered_toJson (FieldDef.ofNode_toJson _),
    .of_readText TypeDef.rendered_toJson (TypeDef.ofNode_toJson _),
    .of_readText ScalarDef.rendered_toJson ScalarDef.ofNode_toJson,
    .of_readText PackingDef.rendered_toJson PackingDef.ofNode_toJson,
    Definition.descriptors_bijective, ?_⟩
  intro packing fields
  let d := Definition.ofDescriptors (packing, fields)
  have hd : d.descriptors = (packing, fields) := Definition.descriptors_ofDescriptors _
  refine ⟨String.ofList d.toJson.render, ?_⟩
  rw [hdefinition.parse_render]
  show Except.ok (Schema.ofDefinition d) = _
  rw [Schema.ofDefinition, hd]

end FlatRecord
