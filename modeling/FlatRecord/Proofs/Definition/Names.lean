import FlatRecord.Proofs.Definition.Levels
import FlatRecord.Proofs.Definition.Objects
import FlatRecord.Proofs.Definition.Written

/-!
# Named scalars and packings

A scalar or a packing is given by its name, as a string or as an object with the name
as its only key and null as its value.  A scalar is read in two ways: from a text of
its own, and as the underlying scalar of an enumeration type, which is kept whole
before it is looked at.

* `Node.Names` says how a name may be given.
* `ScalarDef.ofNode_eq_ok_iff` and `ScalarDef.ofJson_eq_ok_iff` are the two ways, and
  `ScalarDef.underlying_iff` compares them.  They accept the same values, with one
  exception: a scalar that is kept whole may have an empty object in the place of
  null.
-/

namespace FlatRecord

open Json (Node Problem Spells)

namespace Json

variable {α : Type}

/-- The value gives this name. -/
def Node.Names (name : String) (n : Node) : Prop :=
  n = .string (some name) ∨ n = .object [(.string (some name), .null)] .closed

/-- The value is an object with this name as its only key, and the value under the
name is an empty object. -/
def Node.NamesEmpty (name : String) (n : Node) : Prop :=
  n = .object [(.string (some name), .object [] .closed)] .closed

theorem mem_of_choose_eq_ok {options : List (String × α)} {name : String} {a : α}
    (h : choose options name = .ok a) : (name, a) ∈ options := by
  unfold choose at h
  split at h
  · next hlookup =>
    cases h
    obtain ⟨before, after, rfl, _⟩ := List.lookup_eq_some_iff.mp hlookup
    exact List.mem_append_right _ List.mem_cons_self
  · exact nomatch h

/-- A choice is read from every value that gives its name, and from no other. -/
theorem Node.readChoice_eq_ok_iff {options : List (String × α)} {n : Node} {a : α} :
    n.readChoice options = .ok a ↔ ∃ name, choose options name = .ok a ∧ n.Names name := by
  constructor
  · intro h
    unfold readChoice at h
    split at h
    · next name => exact ⟨name, h, .inl rfl⟩
    · next key value more ending =>
      simp only [bind_eq_ok_iff, readKey_eq_ok_iff] at h
      obtain ⟨name, rfl, _, hname, ⟨⟩, hvalue, hend⟩ := h
      rw [readUnit_eq_ok_iff] at hvalue
      split at hend
      · next hmore =>
        obtain ⟨⟨⟩, hending, ⟨⟩⟩ := bind_eq_ok_iff.mp hend
        rw [List.isEmpty_iff] at hmore
        rw [Ending.read_eq_ok_iff] at hending
        exact ⟨name, hname, .inr (by rw [hmore, hending, hvalue])⟩
      · exact nomatch hend
    · exact nomatch h
  · rintro ⟨name, hname, rfl | rfl⟩
    · exact hname
    · simp [readChoice, hname, readUnit]

end Json

namespace ScalarDef

theorem choose_eq_ok_iff {name : String} {s : ScalarDef} :
    Json.choose keywords name = .ok s ↔ name = s.keyword := by
  constructor
  · intro h
    obtain ⟨s', _, hs'⟩ := List.mem_map.mp (Json.mem_of_choose_eq_ok h)
    cases hs'
    rfl
  · rintro rfl
    exact s.choose_keyword

theorem ofNode_eq_ok_iff {n : Node} {s : ScalarDef} : ofNode n = .ok s ↔ n.Names s.keyword := by
  simp [ofNode, Node.readChoice_eq_ok_iff, choose_eq_ok_iff]

theorem ofJson_eq_ok_iff {v : Json} {s : ScalarDef} :
    ofJson v = .ok s ↔ v.toNode.Names s.keyword ∨ v.toNode.NamesEmpty s.keyword := by
  unfold Node.Names Node.NamesEmpty
  cases v with
  | string name => simp [ofJson, choose_eq_ok_iff, Json.toNode]
  | object members =>
    rcases members with _ | ⟨⟨key, value⟩, _ | ⟨m, more⟩⟩
    · simp [ofJson, Json.toNode, Json.memberNodes]
    · -- An empty object passes for null.
      have hread (unit : Json) (hunit : unit = .null ∨ unit = .object []) :
          ofJson (.object [(key, unit)]) = .ok s ↔ key = s.keyword := by
        rcases hunit with rfl | rfl <;>
          simp [ofJson, Json.bind_eq_ok_iff, choose_eq_ok_iff]
      cases value with
      | null => simp [hread, Json.toNode, Json.memberNodes]
      | object inner =>
        cases inner with
        | nil => simp [hread, Json.toNode, Json.memberNodes]
        | cons m inner => simp [ofJson, Json.bind_eq_ok_iff, Json.toNode, Json.memberNodes]
      | _ => simp [ofJson, Json.bind_eq_ok_iff, Json.toNode, Json.memberNodes]
    · simp [ofJson, Json.toNode, Json.memberNodes]
  | _ => simp [ofJson, Json.toNode]

end ScalarDef

/-! ## Underlying scalars -/

namespace TypeDef

/-- The tree of an enumeration type with this name and this value for its underlying
scalar. -/
def enumerationNode (name : String) (underlying : Node) : Node :=
  .ofMembers [("type", .string (some "Enum")), ("name", .string (some name)),
    ("underlying", underlying)]

/-- The value is kept whole and then looked at. -/
theorem ofNode_enumerationNode {levels : Nat} {n : Node} {name : String} {s : ScalarDef} :
    ofNode levels (enumerationNode name n) = .ok (.enumeration name s) ↔
      ∃ v, n.toJson levels = .ok v ∧ ScalarDef.ofJson v = .ok s := by
  have htag : readTag (.string (some "Enum")) = .ok .enumeration := rfl
  cases hn : n.toJson levels with
  | error p =>
    simp [ofNode, enumerationNode, Node.ofMembers, Node.ofMember, addMember, htag, hn]
  | ok v =>
    cases hv : ScalarDef.ofJson v <;>
      simp [ofNode, enumerationNode, Node.ofMembers, Node.ofMember, addMember, htag, hn,
        ofMembers, Draft.addToEnumeration, Json.readOnce, Except.map, hv]

end TypeDef

namespace ScalarDef

theorem exists_toNode_of_names {n : Node} {name : String} (h : n.Names name ∨ n.NamesEmpty name) :
    ∃ v : Json, n = v.toNode ∧ ∀ levels, n.NestsWithin (levels + 2) := by
  rcases h with (rfl | rfl) | rfl
  · exact ⟨.string name, rfl, fun _ => trivial⟩
  · exact ⟨.object [(name, .null)], rfl, fun _ => by simp [Node.NestsWithin]⟩
  · exact ⟨.object [(name, .object [])], rfl, fun _ => by simp [Node.NestsWithin]⟩

theorem ofNode_enumerationNode_iff {levels : Nat} {n : Node} {name : String} {s : ScalarDef} :
    TypeDef.ofNode (levels + 2) (TypeDef.enumerationNode name n) = .ok (.enumeration name s) ↔
      n.Names s.keyword ∨ n.NamesEmpty s.keyword := by
  simp only [TypeDef.ofNode_enumerationNode, Node.toJson_eq_ok_iff, ofJson_eq_ok_iff]
  constructor
  · rintro ⟨v, ⟨rfl, _⟩, h⟩
    exact h
  · intro h
    obtain ⟨v, rfl, hnests⟩ := exists_toNode_of_names h
    exact ⟨v, ⟨rfl, hnests levels⟩, h⟩

/-- A value that is accepted as a scalar is accepted as the underlying scalar of an
enumeration, and is the same scalar there.  In the other direction there is one
exception: with an empty object in the place of null, a scalar is accepted only
there. -/
theorem underlying_iff {n : Node} {value text : List Char} {name : String}
    (hvalue : Spells n value) (htext : Spells (TypeDef.enumerationNode name n) text)
    (s : ScalarDef) :
    (TypeDef.parse (String.ofList text) = .ok (.enumeration name s) ↔
      ScalarDef.parse (String.ofList value) = .ok s ∨ n.NamesEmpty s.keyword) ∧
    (n.NamesEmpty s.keyword → ∀ s', ScalarDef.parse (String.ofList value) ≠ .ok s') := by
  have hparse (s : ScalarDef) :
      ScalarDef.parse (String.ofList value) = .ok s ↔ n.Names s.keyword := by
    rw [ScalarDef.parse, hvalue.whole.readText_eq, ofNode_eq_ok_iff]
  have hunderlying : TypeDef.parse (String.ofList text) = .ok (.enumeration name s) ↔
      n.Names s.keyword ∨ n.NamesEmpty s.keyword := by
    rw [TypeDef.parse, htext.whole.readText_eq]
    exact @ofNode_enumerationNode_iff 124 n name s
  constructor
  · rw [hunderlying, hparse]
  · rintro rfl s' h
    simpa [Node.Names] using (hparse s').mp h

/-- The text `{"Int8":{}}`. -/
def emptyInt8 : Json :=
  .object [("Int8", .object [])]

/-- The text `{"type":"Enum","name":"Level","underlying":{"Int8":{}}}`. -/
def levelType : Json :=
  .object [("type", .string "Enum"), ("name", .string "Level"), ("underlying", emptyInt8)]

theorem rendered_emptyInt8 : emptyInt8.Rendered := by
  have hempty : Json.Rendered (.object []) := Json.rendered_object (by simp)
  exact Json.rendered_object (by simp [hempty])

theorem spells_levelType :
    Spells (TypeDef.enumerationNode "Level" emptyInt8.toNode) levelType.render := by
  have h : levelType.Rendered :=
    Json.rendered_object (by simp [Json.rendered_string, rendered_emptyInt8])
  exact h

theorem underlying_iff_emptyInt8 :
    Spells emptyInt8.toNode emptyInt8.render ∧
    Spells (TypeDef.enumerationNode "Level" emptyInt8.toNode) levelType.render ∧
    TypeDef.parse (String.ofList levelType.render) = .ok (.enumeration "Level" .int8) ∧
    ∀ s, ScalarDef.parse (String.ofList emptyInt8.render) ≠ .ok s := by
  have h := underlying_iff rendered_emptyInt8 spells_levelType .int8
  exact ⟨rendered_emptyInt8, spells_levelType, h.1.mpr (.inr rfl), h.2 rfl⟩

/-- The two ways differ for `{"Int8":{}}`. -/
theorem not_underlying_iff_parse :
    ¬ (ScalarDef.parse "\x7b\"Int8\":\x7b\x7d\x7d" = .ok .int8 ↔
      TypeDef.parse
        "\x7b\"type\":\"Enum\",\"name\":\"Level\",\"underlying\":\x7b\"Int8\":\x7b\x7d\x7d\x7d" =
        .ok (.enumeration "Level" .int8)) := by
  have hscalar : ScalarDef.parse (String.ofList emptyInt8.render) =
      .error (.data (.wrongKind .map "unit")) :=
    rendered_emptyInt8.readText_eq _
  have htype : TypeDef.parse (String.ofList levelType.render) = .ok (.enumeration "Level" .int8) :=
    spells_levelType.whole.readText_eq _
  intro h
  exact nomatch hscalar.symm.trans (h.mpr htype)

end ScalarDef

end FlatRecord
