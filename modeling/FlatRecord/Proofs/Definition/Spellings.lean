import FlatRecord.Proofs.Definition.Tagged
import Mathlib.Data.List.Permutation

/-!
# Spellings of definitions

A definition, its fields and their types may be objects or arrays, and its packing and
scalars may be bare names or objects.  Every mixture is read as the same definition.

* `Laid` is the choice between an object and an array.  `Definition.Spelling` makes that
  choice anew at each part, and `Node.Names` makes the one for names.
* `ofNode_of_spelling` is the reading of a spelling, one lemma for each kind of part.
* `Acceptable` says of an array that no item is at fault.  Its length is then:
  `ofNode_short` and `ofNode_long` have one case for each part that it may lack.  The
  items of a type are kept before they are counted, those of a field and a definition
  are not.
* `ArrayForm` is all of that for texts.
-/

namespace FlatRecord

open Json (Node Problem Spells)

/-- A record with these parts, as an object with the parts as members in any order or as
an array of the parts in order. -/
inductive Laid (parts : List (String × Node)) : Node → Prop where
  | object {members : List (String × Node)} (h : members.Perm parts) :
      Laid parts (.ofMembers members)
  | array : Laid parts (.array (parts.map Prod.snd) .closed)

/-- The ways to give a type. -/
inductive TypeDef.Spelling : TypeDef → Node → Prop where
  | scalar {s : ScalarDef} {n : Node} (h : Laid [("type", .string (some s.keyword))] n) :
      Spelling (.scalar s) n
  | enumeration {name : String} {s : ScalarDef} {u n : Node} (hu : u.Names s.keyword)
      (h : Laid [("type", .string (some "Enum")), ("name", .string (some name)),
        ("underlying", u)] n) :
      Spelling (.enumeration name s) n
  | unsupported {name : String} {n : Node}
      (h : Laid [("type", .string (some "Unsupported")), ("name", .string (some name))] n) :
      Spelling (.unsupported name) n

/-- The ways to give a field.  That it is included need not be said. -/
inductive FieldDef.Spelling : FieldDef → Node → Prop where
  | full {name : String} {type : TypeDef} {included : Bool} {t n : Node} (ht : type.Spelling t)
      (h : Laid [("name", .string (some name)), ("ty", t), ("include", .boolean included)] n) :
      Spelling ⟨name, type, included⟩ n
  | short {name : String} {type : TypeDef} {t n : Node} (ht : type.Spelling t)
      (h : Laid [("name", .string (some name)), ("ty", t)] n) :
      Spelling ⟨name, type, true⟩ n

/-- The ways to give a definition.  In an object, the packing need not be given if there
is no compaction. -/
inductive Definition.Spelling : Definition → Node → Prop where
  | full {packing : PackingDef} {fields : List FieldDef} {p n : Node} {fs : List Node}
      (hp : p.Names packing.keyword) (hfields : List.Forall₂ FieldDef.Spelling fields fs)
      (h : Laid [("mode", p), ("fields", .array fs .closed)] n) :
      Spelling ⟨packing, fields⟩ n
  | short {fields : List FieldDef} {fs : List Node}
      (hfields : List.Forall₂ FieldDef.Spelling fields fs) :
      Spelling ⟨.noCompaction, fields⟩ (.ofMembers [("fields", .array fs .closed)])

/-! ## What is read -/

section Perm

variable {α : Type} {a b c : α} {xs : List α}

theorem eq_of_perm_two (h : xs.Perm [a, b]) : xs = [a, b] ∨ xs = [b, a] := by
  simpa [List.permutations', List.permutations'Aux] using List.mem_permutations'.mpr h

theorem eq_of_perm_three (h : xs.Perm [a, b, c]) :
    xs = [a, b, c] ∨ xs = [b, a, c] ∨ xs = [b, c, a] ∨
      xs = [a, c, b] ∨ xs = [c, a, b] ∨ xs = [c, b, a] := by
  simpa [List.permutations', List.permutations'Aux, or_assoc] using List.mem_permutations'.mpr h

end Perm

namespace TypeDef

theorem exists_toJson_of_names {levels : Nat} {n : Node} {s : ScalarDef} (h : n.Names s.keyword) :
    ∃ v, n.toJson (levels + 2) = .ok v ∧ ScalarDef.ofJson v = .ok s := by
  obtain ⟨v, rfl, hnests⟩ := ScalarDef.exists_toNode_of_names (.inl h)
  exact ⟨v, Node.toJson_eq_ok_iff.mpr ⟨rfl, hnests levels⟩, ScalarDef.ofJson_eq_ok_iff.mpr (.inl h)⟩

theorem ofNode_of_spelling {levels : Nat} {t : TypeDef} {n : Node} (h : t.Spelling n) :
    ofNode (levels + 2) n = .ok t := by
  have htag (name : String) (tag : TypeTag) (h : Json.choose TypeTag.keywords name = .ok tag) :
      readTag (.string (some name)) = .ok tag := h
  cases h with
  | @scalar s n h =>
    have htag := htag _ _ (TypeTag.choose_keyword s)
    cases h with
    | object hperm =>
      obtain rfl := List.perm_singleton.mp hperm
      simp [Node.ofMembers, Node.ofMember, ofNode, addMember, htag, ofMembers]
    | array =>
      simp [ofNode, htag, ofItems, Json.noMoreItems]
  | @enumeration name s u n hu h =>
    have htag := htag "Enum" .enumeration rfl
    obtain ⟨v, hv, hs⟩ : ∃ v, u.toJson (levels + 2) = .ok v ∧ ScalarDef.ofJson v = .ok s :=
      exists_toJson_of_names hu
    cases h with
    | object hperm =>
      rcases eq_of_perm_three hperm with rfl | rfl | rfl | rfl | rfl | rfl <;>
        simp [Node.ofMembers, Node.ofMember, ofNode, addMember, htag, hv, ofMembers,
          Draft.addToEnumeration, hs]
    | array =>
      simp [ofNode, htag, hv, ofItems, hs, Json.noMoreItems]
  | @unsupported name n h =>
    have htag := htag "Unsupported" .unsupported rfl
    cases h with
    | object hperm =>
      rcases eq_of_perm_two hperm with rfl | rfl <;>
        simp [Node.ofMembers, Node.ofMember, ofNode, addMember, htag, ofMembers,
          Draft.addToUnsupported]
    | array =>
      simp [ofNode, htag, ofItems, Json.noMoreItems]

end TypeDef

theorem FieldDef.ofNode_of_spelling {levels : Nat} {f : FieldDef} {n : Node} (h : f.Spelling n) :
    ofNode (levels + 2) n = .ok f := by
  cases h with
  | @full name type included t n ht h =>
    have htype : TypeDef.ofNode (levels + 2) t = .ok type := TypeDef.ofNode_of_spelling ht
    cases h with
    | object hperm =>
      rcases eq_of_perm_three hperm with rfl | rfl | rfl | rfl | rfl | rfl <;>
        simp [Node.ofMembers, Node.ofMember, ofNode, Draft.add, readName, htype, Draft.finish]
    | array =>
      simp [ofNode, readName, htype]
  | @short name type t n ht h =>
    have htype : TypeDef.ofNode (levels + 2) t = .ok type := TypeDef.ofNode_of_spelling ht
    cases h with
    | object hperm =>
      rcases eq_of_perm_two hperm with rfl | rfl <;>
        simp [Node.ofMembers, Node.ofMember, ofNode, Draft.add, readName, htype, Draft.finish]
    | array =>
      simp [ofNode, readName, htype]

namespace Definition

theorem readFields_of_spelling {levels : Nat} {fields : List FieldDef} {ns : List Node}
    (h : List.Forall₂ FieldDef.Spelling fields ns) :
    readFields (levels + 2) (.array ns .closed) = .ok fields := by
  have hitems : ns.mapM (FieldDef.ofNode (levels + 2)) = .ok fields :=
    Node.mapM_eq_ok_iff.mpr (h.flip.imp fun _ _ hf => FieldDef.ofNode_of_spelling hf)
  rw [readFields, Node.readArray, hitems]
  rfl

theorem packing_of_names {n : Node} {p : PackingDef} (h : n.Names p.keyword) :
    PackingDef.ofNode n = .ok p :=
  Node.readChoice_eq_ok_iff.mpr ⟨p.keyword, p.choose_keyword, h⟩

theorem ofNode_of_spelling {levels : Nat} {d : Definition} {n : Node} (h : d.Spelling n) :
    ofNode (levels + 2) n = .ok d := by
  cases h with
  | @full packing fields p n fs hp hfields h =>
    have hpacking : PackingDef.ofNode p = .ok packing := packing_of_names hp
    have hfields : readFields (levels + 2) (.array fs .closed) = .ok fields :=
      readFields_of_spelling hfields
    cases h with
    | object hperm =>
      rcases eq_of_perm_two hperm with rfl | rfl <;>
        simp [Node.ofMembers, Node.ofMember, ofNode, Draft.add, hpacking, hfields, Draft.finish]
    | array =>
      simp [ofNode, hpacking, hfields]
  | @short fields fs hfields =>
    have hfields : readFields (levels + 2) (.array fs .closed) = .ok fields :=
      readFields_of_spelling hfields
    simp [Node.ofMembers, Node.ofMember, ofNode, Draft.add, hfields, Draft.finish]
    rfl

end Definition

/-! ## Arrays of the wrong length -/

/-- Each item is accepted in its place.  Items after the last place are not looked at. -/
def Acceptable (places : List (Node → Prop)) (items : List Node) : Prop :=
  ∀ x ∈ items.zip places, x.2 x.1

namespace Definition

/-- What is accepted in the places of an array. -/
def places : List (Node → Prop) :=
  [fun n => ∃ p, PackingDef.ofNode n = .ok p,
    fun n => ∃ fields, readFields (Json.maxNesting - 4) n = .ok fields]

theorem ofNode_short {items : List Node} (h : Acceptable places items)
    (hlength : items.length < 2) :
    ofNode (Json.maxNesting - 4) (.array items .closed) =
      .error (.data (.wrongLength 1 "struct SchemaDef with 2 elements")) := by
  match items, hlength with
  | [], _ => rfl
  | [n], _ =>
    obtain ⟨p, hp⟩ : ∃ p, PackingDef.ofNode n = .ok p := h _ List.mem_cons_self
    simp [ofNode, hp]

theorem ofNode_long {items : List Node} (h : Acceptable places items) (hlength : 2 < items.length) :
    ofNode (Json.maxNesting - 4) (.array items .closed) = .error (.fault .malformed) := by
  match items, hlength with
  | n :: fs :: more :: rest, _ =>
    obtain ⟨p, hp⟩ : ∃ p, PackingDef.ofNode n = .ok p := h _ List.mem_cons_self
    obtain ⟨fields, hfields⟩ : ∃ fields, readFields (Json.maxNesting - 4) fs = .ok fields :=
      h _ (List.mem_cons_of_mem _ List.mem_cons_self)
    simp [ofNode, hp, hfields]

end Definition

namespace FieldDef

/-- What is accepted in the places of an array. -/
def places : List (Node → Prop) :=
  [fun n => ∃ name, readName n = .ok name,
    fun n => ∃ t, TypeDef.ofNode (Json.maxNesting - 2) n = .ok t,
    fun n => ∃ b, n.readBoolean = .ok b]

theorem ofNode_short {items : List Node} (h : Acceptable places items)
    (hlength : items.length < 2) :
    ofNode (Json.maxNesting - 2) (.array items .closed) =
      .error (.data (.wrongLength items.length "struct FieldDef with 3 elements")) := by
  match items, hlength with
  | [], _ => rfl
  | [n], _ =>
    obtain ⟨name, hname⟩ : ∃ name, readName n = .ok name := h _ List.mem_cons_self
    simp [ofNode, hname, tooShort]

theorem ofNode_long {items : List Node} (h : Acceptable places items) (hlength : 3 < items.length) :
    ofNode (Json.maxNesting - 2) (.array items .closed) = .error (.fault .malformed) := by
  match items, hlength with
  | n :: t :: b :: more :: rest, _ =>
    obtain ⟨name, hname⟩ : ∃ name, readName n = .ok name := h _ List.mem_cons_self
    obtain ⟨type, htype⟩ : ∃ type, TypeDef.ofNode (Json.maxNesting - 2) t = .ok type :=
      h _ (List.mem_cons_of_mem _ List.mem_cons_self)
    obtain ⟨included, hincluded⟩ : ∃ included, b.readBoolean = .ok included :=
      h _ (List.mem_cons_of_mem _ (List.mem_cons_of_mem _ List.mem_cons_self))
    simp [ofNode, hname, htype, hincluded]

end FieldDef

namespace TypeTag

/-- What is accepted in the places of an array after the kind. -/
def places : TypeTag → List (Node → Prop)
  | scalar _ => []
  | enumeration =>
    [fun n => ∃ name, keptName (Json.maxNesting - 1) n = .ok name,
      fun n => ∃ s, keptScalar (Json.maxNesting - 1) n = .ok s]
  | unsupported => [fun n => ∃ name, keptName (Json.maxNesting - 1) n = .ok name]

/-- What is expected where an array is too short. -/
def expectedParts : TypeTag → String
  | scalar _ => ""
  | enumeration => "struct variant TypeDef::Enum with 2 elements"
  | unsupported => "struct variant TypeDef::Unsupported with 1 element"

/-- What is expected where an array is too long. -/
def expectedLength : TypeTag → String
  | scalar _ => "0 elements in sequence"
  | enumeration => "2 elements in sequence"
  | unsupported => "1 element in sequence"

end TypeTag

namespace TypeDef

variable {levels : Nat} {tag : TypeTag} {n : Node} {items : List Node} {values : List Json}

/-- The items of an array after the kind are kept whole and then looked at. -/
theorem ofNode_array (htag : readTag n = .ok tag)
    (hkept : List.Forall₂ (fun n v => n.toJson levels = .ok v) items values) :
    ofNode levels (.array (n :: items) .closed) = ofItems values tag := by
  simp [ofNode, htag, Node.mapM_eq_ok_iff.mpr hkept]

theorem exists_kept (h : ∀ n ∈ items, ∃ v, n.toJson levels = .ok v) :
    ∃ values, List.Forall₂ (fun n v => n.toJson levels = .ok v) items values := by
  induction items with
  | nil => exact ⟨[], .nil⟩
  | cons n items ih =>
    obtain ⟨⟨v, hv⟩, hitems⟩ := List.forall_mem_cons.mp h
    obtain ⟨values, hvalues⟩ := ih hitems
    exact ⟨v :: values, .cons hv hvalues⟩

theorem readString_of_keptName {v : Json} {name : String} (hv : n.toJson levels = .ok v)
    (h : keptName levels n = .ok name) : v.readString = .ok name := by
  rwa [keptName, hv, Json.ok_bind] at h

theorem ofJson_of_keptScalar {v : Json} {s : ScalarDef} (hv : n.toJson levels = .ok v)
    (h : keptScalar levels n = .ok s) : ScalarDef.ofJson v = .ok s := by
  rwa [keptScalar, hv, Json.ok_bind] at h

theorem ofItems_short
    (hkept : List.Forall₂ (fun n v => n.toJson (Json.maxNesting - 1) = .ok v) items values)
    (h : Acceptable tag.places items) (hlength : items.length < tag.places.length) :
    ofItems values tag = .error (.data (.wrongLength items.length tag.expectedParts)) := by
  cases tag with
  | scalar s => exact absurd hlength (Nat.not_lt_zero _)
  | enumeration =>
    cases hkept with
    | nil => rfl
    | cons hv hkept =>
      cases hkept with
      | nil =>
        obtain ⟨name, hname⟩ := h _ List.mem_cons_self
        rw [ofItems, readString_of_keptName hv hname]
        rfl
      | cons _ _ => exact absurd hlength (by simp [TypeTag.places])
  | unsupported =>
    cases hkept with
    | nil => rfl
    | cons _ _ => exact absurd hlength (by simp [TypeTag.places])

theorem noMoreItems_of_pos {count : Nat} {expected : String} (h : 0 < values.length) :
    Json.noMoreItems count expected values =
      .error (.data (.wrongLength (values.length + count) expected)) := by
  cases values with
  | nil => exact absurd h (Nat.lt_irrefl 0)
  | cons v values =>
    rw [Json.noMoreItems, Nat.add_comm]
    rfl

theorem ofItems_long
    (hkept : List.Forall₂ (fun n v => n.toJson (Json.maxNesting - 1) = .ok v) items values)
    (h : Acceptable tag.places items) (hlength : tag.places.length < items.length) :
    ofItems values tag = .error (.data (.wrongLength items.length tag.expectedLength)) := by
  rw [hkept.length_eq] at hlength ⊢
  cases tag with
  | scalar s => rw [ofItems, noMoreItems_of_pos hlength]; rfl
  | enumeration =>
    cases hkept with
    | nil => exact absurd hlength (by simp [TypeTag.places])
    | cons hname hkept =>
      cases hkept with
      | nil => exact absurd hlength (by simp [TypeTag.places])
      | @cons _ _ _ rest hunderlying _ =>
        obtain ⟨name, hread⟩ := h _ List.mem_cons_self
        obtain ⟨s, hs⟩ := h _ (List.mem_cons_of_mem _ List.mem_cons_self)
        have hrest : 0 < rest.length := by simpa [TypeTag.places] using hlength
        simp [ofItems, readString_of_keptName hname hread, ofJson_of_keptScalar hunderlying hs,
          noMoreItems_of_pos hrest, TypeTag.expectedLength]
  | unsupported =>
    cases hkept with
    | nil => exact absurd hlength (Nat.not_lt_zero _)
    | @cons _ _ _ rest hname _ =>
      obtain ⟨name, hread⟩ := h _ List.mem_cons_self
      have hrest : 0 < rest.length := by simpa [TypeTag.places] using hlength
      simp [ofItems, readString_of_keptName hname hread, noMoreItems_of_pos hrest,
        TypeTag.expectedLength]

end TypeDef

/-! ## Texts -/

/-- What the parsers make of the spellings of definitions and of arrays. -/
structure ArrayForm : Prop where
  /-- All spellings of a definition are read as the definition. -/
  same {d : Definition} {n : Node} {text : List Char} (h : d.Spelling n) (htext : Spells n text) :
    Definition.parse (String.ofList text) = .ok d
  /-- The packing has a default, so the first part that an array lacks is its second. -/
  definition_short {items : List Node} {text : List Char}
    (htext : Spells (.array items .closed) text) (h : Acceptable Definition.places items)
    (hlength : items.length < 2) :
    Definition.parse (String.ofList text) =
      .error (.data (.wrongLength 1 "struct SchemaDef with 2 elements"))
  definition_long {items : List Node} {text : List Char}
    (htext : Spells (.array items .closed) text) (h : Acceptable Definition.places items)
    (hlength : 2 < items.length) :
    Definition.parse (String.ofList text) = .error (.fault .malformed)
  /-- The last part of a field has a default. -/
  field_short {items : List Node} {text : List Char}
    (htext : Spells (.array items .closed) text) (h : Acceptable FieldDef.places items)
    (hlength : items.length < 2) :
    FieldDef.parse (String.ofList text) =
      .error (.data (.wrongLength items.length "struct FieldDef with 3 elements"))
  field_long {items : List Node} {text : List Char}
    (htext : Spells (.array items .closed) text) (h : Acceptable FieldDef.places items)
    (hlength : 3 < items.length) :
    FieldDef.parse (String.ofList text) = .error (.fault .malformed)
  /-- The items after the kind of a type are counted, if all of them can be kept. -/
  type_short {tag : TypeTag} {n : Node} {items : List Node} {text : List Char}
    (htext : Spells (.array (n :: items) .closed) text) (htag : TypeDef.readTag n = .ok tag)
    (hkept : ∀ n ∈ items, ∃ v, n.toJson (Json.maxNesting - 1) = .ok v)
    (h : Acceptable tag.places items) (hlength : items.length < tag.places.length) :
    TypeDef.parse (String.ofList text) =
      .error (.data (.wrongLength items.length tag.expectedParts))
  type_long {tag : TypeTag} {n : Node} {items : List Node} {text : List Char}
    (htext : Spells (.array (n :: items) .closed) text) (htag : TypeDef.readTag n = .ok tag)
    (hkept : ∀ n ∈ items, ∃ v, n.toJson (Json.maxNesting - 1) = .ok v)
    (h : Acceptable tag.places items) (hlength : tag.places.length < items.length) :
    TypeDef.parse (String.ofList text) =
      .error (.data (.wrongLength items.length tag.expectedLength))

/-- Each definition, field and type may be an object or an array, and each packing and
scalar a bare name or an object, in any mixture. -/
theorem arrayForm : ArrayForm where
  same h htext := by
    rw [Definition.parse, htext.whole.readText_eq]
    exact Definition.ofNode_of_spelling h
  definition_short htext h hlength := by
    rw [Definition.parse, htext.whole.readText_eq, Definition.ofNode_short h hlength]
  definition_long htext h hlength := by
    rw [Definition.parse, htext.whole.readText_eq, Definition.ofNode_long h hlength]
  field_short htext h hlength := by
    rw [FieldDef.parse, htext.whole.readText_eq, FieldDef.ofNode_short h hlength]
  field_long htext h hlength := by
    rw [FieldDef.parse, htext.whole.readText_eq, FieldDef.ofNode_long h hlength]
  type_short htext htag hkept h hlength := by
    obtain ⟨values, hvalues⟩ := TypeDef.exists_kept hkept
    rw [TypeDef.parse, htext.whole.readText_eq, TypeDef.ofNode_array htag hvalues,
      TypeDef.ofItems_short hvalues h hlength]
  type_long htext htag hkept h hlength := by
    obtain ⟨values, hvalues⟩ := TypeDef.exists_kept hkept
    rw [TypeDef.parse, htext.whole.readText_eq, TypeDef.ofNode_array htag hvalues,
      TypeDef.ofItems_long hvalues h hlength]

/-- An enumeration and a flag. -/
def stateDefinition : Definition where
  packing := .compactBools
  fields := [⟨"state", .enumeration "State" .int8, true⟩, ⟨"up", .bool, true⟩]

/-- A spelling of it that mixes arrays and objects. -/
def stateSpelling : Json :=
  .array [.object [("CompactBools", .null)],
    .array [
      .object [("ty", .array [.string "Enum", .string "State", .object [("Int8", .null)]]),
        ("name", .string "state")],
      .array [.string "up", .object [("type", .string "Bool")]]]]

theorem spelling_stateDefinition : stateDefinition.Spelling stateSpelling.toNode := by
  have hflag : FieldDef.Spelling ⟨"up", .scalar .bool, true⟩
      (Json.array [.string "up", .object [("type", .string "Bool")]]).toNode :=
    .short (.scalar (.object (.refl _))) .array
  have hstate : FieldDef.Spelling ⟨"state", .enumeration "State" .int8, true⟩
      (Json.object [("ty", .array [.string "Enum", .string "State", .object [("Int8", .null)]]),
        ("name", .string "state")]).toNode :=
    .short (.enumeration (.inr rfl) .array) (.object (.swap _ _ _))
  exact .full (.inr rfl) (.cons hstate (.cons hflag .nil)) .array

theorem rendered_stateSpelling : stateSpelling.Rendered := by
  have hnull (name : String) : (Json.object [(name, .null)]).Rendered :=
    Json.rendered_object (by simp [Json.rendered_null])
  have htype : (Json.array [.string "Enum", .string "State", .object [("Int8", .null)]]).Rendered :=
    Json.rendered_array (by simp [Json.rendered_string, hnull])
  have hstate : (Json.object [("ty", .array [.string "Enum", .string "State",
      .object [("Int8", .null)]]), ("name", .string "state")]).Rendered :=
    Json.rendered_object (by simp [Json.rendered_string, htype])
  have hflag : (Json.object [("type", .string "Bool")]).Rendered :=
    Json.rendered_object (by simp [Json.rendered_string])
  have hup : (Json.array [.string "up", .object [("type", .string "Bool")]]).Rendered :=
    Json.rendered_array (by simp [Json.rendered_string, hflag])
  exact Json.rendered_array (by simp [hnull, Json.rendered_array, hstate, hup])

/-- A mixed spelling is read.  An array without the fields of a definition, without the
type of a field or without the scalar of an enumeration is too short, and one more item
is too many for each of them. -/
theorem arrayForm_stateDefinition :
    Definition.parse (String.ofList stateSpelling.render) = .ok stateDefinition ∧
      Definition.parse (String.ofList (Json.array [.string "CompactBools"]).render) =
        .error (.data (.wrongLength 1 "struct SchemaDef with 2 elements")) ∧
      Definition.parse (String.ofList
          (Json.array [.string "CompactBools", .array [], .null]).render) =
        .error (.fault .malformed) ∧
      FieldDef.parse (String.ofList (Json.array [.string "up"]).render) =
        .error (.data (.wrongLength 1 "struct FieldDef with 3 elements")) ∧
      FieldDef.parse (String.ofList (Json.array
          [.string "up", .array [.string "Bool"], .boolean true, .null]).render) =
        .error (.fault .malformed) ∧
      TypeDef.parse (String.ofList (Json.array [.string "Enum", .string "State"]).render) =
        .error (.data (.wrongLength 1 "struct variant TypeDef::Enum with 2 elements")) ∧
      TypeDef.parse (String.ofList (Json.array [.string "Bool", .null]).render) =
        .error (.data (.wrongLength 1 "0 elements in sequence")) := by
  have htype : (Json.array [.string "Bool"]).Rendered :=
    Json.rendered_array (by simp [Json.rendered_string])
  have hpacking : (Json.array [.string "CompactBools"]).Rendered :=
    Json.rendered_array (by simp [Json.rendered_string])
  have hdefinition : (Json.array [.string "CompactBools", .array [], .null]).Rendered :=
    Json.rendered_array (by simp [Json.rendered_string, Json.rendered_array, Json.rendered_null])
  have hname : (Json.array [.string "up"]).Rendered :=
    Json.rendered_array (by simp [Json.rendered_string])
  have hfield :
      (Json.array [.string "up", .array [.string "Bool"], .boolean true, .null]).Rendered :=
    Json.rendered_array
      (by simp [Json.rendered_string, Json.rendered_boolean, Json.rendered_null, htype])
  have henumeration : (Json.array [.string "Enum", .string "State"]).Rendered :=
    Json.rendered_array (by simp [Json.rendered_string])
  have hshort : TypeDef.readTag (.string (some "Enum")) = .ok .enumeration := rfl
  have hbool : (Json.array [.string "Bool", .null]).Rendered :=
    Json.rendered_array (by simp [Json.rendered_string, Json.rendered_null])
  have hlong : TypeDef.readTag (.string (some "Bool")) = .ok (.scalar .bool) := rfl
  refine ⟨arrayForm.same spelling_stateDefinition rendered_stateSpelling,
    arrayForm.definition_short hpacking ?_ (by decide),
    arrayForm.definition_long hdefinition ?_ (by decide),
    arrayForm.field_short hname ?_ (by decide), arrayForm.field_long hfield ?_ (by decide),
    arrayForm.type_short henumeration hshort ?_ ?_ (by decide),
    arrayForm.type_long hbool hlong ?_ ?_ (by decide)⟩
  · exact List.forall_mem_singleton.mpr ⟨.compactBools, rfl⟩
  · exact List.forall_mem_cons.mpr ⟨⟨.compactBools, rfl⟩, List.forall_mem_singleton.mpr ⟨[], rfl⟩⟩
  · exact List.forall_mem_singleton.mpr ⟨"up", rfl⟩
  · refine List.forall_mem_cons.mpr ⟨⟨"up", rfl⟩, ?_⟩
    exact List.forall_mem_cons.mpr ⟨⟨.bool, rfl⟩, List.forall_mem_singleton.mpr ⟨true, rfl⟩⟩
  · exact List.forall_mem_singleton.mpr ⟨.string "State", rfl⟩
  · exact List.forall_mem_singleton.mpr ⟨"State", rfl⟩
  · exact List.forall_mem_singleton.mpr ⟨.null, rfl⟩
  · exact fun x hx => absurd hx List.not_mem_nil

end FlatRecord
