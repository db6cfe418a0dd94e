import FlatRecord.Proofs.Definition.Objects
import FlatRecord.Proofs.Json.Rendering

/-!
# Members of definitions and of fields

A definition has the parts `mode` and `fields`, and a field has `name`, `ty` and
`include`.  For both, the draft of the reader is what is given for each part, and so
both are read in object form.

A value for a part is read in the same way where it stands and in a text of its own.
It lies deeper where it stands, so less may be nested in it there; fewer than 100
levels are never too many.
-/

namespace FlatRecord

open Json (Node Problem Spells)

/-- A value of its own is read by the reader of its tree. -/
theorem Json.Node.ReadsAs.read_eq {α : Type} {read : Node → Except Problem α} {v : Node} {a : α}
    (h : v.ReadsAs (Json.readText read) a) : read v = .ok a := by
  obtain ⟨_, text, hspells, hparse⟩ := h
  rwa [hspells.whole.readText_eq] at hparse

/-! ## Definitions -/

namespace Definition

/-- Reads a list of fields that is all that a text holds. -/
def parseFields : String → Except Problem (List FieldDef) :=
  Json.readText (readFields (Json.maxNesting - 3))

def parts : List Part :=
  [.of "mode" PackingDef.parse, .of "fields" parseFields]

/-- There is no compaction unless another packing is given. -/
def Means (members : List (String × Node)) (d : Definition) : Prop :=
  GivesOr .noCompaction PackingDef.parse "mode" members d.packing ∧
    Gives parseFields "fields" members d.fields

/-- The draft after these members. -/
def Draft.ofMembers (members : List (String × Node)) : Draft where
  packing := given PackingDef.ofNode "mode" members
  fields := given (readFields (Json.maxNesting - 4)) "fields" members

theorem mem_parts_mode : .of "mode" PackingDef.parse ∈ parts :=
  List.mem_cons_self

theorem mem_parts_fields : .of "fields" parseFields ∈ parts :=
  List.mem_cons_of_mem _ List.mem_cons_self

theorem packing_inPlace (v : Node) (p : PackingDef) (h : v.ReadsAs PackingDef.parse p) :
    PackingDef.ofNode v = .ok p :=
  h.read_eq

theorem fields_inPlace (v : Node) (fields : List FieldDef) (h : v.ReadsAs parseFields fields) :
    readFields (Json.maxNesting - 4) v = .ok fields := by
  have hlevels : readFields (Json.maxNesting - 3) v = readFields (Json.maxNesting - 4) v :=
    readFields_of_nestsWithin (k := 96) (by decide) (by decide) h.1
  rw [← hlevels]
  exact h.read_eq

theorem drafts : Drafts parts (Draft.add (Json.maxNesting - 4)) Draft.ofMembers where
  repeated := by
    intro done hadmitted name hname v
    have hnames : name = "mode" ∨ name = "fields" := by
      simpa [parts, Part.of] using (mem_partNames.mp hname).2
    rcases hnames with rfl | rfl
    · simp [Draft.add, Draft.ofMembers,
        readOnce_given_repeated packing_inPlace mem_parts_mode hadmitted hname]
    · simp [Draft.add, Draft.ofMembers,
        readOnce_given_repeated fields_inPlace mem_parts_fields hadmitted hname]
  next := by
    rintro done ⟨name, v⟩ hadmitted hskip hname
    by_cases hmode : name = "mode"
    · subst hmode
      simp [Draft.add, Draft.ofMembers, given_append_of_ne,
        readOnce_given_next packing_inPlace mem_parts_mode hadmitted hname]
    by_cases hfields : name = "fields"
    · subst hfields
      simp [Draft.add, Draft.ofMembers, given_append_of_ne,
        readOnce_given_next fields_inPlace mem_parts_fields hadmitted hname]
    · simp [Draft.add, Draft.ofMembers, given_append_of_ne, hmode, hfields, Ne.symm hmode,
        Ne.symm hfields, Node.skip, hskip]
  congr := by
    intro members members' h
    have hmode : members.lookup "mode" = members'.lookup "mode" := h _ mem_parts_mode
    have hfields : members.lookup "fields" = members'.lookup "fields" := h _ mem_parts_fields
    simp only [Draft.ofMembers, given, hmode, hfields]

theorem objectForm : ObjectForm Definition.parse parts ["fields"] Means := by
  refine ObjectForm.of_drafts drafts (fun members => rfl) ?_ ?_
  · intro members _ name hname
    by_cases hfields : "fields" ∈ members.map Prod.fst
    · simp [hfields, -List.mem_map] at hname
    · obtain rfl : "fields" = name := by simpa [List.find?_cons, hfields, -List.mem_map] using hname
      simp [Draft.finish, Draft.ofMembers, given_of_not_mem hfields]
  · intro members hadmitted hrequired
    have hfields : "fields" ∈ members.map Prod.fst := hrequired _ List.mem_cons_self
    obtain ⟨fields, hgiven, hgives⟩ :=
      exists_given fields_inPlace mem_parts_fields hadmitted hfields
    refine ⟨⟨_, fields⟩, ⟨givesOr_given packing_inPlace mem_parts_mode hadmitted _, hgives⟩, ?_⟩
    simp only [Draft.finish, Draft.ofMembers, hgiven, Json.required_some, Json.ok_bind]
    rfl

end Definition

/-! ## Fields -/

namespace FieldDef

/-- Reads a name that is all that a text holds. -/
def parseName : String → Except Problem String :=
  Json.readText readName

/-- Reads a boolean that is all that a text holds. -/
def parseIncluded : String → Except Problem Bool :=
  Json.readText Node.readBoolean

def parts : List Part :=
  [.of "name" parseName, .of "ty" TypeDef.parse, .of "include" parseIncluded]

/-- A field is included unless the members say that it is not. -/
def Means (members : List (String × Node)) (f : FieldDef) : Prop :=
  Gives parseName "name" members f.name ∧ Gives TypeDef.parse "ty" members f.type ∧
    GivesOr true parseIncluded "include" members f.included

/-- The draft after these members. -/
def Draft.ofMembers (members : List (String × Node)) : Draft where
  name := given readName "name" members
  type := given (TypeDef.ofNode (Json.maxNesting - 2)) "ty" members
  included := given Node.readBoolean "include" members

theorem mem_parts_name : .of "name" parseName ∈ parts :=
  List.mem_cons_self

theorem mem_parts_type : .of "ty" TypeDef.parse ∈ parts :=
  List.mem_cons_of_mem _ List.mem_cons_self

theorem mem_parts_included : .of "include" parseIncluded ∈ parts :=
  List.mem_cons_of_mem _ (List.mem_cons_of_mem _ List.mem_cons_self)

theorem name_inPlace (v : Node) (name : String) (h : v.ReadsAs parseName name) :
    readName v = .ok name :=
  h.read_eq

theorem type_inPlace (v : Node) (t : TypeDef) (h : v.ReadsAs TypeDef.parse t) :
    TypeDef.ofNode (Json.maxNesting - 2) v = .ok t := by
  have hlevels : TypeDef.ofNode (Json.maxNesting - 1) v =
      TypeDef.ofNode (Json.maxNesting - 2) v :=
    TypeDef.ofNode_of_nestsWithin (k := 98) (by decide) (by decide) h.1
  rw [← hlevels]
  exact h.read_eq

theorem included_inPlace (v : Node) (b : Bool) (h : v.ReadsAs parseIncluded b) :
    v.readBoolean = .ok b :=
  h.read_eq

theorem drafts : Drafts parts (Draft.add (Json.maxNesting - 2)) Draft.ofMembers where
  repeated := by
    intro done hadmitted name hname v
    have hnames : name = "name" ∨ name = "ty" ∨ name = "include" := by
      simpa [parts, Part.of] using (mem_partNames.mp hname).2
    rcases hnames with rfl | rfl | rfl
    · simp [Draft.add, Draft.ofMembers,
        readOnce_given_repeated name_inPlace mem_parts_name hadmitted hname]
    · simp [Draft.add, Draft.ofMembers,
        readOnce_given_repeated type_inPlace mem_parts_type hadmitted hname]
    · simp [Draft.add, Draft.ofMembers,
        readOnce_given_repeated included_inPlace mem_parts_included hadmitted hname]
  next := by
    rintro done ⟨name, v⟩ hadmitted hskip hname
    by_cases hkey : name = "name"
    · subst hkey
      simp [Draft.add, Draft.ofMembers, given_append_of_ne,
        readOnce_given_next name_inPlace mem_parts_name hadmitted hname]
    by_cases htype : name = "ty"
    · subst htype
      simp [Draft.add, Draft.ofMembers, given_append_of_ne,
        readOnce_given_next type_inPlace mem_parts_type hadmitted hname]
    by_cases hincluded : name = "include"
    · subst hincluded
      simp [Draft.add, Draft.ofMembers, given_append_of_ne,
        readOnce_given_next included_inPlace mem_parts_included hadmitted hname]
    · simp [Draft.add, Draft.ofMembers, given_append_of_ne, hkey, htype, hincluded, Ne.symm hkey,
        Ne.symm htype, Ne.symm hincluded, Node.skip, hskip]
  congr := by
    intro members members' h
    have hname : members.lookup "name" = members'.lookup "name" := h _ mem_parts_name
    have htype : members.lookup "ty" = members'.lookup "ty" := h _ mem_parts_type
    have hincluded : members.lookup "include" = members'.lookup "include" := h _ mem_parts_included
    simp only [Draft.ofMembers, given, hname, htype, hincluded]

theorem objectForm : ObjectForm FieldDef.parse parts ["name", "ty"] Means := by
  refine ObjectForm.of_drafts drafts (fun members => rfl) ?_ ?_
  · intro members hadmitted name hname
    by_cases hkey : "name" ∈ members.map Prod.fst
    · obtain ⟨a, hgiven, _⟩ := exists_given name_inPlace mem_parts_name hadmitted hkey
      by_cases htype : "ty" ∈ members.map Prod.fst
      · simp [hkey, htype, -List.mem_map] at hname
      · obtain rfl : "ty" = name := by
          simpa [List.find?_cons, hkey, htype, -List.mem_map] using hname
        simp [Draft.finish, Draft.ofMembers, hgiven, given_of_not_mem htype]
    · obtain rfl : "name" = name := by simpa [List.find?_cons, hkey, -List.mem_map] using hname
      simp [Draft.finish, Draft.ofMembers, given_of_not_mem hkey]
  · intro members hadmitted hrequired
    have hkey : "name" ∈ members.map Prod.fst := hrequired _ List.mem_cons_self
    have htype : "ty" ∈ members.map Prod.fst :=
      hrequired _ (List.mem_cons_of_mem _ List.mem_cons_self)
    obtain ⟨name, hname, hgivesName⟩ := exists_given name_inPlace mem_parts_name hadmitted hkey
    obtain ⟨type, htype, hgivesType⟩ := exists_given type_inPlace mem_parts_type hadmitted htype
    refine ⟨⟨name, type, _⟩, ⟨hgivesName, hgivesType,
      givesOr_given included_inPlace mem_parts_included hadmitted _⟩, ?_⟩
    simp only [Draft.finish, Draft.ofMembers, hname, htype, Json.required_some, Json.ok_bind]
    rfl

end FieldDef

/-! ## Both -/

/-- The members of an object decide what it is read as: repeated parts are refused
first, then absent ones, and otherwise the record has what is given and its defaults.
The order of the members and members that are no parts make no difference. -/
theorem objectForm_definition_and_field :
    ObjectForm Definition.parse Definition.parts ["fields"] Definition.Means ∧
      ObjectForm FieldDef.parse FieldDef.parts ["name", "ty"] FieldDef.Means :=
  ⟨Definition.objectForm, FieldDef.objectForm⟩

/-- What is written for an object spells its members. -/
theorem Json.Rendered.spells_ofMembers {values : List (String × Json)}
    (h : (Json.object values).Rendered) :
    Spells (.ofMembers (values.map fun m => (m.1, m.2.toNode))) (Json.object values).render := by
  rw [Node.ofMembers, List.map_map]
  rwa [Rendered, toNode, memberNodes_eq_map] at h

/-- The member between the two lists of fields is passed over.  Without the first list
the object is a definition, of the packing that is the default.  A field is not one
without its type. -/
theorem objectForm_fields_repeated :
    Definition.parse (String.ofList (Json.render
        (.object [("fields", .array []), ("extra", .null), ("fields", .array [])]))) =
        .error (.data (.repeated "fields")) ∧
      Definition.parse (String.ofList (Json.render
        (.object [("extra", .null), ("fields", .array [])]))) = .ok ⟨.noCompaction, []⟩ ∧
      FieldDef.parse (String.ofList (Json.render (.object [("name", .string "up")]))) =
        .error (.data (.missing "ty")) := by
  have hempty : Json.Rendered (.array []) := Json.rendered_array (by simp)
  have htwice : Json.Rendered
      (.object [("fields", .array []), ("extra", .null), ("fields", .array [])]) :=
    Json.rendered_object (by simp [hempty, Json.rendered_null])
  have honce : Json.Rendered (.object [("extra", .null), ("fields", .array [])]) :=
    Json.rendered_object (by simp [hempty, Json.rendered_null])
  have hname : Json.Rendered (.object [("name", .string "up")]) :=
    Json.rendered_object (by simp [Json.rendered_string])
  have hfields : (Node.array [] .closed).ReadsAs Definition.parseFields [] :=
    ⟨fun n hn => absurd hn List.not_mem_nil, _, hempty, hempty.readText_eq _⟩
  have hadmitted : Admitted Definition.parts
      [("fields", .array [] .closed), ("extra", .null), ("fields", .array [] .closed)] := by
    intro m hm p hp hname
    simp only [Definition.parts, List.mem_cons, List.not_mem_nil, or_false] at hm hp
    rcases hp with rfl | rfl <;> rcases hm with rfl | rfl | rfl <;>
      first | exact ⟨[], hfields⟩ | exact nomatch hname
  have hadmittedField : Admitted FieldDef.parts [("name", .string (some "up"))] := by
    intro m hm p hp hkey
    obtain rfl := List.mem_singleton.mp hm
    simp only [FieldDef.parts, List.mem_cons, List.not_mem_nil, or_false] at hp
    rcases hp with rfl | rfl | rfl
    · exact ⟨"up", trivial, _, Json.rendered_string "up", (Json.rendered_string "up").readText_eq _⟩
    · exact nomatch hkey
    · exact nomatch hkey
  refine ⟨?_, ?_, ?_⟩
  · exact objectForm_definition_and_field.1.repeated htwice.spells_ofMembers hadmitted
      ⟨[("fields", .array [] .closed), ("extra", .null)], _, [], rfl, by decide, by decide⟩
  · obtain ⟨⟨packing, fields⟩, ⟨hpacking, hgives⟩, hparse⟩ :=
      objectForm_definition_and_field.1.accepted honce.spells_ofMembers
        (fun m hm => hadmitted m (List.mem_cons_of_mem _ hm)) (by decide) (by decide)
    obtain rfl : packing = .noCompaction := by
      rcases hpacking with ⟨v, hv, _⟩ | ⟨_, hdefault⟩
      · simp at hv
      · exact hdefault
    obtain ⟨v, hv, hreads⟩ := hgives
    obtain rfl : v = (Json.array []).toNode := by simpa using hv
    obtain rfl : [] = fields := Except.ok.inj hreads.read_eq
    exact hparse
  · exact objectForm_definition_and_field.2.missing hname.spells_ofMembers hadmittedField
      (by decide) (by decide)

end FlatRecord
