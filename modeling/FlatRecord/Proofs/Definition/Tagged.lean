import FlatRecord.Proofs.Definition.Members
import FlatRecord.Proofs.Definition.Names
import Mathlib.Algebra.Ring.Nat

/-!
# Types given as objects

The member `type` of an object says which kind of type the object is, and may stand
anywhere among the members.  The other members are kept whole until the object has been
read.  Then those that are parts of a type of this kind are looked at, and the others
are not.

* `TaggedForm` says what objects mean.
* `ofNode_tag` is the reader of the object: whatever the place of the kind, the other
  members come out in their order.
* `TypeTag.add` and `TypeTag.draft` are what the reader does with the parts of a kind,
  on trees.  `TypeTag.ofMembers_eq` says that it is the same on values that are kept, and
  `TypeTag.drafts` makes it an instance of the records of `Drafts`.
* `parse_of_hasTag` puts both together.  Each field of `TaggedForm` is a short step from
  it.
-/

namespace FlatRecord

open Json (Node Problem Spells)

/-! ## What objects mean -/

namespace TypeDef

/-- Reads the name of a kind that is all that a text holds. -/
def parseTag : String → Except Problem TypeTag :=
  Json.readText readTag

/-- The members that mean something in some type. -/
def parts : List Part :=
  [.of "type" parseTag, .of "name" FieldDef.parseName, .of "underlying" ScalarDef.parse]

end TypeDef

namespace TypeTag

/-- The parts that a type of this kind has beside its kind. -/
def parts : TypeTag → List Part
  | scalar _ => []
  | enumeration => [.of "name" FieldDef.parseName, .of "underlying" ScalarDef.parse]
  | unsupported => [.of "name" FieldDef.parseName]

/-- The names of the parts. -/
def required (tag : TypeTag) : List String :=
  tag.parts.map Part.name

/-- The members mean this type of this kind. -/
def Means (members : List (String × Node)) (t : TypeDef) : TypeTag → Prop
  | scalar s => t = .scalar s
  | enumeration => ∃ name underlying, t = .enumeration name underlying ∧
      Gives FieldDef.parseName "name" members name ∧
        Gives ScalarDef.parse "underlying" members underlying
  | unsupported => ∃ name, t = .unsupported name ∧ Gives FieldDef.parseName "name" members name

end TypeTag

namespace TypeDef

/-- The text is an object with these members.  What is given for a part is accepted for
it, and every other member has a value that can be kept: its numbers are not too large,
its strings stand for texts, and fewer than 100 containers lie in each other. -/
structure SpellsObject (members : List (String × Node)) (text : List Char) : Prop where
  spells : Spells (.ofMembers members) text
  admitted : Admitted parts members
  kept : ∀ m ∈ members, m.1 ∉ parts.map Part.name →
    m.2.NestsWithin 99 ∧ ∃ v : Json, m.2 = v.toNode

/-- The kind is given once, and is this. -/
def HasTag (members : List (String × Node)) (tag : TypeTag) : Prop :=
  (members.map Prod.fst).count "type" = 1 ∧ Gives parseTag "type" members tag

/-- What the parser makes of texts of objects. -/
structure TaggedForm : Prop where
  /-- A kind that is given twice is refused, whatever else is wrong. -/
  tagRepeated {members : List (String × Node)} {text : List Char}
    (htext : SpellsObject members text) (hcount : 2 ≤ (members.map Prod.fst).count "type") :
    parse (String.ofList text) = .error (.data (.repeated "type"))
  /-- There is no type without a kind. -/
  tagMissing {members : List (String × Node)} {text : List Char}
    (htext : SpellsObject members text) (htype : "type" ∉ members.map Prod.fst) :
    parse (String.ofList text) = .error (.data (.missing "type"))
  /-- A part of this kind that is repeated is refused where it occurs for the second
  time. -/
  repeated {members : List (String × Node)} {text : List Char} {tag : TypeTag} {name : String}
    (htext : SpellsObject members text) (htag : HasTag members tag)
    (hname : RepeatsFirst tag.parts members name) :
    parse (String.ofList text) = .error (.data (.repeated name))
  /-- Otherwise the first part of this kind that is absent is reported. -/
  missing {members : List (String × Node)} {text : List Char} {tag : TypeTag} {name : String}
    (htext : SpellsObject members text) (htag : HasTag members tag)
    (honce : (partNames tag.parts members).Nodup)
    (hname : tag.required.find? (· ∉ members.map Prod.fst) = some name) :
    parse (String.ofList text) = .error (.data (.missing name))
  /-- Otherwise the type has what is given. -/
  accepted {members : List (String × Node)} {text : List Char} {tag : TypeTag}
    (htext : SpellsObject members text) (htag : HasTag members tag)
    (honce : (partNames tag.parts members).Nodup)
    (hrequired : ∀ name ∈ tag.required, name ∈ members.map Prod.fst) :
    ∃ t, tag.Means members t ∧ parse (String.ofList text) = .ok t
  /-- The place of the kind among the other members makes no difference, not even for
  the problem that is reported. -/
  anywhere {before after before' after' : List (String × Node)} {tag : Node}
    {text text' : List Char} (htext : SpellsObject (before ++ ("type", tag) :: after) text)
    (htext' : SpellsObject (before' ++ ("type", tag) :: after') text')
    (hothers : before ++ after = before' ++ after') :
    parse (String.ofList text) = parse (String.ofList text')

end TypeDef

/-! ## Members before and after the kind -/

namespace TypeDef

variable {levels : Nat} {tag : Option TypeTag} {done members before after : List (String × Json)}

/-- The members of an object as trees. -/
def nodes (members : List (String × Json)) : List (String × Node) :=
  members.map fun m => (m.1, m.2.toNode)

theorem nodes_cons (m : String × Json) (members : List (String × Json)) :
    nodes (m :: members) = (m.1, m.2.toNode) :: nodes members :=
  rfl

theorem nodes_append (first second : List (String × Json)) :
    nodes (first ++ second) = nodes first ++ nodes second :=
  List.map_append

theorem map_fst_nodes (members : List (String × Json)) :
    (nodes members).map Prod.fst = members.map Prod.fst := by
  rw [nodes, List.map_map]
  rfl

/-- Members that do not give the kind are kept, in order. -/
theorem foldMembers_addMember (htype : "type" ∉ members.map Prod.fst)
    (hnests : ∀ m ∈ members, m.2.toNode.NestsWithin levels) :
    Node.foldMembers (addMember levels) (tag, done) ((nodes members).map Node.ofMember) =
      .ok (tag, done ++ members) := by
  induction members generalizing done with
  | nil => rw [List.append_nil]; rfl
  | cons m members ih =>
    obtain ⟨hm, hmembers⟩ := List.forall_mem_cons.mp hnests
    rw [List.map_cons, List.mem_cons, not_or] at htype
    have hkeep : m.2.toNode.toJson levels = .ok m.2 := Node.toJson_eq_ok_iff.mpr ⟨rfl, hm⟩
    have hadd : addMember levels (tag, done) m.1 m.2.toNode = .ok (tag, done ++ [m]) := by
      rw [addMember, if_neg (Ne.symm htype.1), hkeep]
      rfl
    rw [nodes_cons, List.map_cons, Node.ofMember, Node.foldMembers_cons, hadd, Json.ok_bind,
      List.append_cons done m members]
    exact ih htype.2 hmembers

/-- The members up to the first one that gives the kind. -/
theorem foldMembers_addMember_tag {v : Json} {tag : TypeTag}
    (hbefore : "type" ∉ before.map Prod.fst)
    (hnests : ∀ m ∈ before, m.2.toNode.NestsWithin levels) (htag : readTag v.toNode = .ok tag)
    (rest : List (String × Json)) :
    Node.foldMembers (addMember levels) (none, [])
        ((nodes (before ++ ("type", v) :: rest)).map Node.ofMember) =
      Node.foldMembers (addMember levels) (some tag, before)
        ((nodes rest).map Node.ofMember) := by
  have hread : addMember levels (none, before) "type" v.toNode = .ok (some tag, before) := by
    simp [addMember, htag]
  rw [nodes_append, List.map_append, Node.foldMembers_append, foldMembers_addMember hbefore hnests,
    Json.ok_bind, nodes_cons, List.map_cons, Node.ofMember, Node.foldMembers_cons,
    List.nil_append, hread, Json.ok_bind]

/-- The kind may stand anywhere: it decides what the other members mean. -/
theorem ofNode_tag {v : Json} {tag : TypeTag} (hbefore : "type" ∉ before.map Prod.fst)
    (hafter : "type" ∉ after.map Prod.fst)
    (hnests : ∀ m ∈ before ++ after, m.2.toNode.NestsWithin levels)
    (htag : readTag v.toNode = .ok tag) :
    ofNode levels (.ofMembers (nodes (before ++ ("type", v) :: after))) =
      ofMembers (before ++ after) tag := by
  obtain ⟨hbeforeNests, hafterNests⟩ := List.forall_mem_append.mp hnests
  rw [Node.ofMembers, ofNode, foldMembers_addMember_tag hbefore hbeforeNests htag,
    foldMembers_addMember hafter hafterNests]
  rfl

/-- A second kind is refused where it stands. -/
theorem ofNode_tagRepeated {v v' : Json} {tag : TypeTag} {between : List (String × Json)}
    (hbefore : "type" ∉ before.map Prod.fst) (hbetween : "type" ∉ between.map Prod.fst)
    (hnests : ∀ m ∈ before ++ between, m.2.toNode.NestsWithin levels)
    (htag : readTag v.toNode = .ok tag) :
    ofNode levels
        (.ofMembers (nodes (before ++ ("type", v) :: (between ++ ("type", v') :: after)))) =
      .error (.data (.repeated "type")) := by
  obtain ⟨hbeforeNests, hbetweenNests⟩ := List.forall_mem_append.mp hnests
  rw [Node.ofMembers, ofNode, foldMembers_addMember_tag hbefore hbeforeNests htag, nodes_append,
    List.map_append, Node.foldMembers_append, foldMembers_addMember hbetween hbetweenNests]
  rfl

theorem ofNode_tagMissing (htype : "type" ∉ members.map Prod.fst)
    (hnests : ∀ m ∈ members, m.2.toNode.NestsWithin levels) :
    ofNode levels (.ofMembers (nodes members)) = .error (.data (.missing "type")) := by
  rw [Node.ofMembers, ofNode, foldMembers_addMember htype hnests]
  rfl

end TypeDef

/-! ## Parts of a kind -/

section Kept

variable {levels : Nat} {v : Json}

/-- A name in a value that is kept whole. -/
def keptName (levels : Nat) (n : Node) : Except Problem String := do
  (← n.toJson levels).readString

/-- A scalar in a value that is kept whole. -/
def keptScalar (levels : Nat) (n : Node) : Except Problem ScalarDef := do
  ScalarDef.ofJson (← n.toJson levels)

theorem keptName_toNode (h : v.toNode.NestsWithin levels) :
    keptName levels v.toNode = v.readString := by
  rw [keptName, Node.toJson_eq_ok_iff.mpr ⟨rfl, h⟩, Json.ok_bind]

theorem keptScalar_toNode (h : v.toNode.NestsWithin levels) :
    keptScalar levels v.toNode = ScalarDef.ofJson v := by
  rw [keptScalar, Node.toJson_eq_ok_iff.mpr ⟨rfl, h⟩, Json.ok_bind]

theorem keptName_of_readsAs (v : Node) (name : String) (h : v.ReadsAs FieldDef.parseName name) :
    keptName levels v = .ok name := by
  have hread : FieldDef.readName v = .ok name := h.read_eq
  obtain rfl : v = .string (some name) := Node.readString_eq_ok_iff.mp hread
  simp [keptName]

theorem keptScalar_of_readsAs (v : Node) (s : ScalarDef) (h : v.ReadsAs ScalarDef.parse s) :
    keptScalar (levels + 2) v = .ok s := by
  have hnames : v.Names s.keyword := ScalarDef.ofNode_eq_ok_iff.mp h.read_eq
  obtain ⟨v, rfl, hnests⟩ := ScalarDef.exists_toNode_of_names (.inl hnames)
  rw [keptScalar_toNode (hnests levels)]
  exact ScalarDef.ofJson_eq_ok_iff.mpr (.inl hnames)

end Kept

namespace TypeTag

variable {levels : Nat} {tag : TypeTag} {members : List (String × Json)}

/-- Takes a part that a type of this kind has from a member. -/
def add (levels : Nat) (tag : TypeTag) (d : TypeDef.Draft) (key : String) (n : Node) :
    Except Problem TypeDef.Draft :=
  if key ∉ tag.required then
    pure d
  else if key = "name" then do
    let name ← Json.readOnce "name" d.name (keptName levels n)
    pure { d with name }
  else do
    let underlying ← Json.readOnce "underlying" d.underlying (keptScalar levels n)
    pure { d with underlying }

/-- The type, if all parts of the kind are there. -/
def finish (d : TypeDef.Draft) : TypeTag → Except Problem TypeDef
  | scalar s => pure (.scalar s)
  | enumeration => do
    let name ← Json.required "name" d.name
    let underlying ← Json.required "underlying" d.underlying
    pure (.enumeration name underlying)
  | unsupported => do
    let name ← Json.required "name" d.name
    pure (.unsupported name)

theorem foldMembers_nodes {σ : Type} {step : σ → String → Node → Except Problem σ} (d : σ) :
    Node.foldMembers step d ((TypeDef.nodes members).map Node.ofMember) =
      members.foldlM (fun d m => step d m.1 m.2.toNode) d := by
  induction members generalizing d with
  | nil => rfl
  | cons m members ih =>
    rw [List.foldlM_cons, TypeDef.nodes_cons, List.map_cons, Node.ofMember,
      Node.foldMembers_cons]
    exact bind_congr ih

theorem foldlM_congr {σ α : Type} {f g : σ → α → Except Problem σ} {xs : List α}
    (h : ∀ x ∈ xs, ∀ d, f d x = g d x) (d : σ) : xs.foldlM f d = xs.foldlM g d := by
  induction xs generalizing d with
  | nil => rfl
  | cons x xs ih =>
    obtain ⟨hx, hxs⟩ := List.forall_mem_cons.mp h
    rw [List.foldlM_cons, List.foldlM_cons, hx]
    exact bind_congr (ih hxs)

theorem required_enumeration : required enumeration = ["name", "underlying"] :=
  rfl

theorem required_unsupported : required unsupported = ["name"] :=
  rfl

/-- The parts are taken from the members one by one. -/
theorem ofMembers_eq (hnests : ∀ m ∈ members, m.2.toNode.NestsWithin levels) :
    TypeDef.ofMembers members tag =
      Node.foldMembers (add levels tag) {} ((TypeDef.nodes members).map Node.ofMember) >>=
        fun d => finish d tag := by
  rw [foldMembers_nodes]
  cases tag with
  | scalar s =>
    have hstep : ∀ m ∈ members, ∀ d : TypeDef.Draft,
        add levels (scalar s) d m.1 m.2.toNode = .ok d := by
      intro m _ d
      exact if_pos List.not_mem_nil
    have hfold (members : List (String × Json)) : members.foldlM (fun d _ => .ok d) {} =
        (.ok {} : Except Problem TypeDef.Draft) := by
      induction members with
      | nil => rfl
      | cons m members ih => exact ih
    rw [foldlM_congr hstep, hfold]
    rfl
  | enumeration =>
    have hstep : ∀ m ∈ members, ∀ d : TypeDef.Draft,
        add levels enumeration d m.1 m.2.toNode = d.addToEnumeration m := by
      intro m hm d
      rw [add, required_enumeration, keptName_toNode (hnests m hm), keptScalar_toNode (hnests m hm),
        TypeDef.Draft.addToEnumeration]
      by_cases hname : m.1 = "name"
      · simp [hname]
      · by_cases hunderlying : m.1 = "underlying" <;> simp [hname, hunderlying]
    rw [foldlM_congr hstep]
    rfl
  | unsupported =>
    have hstep : ∀ m ∈ members, ∀ d : TypeDef.Draft,
        add levels unsupported d m.1 m.2.toNode = d.addToUnsupported m := by
      intro m hm d
      rw [add, required_unsupported, keptName_toNode (hnests m hm),
        TypeDef.Draft.addToUnsupported]
      by_cases hname : m.1 = "name" <;> simp [hname]
    rw [foldlM_congr hstep]
    rfl

/-- The draft after these members. -/
def draft (levels : Nat) (tag : TypeTag) (members : List (String × Node)) : TypeDef.Draft where
  name := if "name" ∈ tag.required then given (keptName levels) "name" members else none
  underlying :=
    if "underlying" ∈ tag.required then given (keptScalar levels) "underlying" members else none

theorem eq_of_mem_required {name : String} (h : name ∈ tag.required) :
    name = "name" ∨ name = "underlying" := by
  cases tag <;> simp_all [required, parts, Part.of]

theorem mem_parts_name (h : "name" ∈ tag.required) : .of "name" FieldDef.parseName ∈ tag.parts := by
  cases tag <;> simp_all [required, parts, Part.of]

theorem mem_parts_underlying (h : "underlying" ∈ tag.required) :
    .of "underlying" ScalarDef.parse ∈ tag.parts := by
  cases tag <;> simp_all [required, parts, Part.of]

/-- The draft has what the members give for the parts of the kind. -/
theorem drafts (levels : Nat) (tag : TypeTag) :
    Drafts tag.parts (add (levels + 2) tag) (draft (levels + 2) tag) where
  repeated := by
    intro done hadmitted name hname v
    have hrequired : name ∈ tag.required := (mem_partNames.mp hname).2
    rcases eq_of_mem_required hrequired with rfl | rfl
    · simp [add, hrequired, draft,
        readOnce_given_repeated keptName_of_readsAs (mem_parts_name hrequired) hadmitted hname]
    · simp [add, hrequired, draft, readOnce_given_repeated keptScalar_of_readsAs
        (mem_parts_underlying hrequired) hadmitted hname]
  next := by
    rintro done ⟨key, v⟩ hadmitted _ hkey
    by_cases hrequired : key ∈ tag.required
    · rcases eq_of_mem_required hrequired with rfl | rfl
      · simp [add, hrequired, draft, given_append_of_ne,
          readOnce_given_next keptName_of_readsAs (mem_parts_name hrequired) hadmitted hkey]
      · simp [add, hrequired, draft, given_append_of_ne, readOnce_given_next keptScalar_of_readsAs
          (mem_parts_underlying hrequired) hadmitted hkey]
    · have hother {name : String} (hname : name ∈ tag.required) : name ≠ key :=
        fun h => hrequired (h ▸ hname)
      simp +contextual [add, hrequired, draft, given_append_of_ne, hother]
  congr := by
    intro members members' h
    have hlookup {name : String} (hname : name ∈ tag.required) :
        members.lookup name = members'.lookup name := by
      obtain ⟨p, hp, rfl⟩ := List.mem_map.mp hname
      exact h p hp
    simp +contextual [draft, given, hlookup]

end TypeTag

/-! ## Texts -/

namespace TypeDef

variable {members : List (String × Node)} {text : List Char} {tag : TypeTag}

theorem exists_eq_nodes (h : ∀ m ∈ members, ∃ v : Json, m.2 = v.toNode) :
    ∃ values, members = nodes values := by
  induction members with
  | nil => exact ⟨[], rfl⟩
  | cons m members ih =>
    obtain ⟨⟨v, hv⟩, hmembers⟩ := List.forall_mem_cons.mp h
    obtain ⟨values, rfl⟩ := ih hmembers
    exact ⟨(m.1, v) :: values, congrArg (· :: nodes values) (Prod.ext rfl hv)⟩

theorem readTag_eq_ok_iff {n : Node} :
    readTag n = .ok tag ↔
      ∃ name, n = .string (some name) ∧ Json.choose TypeTag.keywords name = .ok tag := by
  simp only [readTag, Json.bind_eq_ok_iff, Node.readString_eq_ok_iff]

/-- The members up to the first one with a key. -/
theorem exists_first {values : List (String × Json)} {key : String}
    (h : key ∈ values.map Prod.fst) :
    ∃ before v after, values = before ++ (key, v) :: after ∧ key ∉ before.map Prod.fst := by
  induction values with
  | nil => exact absurd h List.not_mem_nil
  | cons m values ih =>
    by_cases hm : m.1 = key
    · exact ⟨[], m.2, values, by rw [← hm]; rfl, List.not_mem_nil⟩
    · obtain ⟨before, v, after, rfl, hbefore⟩ :=
        ih ((List.mem_cons.mp h).resolve_left (Ne.symm hm))
      refine ⟨m :: before, v, after, rfl, ?_⟩
      rw [List.map_cons, List.mem_cons, not_or]
      exact ⟨Ne.symm hm, hbefore⟩

namespace SpellsObject

/-- Every member is kept, whether it means something or not. -/
theorem nestsWithin_and_exists (h : SpellsObject members text) :
    ∀ m ∈ members, m.2.NestsWithin 99 ∧ ∃ v : Json, m.2 = v.toNode := by
  intro m hm
  by_cases hpart : m.1 ∈ parts.map Part.name
  · obtain ⟨p, hp, hname⟩ := List.mem_map.mp hpart
    have haccepts : p.Accepts m.2 := h.admitted m hm p hp hname
    simp only [parts, List.mem_cons, List.not_mem_nil, or_false] at hp
    rcases hp with rfl | rfl | rfl
    · obtain ⟨tag, htag⟩ := haccepts
      obtain ⟨name, hv, _⟩ := readTag_eq_ok_iff.mp htag.read_eq
      exact ⟨htag.1, .string name, hv⟩
    · obtain ⟨name, hname⟩ := haccepts
      exact ⟨hname.1, .string name, Node.readString_eq_ok_iff.mp hname.read_eq⟩
    · obtain ⟨s, hs⟩ := haccepts
      obtain ⟨v, hv, _⟩ :=
        ScalarDef.exists_toNode_of_names (.inl (ScalarDef.ofNode_eq_ok_iff.mp hs.read_eq))
      exact ⟨hs.1, v, hv⟩
  · exact h.kept m hm hpart

/-- All of it lies within the depth that is allowed in a type. -/
theorem exists_values (h : SpellsObject members text) :
    ∃ values : List (String × Json), members = nodes values ∧
      ∀ m ∈ values, m.2.toNode.NestsWithin (Json.maxNesting - 1) := by
  obtain ⟨values, rfl⟩ := exists_eq_nodes fun m hm => (h.nestsWithin_and_exists m hm).2
  refine ⟨values, rfl, fun m hm => ?_⟩
  have hnests : m.2.toNode.NestsWithin 99 := (h.nestsWithin_and_exists _ (List.mem_map_of_mem hm)).1
  exact hnests.mono (by decide)

theorem parse_eq (h : SpellsObject members text) :
    parse (String.ofList text) = ofNode (Json.maxNesting - 1) (.ofMembers members) :=
  h.spells.whole.readText_eq _

theorem readTag_eq_ok (h : SpellsObject members text) {v : Node} (hv : ("type", v) ∈ members) :
    ∃ tag, readTag v = .ok tag := by
  obtain ⟨tag, htag⟩ := h.admitted _ hv _ List.mem_cons_self rfl
  exact ⟨tag, htag.read_eq⟩

end SpellsObject

namespace HasTag

/-- The member that gives the kind is the only one. -/
theorem exists_split {values : List (String × Json)} (h : HasTag (nodes values) tag) :
    ∃ before v after, values = before ++ ("type", v) :: after ∧
      "type" ∉ before.map Prod.fst ∧ "type" ∉ after.map Prod.fst ∧
      readTag v.toNode = .ok tag := by
  obtain ⟨hcount, n, hn, hreads⟩ := h
  rw [map_fst_nodes] at hcount
  have htype : "type" ∈ values.map Prod.fst := List.count_pos_iff.mp (by omega)
  obtain ⟨before, v, after, rfl, hbefore⟩ := exists_first htype
  have hafter : "type" ∉ after.map Prod.fst := by
    rw [List.map_append, List.count_append, List.count_eq_zero_of_not_mem hbefore, List.map_cons,
      List.count_cons_self] at hcount
    exact List.count_eq_zero.mp (by omega)
  refine ⟨before, v, after, rfl, hbefore, hafter, ?_⟩
  have hother {members : List (String × Json)} (h : "type" ∉ members.map Prod.fst) :
      ("type", n) ∉ nodes members :=
    fun hmem => h (map_fst_nodes members ▸ List.mem_map_of_mem hmem)
  rw [nodes_append, List.mem_append, nodes_cons, List.mem_cons] at hn
  have hv : ("type", n) = ("type", v.toNode) :=
    (hn.resolve_left (hother hbefore)).resolve_right (hother hafter)
  cases hv
  exact hreads.read_eq

end HasTag

theorem draft_nil (levels : Nat) (tag : TypeTag) : tag.draft levels [] = {} := by
  simp [TypeTag.draft, given]

/-- What a text means if its kind is known. -/
theorem parse_of_hasTag (htext : SpellsObject members text) (htag : HasTag members tag) :
    parse (String.ofList text) =
      Node.foldMembers (tag.add (Json.maxNesting - 1)) (tag.draft (Json.maxNesting - 1) [])
        (members.map Node.ofMember) >>= tag.finish := by
  obtain ⟨values, rfl, hnests⟩ := htext.exists_values
  obtain ⟨before, v, after, rfl, hbefore, hafter, hread⟩ := htag.exists_split
  have hothers : ∀ m ∈ before ++ after, m.2.toNode.NestsWithin (Json.maxNesting - 1) :=
    fun m hm => hnests m ((List.sublist_cons_self _ _).append_left before |>.subset hm)
  have hskip (d : Draft) : tag.add (Json.maxNesting - 1) d "type" v.toNode = .ok d := by
    refine if_pos fun h => ?_
    rcases TypeTag.eq_of_mem_required h with h | h <;> exact absurd h (by decide)
  rw [htext.parse_eq, ofNode_tag hbefore hafter hothers hread, TypeTag.ofMembers_eq hothers,
    draft_nil, TypeTag.foldMembers_nodes, TypeTag.foldMembers_nodes, List.foldlM_append,
    List.foldlM_append]
  simp only [List.foldlM_cons, hskip, Json.ok_bind]

theorem admitted_of_tag (h : Admitted parts members) (tag : TypeTag) :
    Admitted tag.parts members := by
  have hsub : tag.parts ⊆ parts := by
    cases tag <;> simp [TypeTag.parts, parts]
  exact fun m hm p hp => h m hm p (hsub hp)

theorem parse_of_nodup (htext : SpellsObject members text) (htag : HasTag members tag)
    (honce : (partNames tag.parts members).Nodup) :
    parse (String.ofList text) = tag.finish (tag.draft (Json.maxNesting - 1) members) := by
  have hrun : Node.foldMembers (tag.add (Json.maxNesting - 1)) (tag.draft (Json.maxNesting - 1) [])
      (members.map Node.ofMember) = .ok (tag.draft (Json.maxNesting - 1) ([] ++ members)) :=
    (tag.drafts 124).run (admitted_of_tag htext.admitted tag)
      (skipFault?_eq_none_of_mem htext.spells) honce
  rw [parse_of_hasTag htext htag, hrun, Json.ok_bind, List.nil_append]

theorem given_draft_name (h : Admitted tag.parts members) (hrequired : "name" ∈ tag.required)
    (hname : "name" ∈ members.map Prod.fst) (levels : Nat) :
    ∃ name, (tag.draft levels members).name = some name ∧
      Gives FieldDef.parseName "name" members name := by
  obtain ⟨name, hgiven, hgives⟩ :=
    exists_given keptName_of_readsAs (TypeTag.mem_parts_name hrequired) h hname
  exact ⟨name, by rw [TypeTag.draft, if_pos hrequired, hgiven], hgives⟩

theorem given_draft_underlying (h : Admitted tag.parts members)
    (hrequired : "underlying" ∈ tag.required) (hname : "underlying" ∈ members.map Prod.fst)
    (levels : Nat) :
    ∃ s, (tag.draft (levels + 2) members).underlying = some s ∧
      Gives ScalarDef.parse "underlying" members s := by
  obtain ⟨s, hgiven, hgives⟩ :=
    exists_given keptScalar_of_readsAs (TypeTag.mem_parts_underlying hrequired) h hname
  exact ⟨s, by rw [TypeTag.draft, if_pos hrequired, hgiven], hgives⟩

/-- A draft that lacks parts of its kind is refused for the first of them. -/
theorem finish_draft_missing (h : Admitted tag.parts members) {name : String}
    (hname : tag.required.find? (· ∉ members.map Prod.fst) = some name) (levels : Nat) :
    tag.finish (tag.draft levels members) = .error (.data (.missing name)) := by
  cases tag with
  | scalar s => exact nomatch hname
  | enumeration =>
    rw [TypeTag.required_enumeration] at hname
    by_cases hkey : "name" ∈ members.map Prod.fst
    · obtain ⟨a, hgiven, _⟩ := given_draft_name h List.mem_cons_self hkey levels
      by_cases hunderlying : "underlying" ∈ members.map Prod.fst
      · simp [hkey, hunderlying, -List.mem_map] at hname
      · obtain rfl : "underlying" = name := by
          simpa [List.find?_cons, hkey, hunderlying, -List.mem_map] using hname
        simp [TypeTag.finish, hgiven]
        simp [TypeTag.draft, given_of_not_mem hunderlying]
    · obtain rfl : "name" = name := by simpa [List.find?_cons, hkey, -List.mem_map] using hname
      simp [TypeTag.finish, TypeTag.draft, given_of_not_mem hkey]
  | unsupported =>
    rw [TypeTag.required_unsupported] at hname
    by_cases hkey : "name" ∈ members.map Prod.fst
    · simp [hkey, -List.mem_map] at hname
    · obtain rfl : "name" = name := by simpa [List.find?_cons, hkey, -List.mem_map] using hname
      simp [TypeTag.finish, TypeTag.draft, given_of_not_mem hkey]

/-- A draft that has all parts of its kind is a type. -/
theorem finish_draft (h : Admitted tag.parts members)
    (hrequired : ∀ name ∈ tag.required, name ∈ members.map Prod.fst) (levels : Nat) :
    ∃ t, tag.Means members t ∧ tag.finish (tag.draft (levels + 2) members) = .ok t := by
  cases tag with
  | scalar s => exact ⟨.scalar s, rfl, rfl⟩
  | enumeration =>
    have hname : "name" ∈ TypeTag.required .enumeration := List.mem_cons_self
    have hunderlying : "underlying" ∈ TypeTag.required .enumeration :=
      List.mem_cons_of_mem _ List.mem_cons_self
    obtain ⟨name, hgivenName, hgivesName⟩ :=
      given_draft_name h hname (hrequired _ hname) (levels + 2)
    obtain ⟨s, hgivenScalar, hgivesScalar⟩ :=
      given_draft_underlying h hunderlying (hrequired _ hunderlying) levels
    refine ⟨.enumeration name s, ⟨name, s, rfl, hgivesName, hgivesScalar⟩, ?_⟩
    simp [TypeTag.finish, hgivenName, hgivenScalar]
  | unsupported =>
    have hname : "name" ∈ TypeTag.required .unsupported := List.mem_cons_self
    obtain ⟨name, hgiven, hgives⟩ := given_draft_name h hname (hrequired _ hname) (levels + 2)
    refine ⟨.unsupported name, ⟨name, rfl, hgives⟩, ?_⟩
    simp [TypeTag.finish, hgiven]

/-- A kind that is given twice is refused. -/
theorem parse_of_tagRepeated (htext : SpellsObject members text)
    (hcount : 2 ≤ (members.map Prod.fst).count "type") :
    parse (String.ofList text) = .error (.data (.repeated "type")) := by
  obtain ⟨values, rfl, hnests⟩ := htext.exists_values
  rw [map_fst_nodes] at hcount
  have htype : "type" ∈ values.map Prod.fst := List.count_pos_iff.mp (by omega)
  obtain ⟨before, v, rest, rfl, hbefore⟩ := exists_first htype
  rw [List.map_append, List.count_append, List.count_eq_zero_of_not_mem hbefore, List.map_cons,
    List.count_cons_self] at hcount
  have hrest : "type" ∈ rest.map Prod.fst := List.count_pos_iff.mp (by omega)
  obtain ⟨between, v', after, rfl, hbetween⟩ := exists_first hrest
  obtain ⟨hbeforeNests, hrestNests⟩ := List.forall_mem_append.mp hnests
  obtain ⟨hbetweenNests, _⟩ :=
    List.forall_mem_append.mp (List.forall_mem_cons.mp hrestNests).2
  have hv : ("type", v.toNode) ∈
      nodes (before ++ ("type", v) :: (between ++ ("type", v') :: after)) := by
    rw [nodes_append]
    exact List.mem_append_right _ List.mem_cons_self
  obtain ⟨tag, htag⟩ := htext.readTag_eq_ok hv
  rw [htext.parse_eq]
  exact ofNode_tagRepeated hbefore hbetween
    (List.forall_mem_append.mpr ⟨hbeforeNests, hbetweenNests⟩) htag

/-- If the kind is given once, the text means what the kind and the other members in
their order mean. -/
theorem parse_of_tagOnce {before after : List (String × Node)} {n : Node}
    {values : List (String × Json)} (htext : SpellsObject (before ++ ("type", n) :: after) text)
    (hothers : "type" ∉ (before ++ after).map Prod.fst) (hvalues : before ++ after = nodes values)
    (htag : readTag n = .ok tag) : parse (String.ofList text) = ofMembers values tag := by
  obtain ⟨first, second, rfl, rfl, rfl⟩ := List.append_eq_map_iff.mp hvalues
  have htype : ("type", n) ∈ nodes first ++ ("type", n) :: nodes second :=
    List.mem_append_right _ List.mem_cons_self
  obtain ⟨_, v, rfl⟩ := htext.nestsWithin_and_exists _ htype
  rw [List.map_append, List.mem_append, not_or] at hothers
  obtain ⟨hbefore, hafter⟩ := hothers
  rw [← nodes, map_fst_nodes] at hbefore hafter
  have hnests : ∀ m ∈ first ++ second, m.2.toNode.NestsWithin (Json.maxNesting - 1) := by
    intro m hm
    have hmem : (m.1, m.2.toNode) ∈ nodes first ++ ("type", v.toNode) :: nodes second := by
      have hm : (m.1, m.2.toNode) ∈ nodes (first ++ second) := List.mem_map_of_mem hm
      rw [nodes_append] at hm
      exact (List.sublist_cons_self _ _).append_left _ |>.subset hm
    exact (htext.nestsWithin_and_exists _ hmem).1.mono (by decide)
  have hobject : nodes first ++ ("type", v.toNode) :: nodes second =
      nodes (first ++ ("type", v) :: second) := by
    rw [nodes_append, nodes_cons]
  rw [htext.parse_eq, ← nodes, ← nodes, hobject]
  exact ofNode_tag hbefore hafter hnests htag

theorem two_le_count {before after : List (String × Node)} {n : Node}
    (h : "type" ∈ (before ++ after).map Prod.fst) :
    2 ≤ ((before ++ ("type", n) :: after).map Prod.fst).count "type" := by
  have hcount := List.count_pos_iff.mpr h
  simp only [List.map_append, List.count_append, List.map_cons, List.count_cons_self] at hcount ⊢
  omega

theorem taggedForm : TaggedForm where
  tagRepeated := parse_of_tagRepeated
  tagMissing htext htype := by
    obtain ⟨values, rfl, hnests⟩ := htext.exists_values
    rw [map_fst_nodes] at htype
    rw [htext.parse_eq, ofNode_tagMissing htype hnests]
  repeated {members text tag name} htext htag hname := by
    have hrun : Node.foldMembers (tag.add (Json.maxNesting - 1))
        (tag.draft (Json.maxNesting - 1) []) (members.map Node.ofMember) =
        .error (.data (.repeated name)) :=
      (tag.drafts 124).run_repeated (admitted_of_tag htext.admitted tag)
        (skipFault?_eq_none_of_mem htext.spells) hname
    rw [parse_of_hasTag htext htag, hrun, Json.error_bind]
  missing {members text tag name} htext htag honce hname := by
    rw [parse_of_nodup htext htag honce,
      finish_draft_missing (admitted_of_tag htext.admitted tag) hname]
  accepted {members text tag} htext htag honce hrequired := by
    rw [parse_of_nodup htext htag honce]
    exact finish_draft (admitted_of_tag htext.admitted tag) hrequired 124
  anywhere {before after before' after' n text text'} htext htext' hothers := by
    by_cases htype : "type" ∈ (before ++ after).map Prod.fst
    · rw [parse_of_tagRepeated htext (two_le_count htype),
        parse_of_tagRepeated htext' (two_le_count (hothers ▸ htype))]
    · obtain ⟨tag, htag⟩ :=
        htext.readTag_eq_ok (List.mem_append_right before List.mem_cons_self)
      obtain ⟨values, hvalues⟩ : ∃ values, before ++ after = nodes values :=
        exists_eq_nodes fun m hm => (htext.nestsWithin_and_exists m
          ((List.sublist_cons_self _ _).append_left before |>.subset hm)).2
      rw [parse_of_tagOnce htext htype hvalues htag,
        parse_of_tagOnce htext' (hothers ▸ htype) (hothers ▸ hvalues) htag]

/-- The text `{"name":"a","extra":[],"name":"b","type":"Bool"}`. -/
def repeatedName : Json :=
  .object [("name", .string "a"), ("extra", .array []), ("name", .string "b"),
    ("type", .string "Bool")]

theorem spellsObject_repeatedName :
    SpellsObject [("name", .string (some "a")), ("extra", .array [] .closed),
      ("name", .string (some "b")), ("type", .string (some "Bool"))] repeatedName.render := by
  have hrendered : repeatedName.Rendered := Json.rendered_object (by
    simp [Json.rendered_string, Json.rendered_array])
  have hname (name : String) : ∃ a, (Node.string (some name)).ReadsAs FieldDef.parseName a :=
    ⟨name, trivial, _, Json.rendered_string name, (Json.rendered_string name).readText_eq _⟩
  have htag : ∃ tag, (Node.string (some "Bool")).ReadsAs parseTag tag :=
    ⟨.scalar .bool, trivial, _, Json.rendered_string "Bool",
      (Json.rendered_string "Bool").readText_eq _⟩
  refine ⟨hrendered, ?_, ?_⟩
  · intro m hm p hp hkey
    simp only [parts, List.mem_cons, List.not_mem_nil, or_false] at hm hp
    rcases hm with rfl | rfl | rfl | rfl <;> rcases hp with rfl | rfl | rfl <;>
      first | exact hname _ | exact htag | exact nomatch hkey
  · intro m hm hkey
    simp only [List.mem_cons, List.not_mem_nil, or_false] at hm
    rcases hm with rfl | rfl | rfl | rfl
    · exact absurd hkey (by decide)
    · exact ⟨fun n hn => absurd hn List.not_mem_nil, .array [], rfl⟩
    · exact absurd hkey (by decide)
    · exact absurd hkey (by decide)

/-- A scalar type has no parts that could be repeated, also if its kind comes last. -/
theorem taggedForm_repeatedName :
    parse (String.ofList repeatedName.render) = .ok (.scalar .bool) := by
  have hgives : Gives parseTag "type" [("name", .string (some "a")), ("extra", .array [] .closed),
      ("name", .string (some "b")), ("type", .string (some "Bool"))] (.scalar .bool) :=
    ⟨.string (some "Bool"), by simp, trivial, _, Json.rendered_string "Bool",
      (Json.rendered_string "Bool").readText_eq _⟩
  obtain ⟨t, rfl, ht⟩ := taggedForm.accepted spellsObject_repeatedName ⟨by decide, hgives⟩
    List.nodup_nil (fun name hname => absurd hname List.not_mem_nil)
  exact ht

end TypeDef

/-! ## Numbers just below the largest float -/

namespace Json

/-- A number of nineteen digits just below the largest float. -/
def nearlyTooLarge : List Char :=
  "1797693134862315700e290".toList

theorem isNumeral_nearlyTooLarge : IsNumeral nearlyTooLarge := by
  have hwhole : IsWholePart "1797693134862315700".toList :=
    .digits (by decide) (by decide) (List.all_eq_true.mp rfl)
  have hexponent : IsExponentPart "e290".toList :=
    .unsigned (.inl rfl) ⟨by decide, List.all_eq_true.mp rfl⟩
  exact .parts (.inl rfl) hwhole .none hexponent

/-- The digits and the power of ten are rounded before they are multiplied, and the
product is too large. -/
theorem ofNumeral?_nearlyTooLarge : Number.ofNumeral? nearlyTooLarge = none := by
  decide +kernel

end Json

/-- A number that is not above the largest float, `(2 ^ 53 - 1) * 2 ^ 971`, may be too
large to be kept.  The type is then refused, although its kind needs no other member. -/
theorem TypeDef.parse_nearlyTooLarge :
    1797693134862315700 * 10 ^ 290 ≤ (2 ^ 53 - 1) * 2 ^ 971 ∧
      TypeDef.parse "\x7b\"type\":\"Bool\",\"extra\":1797693134862315700e290\x7d" =
        .error (.fault .malformed) := by
  refine ⟨by decide +kernel, ?_⟩
  have hnumber : Spells (.number none) Json.nearlyTooLarge := by
    have h := Spells.number Json.isNumeral_nearlyTooLarge
    rwa [Json.ofNumeral?_nearlyTooLarge] at h
  let members : List Json.Entry :=
    [⟨some "type", Json.renderString "type", .string (some "Bool"), Json.renderString "Bool"⟩,
      ⟨some "extra", Json.renderString "extra", .number none, Json.nearlyTooLarge⟩]
  have hinside : ∀ c ∈ ([] : List Char), Json.isBlank c := fun c hc => absurd hc List.not_mem_nil
  have hkeys : ∀ m ∈ members, Spells (.string m.key) m.keyText := by
    simp [members, Json.spells_renderString]
  have hvalues : ∀ m ∈ members, Spells m.value m.valueText := by
    simp [members, Json.spells_renderString, hnumber]
  exact (Spells.object hinside hkeys hvalues).whole.readText_eq _

end FlatRecord
