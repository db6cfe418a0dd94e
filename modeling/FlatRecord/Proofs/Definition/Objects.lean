import FlatRecord.Proofs.Definition.Levels
import FlatRecord.Proofs.Json.Grammar
import Mathlib.Data.List.Induction

/-!
# Records given as objects

What a definition or a field given as an object means.  The members may come in any
order and with any whitespace, and members that are no parts of the record are passed
over.  A part that is given twice is refused, and so is a record that lacks a part
without a default.

* `ObjectForm` says this of a parser, with the parts of the record as parameters.
* `Drafts` says what one member does to a draft, and `Drafts.run` and
  `Drafts.run_repeated` are the inductions over the members.
* `given` is the value that a draft holds for a part.
-/

namespace FlatRecord

open Json (Node Problem Spells)

namespace Json

variable {α : Type}

/-- The tree of a member whose key is a text. -/
def Node.ofMember (m : String × Node) : Node × Node :=
  (.string (some m.1), m.2)

/-- The tree of an object whose keys are texts. -/
def Node.ofMembers (members : List (String × Node)) : Node :=
  .object (members.map Node.ofMember) .closed

/-- Fewer than 100 containers lie in each other in the value, and where it is all that
a text holds it is read as `a`. -/
def Node.ReadsAs (parse : String → Except Problem α) (v : Node) (a : α) : Prop :=
  v.NestsWithin 99 ∧ ∃ text, Spells v text ∧ parse (String.ofList text) = .ok a

end Json

/-! ## What objects mean -/

/-- A part that a record may have: its name, and the values that are accepted for it. -/
structure Part where
  name : String
  Accepts : Node → Prop

/-- The part whose values `parse` reads. -/
def Part.of {α : Type} (name : String) (parse : String → Except Problem α) : Part where
  name := name
  Accepts v := ∃ a, v.ReadsAs parse a

/-- Every value that is given for a part is accepted for it. -/
def Admitted (parts : List Part) (members : List (String × Node)) : Prop :=
  ∀ m ∈ members, ∀ p ∈ parts, p.name = m.1 → p.Accepts m.2

/-- The names of parts among the keys, in order. -/
def partNames (parts : List Part) (members : List (String × Node)) : List String :=
  (members.map Prod.fst).filter (· ∈ parts.map Part.name)

/-- Going through the members in order, the first part that is there a second time is
the one with this name. -/
def RepeatsFirst (parts : List Part) (members : List (String × Node)) (name : String) : Prop :=
  ∃ before v after, members = before ++ (name, v) :: after ∧
    name ∈ partNames parts before ∧ (partNames parts before).Nodup

/-- `a` is what is given under a name. -/
def Gives {α : Type} (parse : String → Except Problem α) (name : String)
    (members : List (String × Node)) (a : α) : Prop :=
  ∃ v, (name, v) ∈ members ∧ v.ReadsAs parse a

/-- `a` is what is given under a name, or the default if the name does not occur. -/
def GivesOr {α : Type} (default : α) (parse : String → Except Problem α) (name : String)
    (members : List (String × Node)) (a : α) : Prop :=
  Gives parse name members a ∨ name ∉ members.map Prod.fst ∧ a = default

/-- What a parser makes of texts of objects.  `Means` is what the members mean for the
record if every required part is there, and none is there twice. -/
structure ObjectForm {α : Type} (parse : String → Except Problem α) (parts : List Part)
    (required : List String) (Means : List (String × Node) → α → Prop) : Prop where
  /-- A repeated part is refused where it occurs for the second time. -/
  repeated {members : List (String × Node)} {text : List Char} {name : String}
    (htext : Spells (.ofMembers members) text) (hadmitted : Admitted parts members)
    (hname : RepeatsFirst parts members name) :
    parse (String.ofList text) = .error (.data (.repeated name))
  /-- Otherwise the first part that is required and absent is reported. -/
  missing {members : List (String × Node)} {text : List Char} {name : String}
    (htext : Spells (.ofMembers members) text) (hadmitted : Admitted parts members)
    (honce : (partNames parts members).Nodup)
    (hname : required.find? (· ∉ members.map Prod.fst) = some name) :
    parse (String.ofList text) = .error (.data (.missing name))
  /-- Otherwise the record has what is given and the defaults. -/
  accepted {members : List (String × Node)} {text : List Char}
    (htext : Spells (.ofMembers members) text) (hadmitted : Admitted parts members)
    (honce : (partNames parts members).Nodup)
    (hrequired : ∀ name ∈ required, name ∈ members.map Prod.fst) :
    ∃ a, Means members a ∧ parse (String.ofList text) = .ok a
  /-- Objects with the same parts, whatever their order and whatever else the objects
  hold, are the same record. -/
  stable {members members' : List (String × Node)} {text text' : List Char} {a : α}
    (htext : Spells (.ofMembers members) text) (htext' : Spells (.ofMembers members') text')
    (hadmitted : Admitted parts members)
    (hperm : (members.filter (·.1 ∈ parts.map Part.name)).Perm
      (members'.filter (·.1 ∈ parts.map Part.name)))
    (ha : parse (String.ofList text) = .ok a) : parse (String.ofList text') = .ok a

variable {parts : List Part} {members done : List (String × Node)} {name : String}

theorem mem_partNames :
    name ∈ partNames parts members ↔
      name ∈ members.map Prod.fst ∧ name ∈ parts.map Part.name := by
  rw [partNames, List.mem_filter, decide_eq_true_eq]

theorem partNames_append (members' : List (String × Node)) :
    partNames parts (members ++ members') = partNames parts members ++ partNames parts members' := by
  rw [partNames, List.map_append, List.filter_append]
  rfl

theorem nodup_partNames_append {m : String × Node} :
    (partNames parts (done ++ [m])).Nodup ↔
      (partNames parts done).Nodup ∧ m.1 ∉ partNames parts done := by
  rw [partNames_append]
  by_cases hm : m.1 ∈ parts.map Part.name
  · have hnames : partNames parts [m] = [m.1] := by simp [partNames, -List.mem_map, hm]
    rw [hnames, List.nodup_append]
    constructor
    · rintro ⟨honce, _, hne⟩
      exact ⟨honce, fun hmem => hne m.1 hmem m.1 List.mem_cons_self rfl⟩
    · rintro ⟨honce, hmem⟩
      refine ⟨honce, List.pairwise_singleton _ _, fun a ha b hb hab => hmem ?_⟩
      rwa [← List.mem_singleton.mp hb, ← hab]
  · have hnames : partNames parts [m] = [] := by simp [partNames, -List.mem_map, hm]
    rw [hnames, List.append_nil]
    exact ⟨fun h => ⟨h, fun hmem => hm (mem_partNames.mp hmem).2⟩, And.left⟩

/-- Either no part is there twice, or one of them is the first to be. -/
theorem nodup_or_repeatsFirst (parts : List Part) (members : List (String × Node)) :
    (partNames parts members).Nodup ∨ ∃ name, RepeatsFirst parts members name := by
  induction members using List.reverseRecOn with
  | nil => exact .inl List.nodup_nil
  | append_singleton members m ih =>
    rcases ih with honce | ⟨name, before, v, after, rfl, hmem, hbefore⟩
    · by_cases hm : m.1 ∈ partNames parts members
      · exact .inr ⟨m.1, members, m.2, [], rfl, hm, honce⟩
      · exact .inl (nodup_partNames_append.mpr ⟨honce, hm⟩)
    · exact .inr ⟨name, before, v, after ++ [m], by simp, hmem, hbefore⟩

/-! ## Values of parts -/

section Given

variable {α : Type} {parse : String → Except Problem α} {read : Node → Except Problem α}
  {v : Node}

theorem lookup_eq_none (h : name ∉ members.map Prod.fst) : members.lookup name = none := by
  rw [List.lookup_eq_none_iff]
  intro m hm
  exact bne_iff_ne.mpr fun heq => h (heq ▸ List.mem_map_of_mem hm)

theorem exists_lookup (h : name ∈ members.map Prod.fst) :
    ∃ v, (name, v) ∈ members ∧ members.lookup name = some v := by
  cases hlookup : members.lookup name with
  | none =>
    obtain ⟨m, hm, rfl⟩ := List.mem_map.mp h
    exact absurd rfl (bne_iff_ne.mp (List.lookup_eq_none_iff.mp hlookup m hm))
  | some v =>
    obtain ⟨before, after, rfl, _⟩ := List.lookup_eq_some_iff.mp hlookup
    exact ⟨v, List.mem_append_right _ List.mem_cons_self, rfl⟩

/-- What is given under a name, if it can be read. -/
def given (read : Node → Except Problem α) (name : String) (members : List (String × Node)) :
    Option α :=
  (members.lookup name).bind fun v => (read v).toOption

theorem given_of_not_mem (h : name ∉ members.map Prod.fst) : given read name members = none := by
  rw [given, lookup_eq_none h, Option.bind_none]

theorem given_append_of_ne {key : String} (h : name ≠ key) :
    given read name (members ++ [(key, v)]) = given read name members := by
  have hkey : name ∉ [(key, v)].map Prod.fst := by simpa using h
  rw [given, List.lookup_append, lookup_eq_none hkey, Option.or_none, given]

variable (hplace : ∀ v a, v.ReadsAs parse a → read v = .ok a)
  (hpart : Part.of name parse ∈ parts) (hadmitted : Admitted parts members)

include hplace hpart hadmitted

/-- A part that occurs is given. -/
theorem exists_given (h : name ∈ members.map Prod.fst) :
    ∃ a, given read name members = some a ∧ Gives parse name members a := by
  obtain ⟨v, hmem, hlookup⟩ := exists_lookup h
  obtain ⟨a, ha⟩ := hadmitted _ hmem _ hpart rfl
  refine ⟨a, ?_, v, hmem, ha⟩
  rw [given, hlookup, Option.bind_some, hplace v a ha]
  rfl

/-- A part with a default is given or has its default. -/
theorem givesOr_given (default : α) :
    GivesOr default parse name members ((given read name members).getD default) := by
  by_cases h : name ∈ members.map Prod.fst
  · obtain ⟨a, hgiven, hgives⟩ := exists_given hplace hpart hadmitted h
    exact .inl (hgiven ▸ hgives)
  · exact .inr ⟨h, by rw [given_of_not_mem h, Option.getD_none]⟩

/-- A part that is there already is refused. -/
theorem readOnce_given_repeated (h : name ∈ partNames parts members) (x : Except Problem α) :
    Json.readOnce name (given read name members) x = .error (.data (.repeated name)) := by
  obtain ⟨a, hgiven, _⟩ := exists_given hplace hpart hadmitted (mem_partNames.mp h).1
  rw [hgiven, Json.readOnce_some]

omit hadmitted in
/-- A part that is there for the first time is taken. -/
theorem readOnce_given_next (hadmitted : Admitted parts [(name, v)])
    (h : name ∉ partNames parts members) :
    Json.readOnce name (given read name members) (read v) =
      .ok (given read name (members ++ [(name, v)])) := by
  have hfirst : name ∉ members.map Prod.fst :=
    fun hmem => h (mem_partNames.mpr ⟨hmem, List.mem_map_of_mem hpart⟩)
  obtain ⟨a, ha⟩ := hadmitted _ List.mem_cons_self _ hpart rfl
  have hread : read v = .ok a := hplace v a ha
  have hlast : given read name (members ++ [(name, v)]) = some a := by
    simp [given, List.lookup_append, lookup_eq_none hfirst, hread, Except.toOption]
  rw [given_of_not_mem hfirst, hread, hlast, Json.readOnce_none]

end Given

/-! ## Drafts -/

section Drafts

variable {σ α : Type} {add : σ → String → Node → Except Problem σ}
  {draft : List (String × Node) → σ}

/-- The draft is a function of the members so far, and `add` takes a member into it. -/
structure Drafts (parts : List Part) (add : σ → String → Node → Except Problem σ)
    (draft : List (String × Node) → σ) : Prop where
  /-- A part that is there already is refused. -/
  repeated {done : List (String × Node)} (hadmitted : Admitted parts done) {name : String}
    (hname : name ∈ partNames parts done) (v : Node) :
    add (draft done) name v = .error (.data (.repeated name))
  /-- Any other member is taken. -/
  next {done : List (String × Node)} {m : String × Node} (hadmitted : Admitted parts [m])
    (hskip : m.2.skipFault? = none) (hname : m.1 ∉ partNames parts done) :
    add (draft done) m.1 m.2 = .ok (draft (done ++ [m]))
  /-- Nothing counts but the values of parts. -/
  congr {members members' : List (String × Node)}
    (h : ∀ p ∈ parts, members.lookup p.name = members'.lookup p.name) :
    draft members = draft members'

namespace Drafts

/-- If no part is there twice, all members are taken. -/
theorem run (h : Drafts parts add draft) (hadmitted : Admitted parts members)
    (hskip : ∀ m ∈ members, m.2.skipFault? = none)
    (honce : (partNames parts (done ++ members)).Nodup) :
    Node.foldMembers add (draft done) (members.map Node.ofMember) =
      .ok (draft (done ++ members)) := by
  induction members generalizing done with
  | nil => rw [List.append_nil]; rfl
  | cons m members ih =>
    obtain ⟨hm, hmembers⟩ := List.forall_mem_cons.mp hadmitted
    obtain ⟨hmskip, hskip⟩ := List.forall_mem_cons.mp hskip
    rw [List.append_cons] at honce ⊢
    have hfirst : m.1 ∉ partNames parts done := by
      rw [partNames_append] at honce
      exact (nodup_partNames_append.mp (List.nodup_append.mp honce).1).2
    rw [List.map_cons, Node.ofMember, Node.foldMembers_cons,
      h.next (List.forall_mem_singleton.mpr hm) hmskip hfirst, Json.ok_bind]
    exact ih hmembers hskip honce

/-- If a part is there twice, the reader stops at it. -/
theorem run_repeated (h : Drafts parts add draft) (hadmitted : Admitted parts members)
    (hskip : ∀ m ∈ members, m.2.skipFault? = none) (hname : RepeatsFirst parts members name) :
    Node.foldMembers add (draft []) (members.map Node.ofMember) =
      .error (.data (.repeated name)) := by
  obtain ⟨before, v, after, rfl, hmem, honce⟩ := hname
  obtain ⟨hbefore, _⟩ := List.forall_mem_append.mp hadmitted
  obtain ⟨hbeforeSkip, _⟩ := List.forall_mem_append.mp hskip
  have htaken : Node.foldMembers add (draft []) (before.map Node.ofMember) =
      .ok (draft ([] ++ before)) :=
    h.run hbefore hbeforeSkip honce
  rw [List.map_append, Node.foldMembers_append, htaken, Json.ok_bind, List.map_cons,
    Node.ofMember, Node.foldMembers_cons, List.nil_append, h.repeated hbefore hmem,
    Json.error_bind]

end Drafts

/-! ## Objects -/

/-- In an object that is spelled, every member can be passed over. -/
theorem skipFault?_eq_none_of_mem {text : List Char} (htext : Spells (.ofMembers members) text) :
    ∀ m ∈ members, m.2.skipFault? = none := by
  intro m hm
  obtain ⟨_, hvalue⟩ := htext.exists_of_mem_object (List.mem_map_of_mem hm)
  exact hvalue.whole.skipFault?_eq

theorem partNames_eq_map_filter (parts : List Part) (members : List (String × Node)) :
    partNames parts members = (members.filter (·.1 ∈ parts.map Part.name)).map Prod.fst :=
  List.filter_map

/-- If no part is there twice, its value is the only one under its name. -/
theorem lookup_eq_some_iff_mem (honce : (partNames parts members).Nodup) {p : Part}
    (hp : p ∈ parts) {v : Node} : members.lookup p.name = some v ↔ (p.name, v) ∈ members := by
  constructor
  · intro h
    obtain ⟨before, after, rfl, _⟩ := List.lookup_eq_some_iff.mp h
    exact List.mem_append_right _ List.mem_cons_self
  · intro h
    obtain ⟨before, after, rfl⟩ := List.append_of_mem h
    have hbefore : p.name ∉ before.map Prod.fst := by
      rw [List.append_cons, partNames_append] at honce
      have honce := nodup_partNames_append.mp (List.nodup_append.mp honce).1
      exact fun hmem => honce.2 (mem_partNames.mpr ⟨hmem, List.mem_map_of_mem hp⟩)
    rw [List.lookup_append, lookup_eq_none hbefore, Option.none_or, List.lookup_cons_self]

section Perm

variable {members' : List (String × Node)}
  (hperm : (members.filter (·.1 ∈ parts.map Part.name)).Perm
    (members'.filter (·.1 ∈ parts.map Part.name)))

include hperm

theorem mem_iff_of_perm {p : Part} (hp : p ∈ parts) (v : Node) :
    (p.name, v) ∈ members ↔ (p.name, v) ∈ members' := by
  have hname : p.name ∈ parts.map Part.name := List.mem_map_of_mem hp
  have hmem := hperm.mem_iff (a := (p.name, v))
  simpa only [List.mem_filter, hname, decide_true, and_true] using hmem

theorem nodup_partNames_of_perm (honce : (partNames parts members).Nodup) :
    (partNames parts members').Nodup := by
  rw [partNames_eq_map_filter] at honce ⊢
  exact (hperm.map Prod.fst).nodup_iff.mp honce

theorem admitted_of_perm (h : Admitted parts members) : Admitted parts members' := by
  rintro ⟨_, v⟩ hm p hp rfl
  exact h _ ((mem_iff_of_perm hperm hp v).mpr hm) p hp rfl

/-- The values of parts do not depend on the order of the members. -/
theorem lookup_eq_of_perm (honce : (partNames parts members).Nodup) {p : Part} (hp : p ∈ parts) :
    members.lookup p.name = members'.lookup p.name := by
  ext v
  rw [lookup_eq_some_iff_mem honce hp, mem_iff_of_perm hperm hp,
    lookup_eq_some_iff_mem (nodup_partNames_of_perm hperm honce) hp]

end Perm

/-- A reader that takes the members of an object into a draft and finishes the draft
reads the object form of its record. -/
theorem ObjectForm.of_drafts {read : Node → Except Problem α} {finish : σ → Except Problem α}
    {required : List String} {Means : List (String × Node) → α → Prop}
    (h : Drafts parts add draft)
    (hread : ∀ members : List (String × Node), read (.ofMembers members) =
      Node.foldMembers add (draft []) (members.map Node.ofMember) >>= finish)
    (hmissing : ∀ members : List (String × Node), Admitted parts members → ∀ name,
      required.find? (· ∉ members.map Prod.fst) = some name →
      finish (draft members) = .error (.data (.missing name)))
    (hfinish : ∀ members : List (String × Node), Admitted parts members →
      (∀ name ∈ required, name ∈ members.map Prod.fst) →
      ∃ a, Means members a ∧ finish (draft members) = .ok a) :
    ObjectForm (Json.readText read) parts required Means := by
  have hparse {members : List (String × Node)} {text : List Char}
      (htext : Spells (.ofMembers members) text) :
      Json.readText read (String.ofList text) =
        Node.foldMembers add (draft []) (members.map Node.ofMember) >>= finish := by
    rw [htext.whole.readText_eq, hread]
  have hrun {members : List (String × Node)} {text : List Char}
      (htext : Spells (.ofMembers members) text) (hadmitted : Admitted parts members)
      (honce : (partNames parts members).Nodup) :
      Json.readText read (String.ofList text) = finish (draft members) := by
    have htaken : Node.foldMembers add (draft []) (members.map Node.ofMember) =
        .ok (draft ([] ++ members)) :=
      h.run hadmitted (skipFault?_eq_none_of_mem htext) honce
    rw [hparse htext, htaken, Json.ok_bind, List.nil_append]
  have hrepeated {members : List (String × Node)} {text : List Char} {name : String}
      (htext : Spells (.ofMembers members) text) (hadmitted : Admitted parts members)
      (hname : RepeatsFirst parts members name) :
      Json.readText read (String.ofList text) = .error (.data (.repeated name)) := by
    rw [hparse htext, h.run_repeated hadmitted (skipFault?_eq_none_of_mem htext) hname,
      Json.error_bind]
  exact
    { repeated := hrepeated
      missing := fun htext hadmitted honce hname => by
        rw [hrun htext hadmitted honce, hmissing _ hadmitted _ hname]
      accepted := fun htext hadmitted honce hrequired => by
        rw [hrun htext hadmitted honce]
        exact hfinish _ hadmitted hrequired
      stable := fun {members members' text text' a} htext htext' hadmitted hperm ha => by
        have honce : (partNames parts members).Nodup := by
          rcases nodup_or_repeatsFirst parts members with honce | ⟨name, hname⟩
          · exact honce
          · rw [hrepeated htext hadmitted hname] at ha
            exact nomatch ha
        rw [hrun htext' (admitted_of_perm hperm hadmitted) (nodup_partNames_of_perm hperm honce),
          ← h.congr fun p hp => lookup_eq_of_perm hperm honce hp, ← hrun htext hadmitted honce, ha] }

end Drafts

end FlatRecord
