import FlatRecord.Proofs.Definition.Names
import FlatRecord.Proofs.Json.SelfDelimiting

/-!
# Where definitions end

A file that holds a definition may be cut off, or something may be written behind it.
Neither is ever read as a definition, nor as a part of one.

* `selfDelimiting_toJson` says of the texts that they show where they end.
* `waits_ofNode` says of the readers that they find the end of the text in whatever is
  left of a tree that they accept, be it an object or an array.  The lemmas before it do
  so for the members and items.
* `EndsExactly` puts the two together.
-/

namespace FlatRecord

open Json (Node Problem Waits SelfDelimiting)

/-! ## What is written delimits itself -/

theorem PackingDef.selfDelimiting_toJson (p : PackingDef) : SelfDelimiting p.toJson :=
  Json.selfDelimiting_string _

theorem ScalarDef.selfDelimiting_toJson (s : ScalarDef) : SelfDelimiting s.toJson :=
  Json.selfDelimiting_string _

theorem TypeDef.selfDelimiting_toJson (t : TypeDef) : SelfDelimiting t.toJson := by
  obtain ⟨texts, htexts⟩ := t.exists_toJson_eq
  rw [htexts]
  exact Json.selfDelimiting_object
    (List.forall_mem_map.mpr fun m _ => Json.selfDelimiting_string m.2)

theorem FieldDef.selfDelimiting_toJson (f : FieldDef) : SelfDelimiting f.toJson := by
  refine Json.selfDelimiting_object ?_
  simp [Json.selfDelimiting_string, Json.selfDelimiting_boolean, TypeDef.selfDelimiting_toJson]

theorem Definition.selfDelimiting_toJson (d : Definition) : SelfDelimiting d.toJson := by
  refine Json.selfDelimiting_object ?_
  have hfields : SelfDelimiting (.array (d.fields.map FieldDef.toJson)) :=
    Json.selfDelimiting_array (List.forall_mem_map.mpr fun f _ => f.selfDelimiting_toJson)
  simp [PackingDef.selfDelimiting_toJson, hfields]

/-! ## Readers wait for the rest -/

namespace Json.Node

theorem waits_readChoice {α : Type} (options : List (String × α)) :
    Waits (readChoice options) := by
  intro n left a h hcut
  obtain ⟨name, hname, hn⟩ := readChoice_eq_ok_iff.mp h
  rcases hn with rfl | rfl
  · cases hcut <;> rfl
  · cases hcut with
    | ended => rfl
    | object hmembers hleft =>
      cases hmembers with
      | stop _ => exact absurd rfl hleft
      | within hmember _ =>
        cases hmember with
        | key hkey _ => simp [readChoice, waits_readKey rfl hkey]
        | value _ hvalue => simp [readChoice, hname, waits_readUnit rfl hvalue]
      | next _ hrest =>
        cases hrest
        simp [readChoice, hname, readUnit, Ending.read]

end Json.Node

theorem PackingDef.waits_ofNode : Waits ofNode :=
  Node.waits_readChoice _

theorem ScalarDef.waits_ofNode : Waits ofNode :=
  Node.waits_readChoice _

namespace TypeDef

theorem waits_readTag : Waits readTag :=
  (Node.waits_readString _).bind _

theorem waits_addMember (levels : Nat) (read : Option TypeTag × List (String × Json))
    (name : String) : Waits (addMember levels read name) := by
  unfold addMember
  split_ifs
  · exact (waits_readTag.readOnce _ _).bind _
  · exact (Node.waits_toJson levels).bind _

theorem ofNode_array_cons (levels : Nat) (n : Node) (items : List Node) (ending : Json.Ending) :
    ofNode levels (.array (n :: items) ending) = (do
      let tag ← readTag n
      let values ← items.mapM (Node.toJson levels)
      ending.read
      ofItems values tag) :=
  rfl

theorem waits_ofNode (levels : Nat) : Waits (ofNode levels) := by
  intro n left t h hcut
  cases n with
  | object members ending =>
    obtain ⟨s, hs, _⟩ := Json.bind_eq_ok_iff.mp h
    exact Node.cut_of_object (waits_addMember levels) hcut hs
      (fun s => do ofMembers s.2 (← Json.required "type" s.1)) rfl fun _ _ => rfl
  | array items ending =>
    cases hcut with
    | ended => rfl
    | emptyArray => cases h
    | array hitems =>
      cases hitems with
      | stop _ => rfl
      | within hx _ =>
        rw [ofNode_array_cons] at h ⊢
        obtain ⟨tag, htag, _⟩ := Json.bind_eq_ok_iff.mp h
        rw [waits_readTag htag hx, Json.error_bind]
      | next x hrest =>
        rw [ofNode_array_cons] at h ⊢
        obtain ⟨tag, htag, h⟩ := Json.bind_eq_ok_iff.mp h
        obtain ⟨values, hvalues, _⟩ := Json.bind_eq_ok_iff.mp h
        rw [htag, Json.ok_bind]
        exact Node.mapM_cut (Node.waits_toJson levels) hrest hvalues fun values =>
          ofItems values tag
  | _ => cases h

end TypeDef

namespace FieldDef

theorem waits_readName : Waits readName :=
  Node.waits_readString _

theorem waits_add (levels : Nat) (d : Draft) (key : String) : Waits (d.add levels key) := by
  unfold Draft.add
  split_ifs
  · exact (waits_readName.readOnce _ _).bind _
  · exact ((TypeDef.waits_ofNode levels).readOnce _ _).bind _
  · exact (Node.waits_readBoolean.readOnce _ _).bind _
  · exact Node.waits_skip.bind _

/-- An array that gives a field has its name, its type and nothing or whether it is
included. -/
theorem exists_of_ofNode_array {levels : Nat} {items : List Node} {f : FieldDef}
    (h : ofNode levels (.array items .closed) = .ok f) :
    ∃ n t more, items = n :: t :: more ∧ readName n = .ok f.name ∧
      TypeDef.ofNode levels t = .ok f.type ∧
      (more = [] ∨ ∃ b, more = [b] ∧ b.readBoolean = .ok f.included) := by
  match items with
  | [] => simp [ofNode] at h
  | [n] => simp [ofNode, Json.bind_eq_ok_iff] at h
  | [n, t] =>
    simp only [ofNode, Node.firstItem_cons, Node.firstItem_closed, Json.pure_eq_ok, Json.ok_bind,
      Json.bind_eq_ok_iff] at h
    obtain ⟨_, hname, _, htype, _, _, ⟨⟩⟩ := h
    exact ⟨n, t, [], rfl, hname, htype, .inl rfl⟩
  | [n, t, b] =>
    simp only [ofNode, Node.firstItem_cons, Json.ok_bind, Json.bind_eq_ok_iff] at h
    obtain ⟨_, hname, _, htype, _, hb, _, _, ⟨⟩⟩ := h
    exact ⟨n, t, [b], rfl, hname, htype, .inr ⟨b, rfl, hb⟩⟩
  | n :: t :: b :: _ :: _ =>
    simp [ofNode, Json.bind_eq_ok_iff] at h

theorem waits_ofNode (levels : Nat) : Waits (ofNode levels) := by
  intro n left f h hcut
  cases n with
  | object members ending =>
    obtain ⟨d, hd, _⟩ := Json.bind_eq_ok_iff.mp h
    exact Node.cut_of_object (waits_add levels) hcut hd Draft.finish rfl fun _ _ => rfl
  | array items ending =>
    cases hcut with
    | ended => rfl
    | emptyArray => cases h
    | array hitems =>
      obtain ⟨n, t, more, rfl, hname, htype, hmore⟩ := exists_of_ofNode_array h
      cases hitems with
      | stop _ => rfl
      | within hx _ => simp [ofNode, waits_readName hname hx]
      | next _ hitems =>
        cases hitems with
        | stop _ => simp [ofNode, hname]
        | within hx _ => simp [ofNode, hname, TypeDef.waits_ofNode levels htype hx]
        | next _ hitems =>
          rcases hmore with rfl | ⟨b, rfl, hb⟩
          · cases hitems
            simp [ofNode, hname, htype]
          · cases hitems with
            | stop _ => simp [ofNode, hname, htype]
            | within hx _ => simp [ofNode, hname, htype, Node.waits_readBoolean hb hx]
            | next _ hitems =>
              cases hitems
              simp [ofNode, hname, htype, hb]
  | _ => cases h

end FieldDef

namespace Definition

theorem waits_readFields (levels : Nat) : Waits (readFields levels) :=
  Node.waits_readArray (FieldDef.waits_ofNode levels) rfl

theorem waits_add (levels : Nat) (d : Draft) (key : String) : Waits (d.add levels key) := by
  unfold Draft.add
  split_ifs
  · exact (PackingDef.waits_ofNode.readOnce _ _).bind _
  · exact ((waits_readFields levels).readOnce _ _).bind _
  · exact Node.waits_skip.bind _

/-- An array that gives a definition has its packing and its fields. -/
theorem exists_of_ofNode_array {levels : Nat} {items : List Node} {d : Definition}
    (h : ofNode levels (.array items .closed) = .ok d) :
    ∃ p fs, items = [p, fs] ∧ PackingDef.ofNode p = .ok d.packing ∧
      readFields levels fs = .ok d.fields := by
  match items with
  | [] => simp [ofNode] at h
  | [p] => simp [ofNode, Json.bind_eq_ok_iff] at h
  | [p, fs] =>
    simp only [ofNode, Node.firstItem_cons, Json.ok_bind, Json.bind_eq_ok_iff] at h
    obtain ⟨_, hpacking, _, hfields, _, _, ⟨⟩⟩ := h
    exact ⟨p, fs, rfl, hpacking, hfields⟩
  | p :: fs :: _ :: _ =>
    simp [ofNode, Json.bind_eq_ok_iff] at h

theorem waits_ofNode (levels : Nat) : Waits (ofNode levels) := by
  intro n left d h hcut
  cases n with
  | object members ending =>
    obtain ⟨s, hs, _⟩ := Json.bind_eq_ok_iff.mp h
    exact Node.cut_of_object (waits_add levels) hcut hs Draft.finish rfl fun _ _ => rfl
  | array items ending =>
    cases hcut with
    | ended => rfl
    | emptyArray => cases h
    | array hitems =>
      obtain ⟨p, fs, rfl, hpacking, hfields⟩ := exists_of_ofNode_array h
      cases hitems with
      | stop _ => rfl
      | within hx _ =>
        simp [ofNode, PackingDef.waits_ofNode hpacking hx]
      | next _ hitems =>
        cases hitems with
        | stop _ => simp [ofNode, hpacking]
        | within hx _ =>
          simp [ofNode, hpacking, waits_readFields levels hfields hx]
        | next _ hitems =>
          cases hitems
          simp [ofNode, hpacking, hfields]
  | _ => cases h

end Definition

/-! ## Texts -/

/-- Of the texts that begin as a written value does, the reader accepts that one, with
whitespace behind it or not, and no other.  A shorter one ends too early for it. -/
structure EndsExactly {α : Type} (toJson : α → Json) (parse : String → Except Problem α) :
    Prop where
  cut (a : α) {p : List Char} (h : p <+: (toJson a).render) (hne : p ≠ (toJson a).render) :
    parse (String.ofList p) = .error (.fault .unexpectedEnd)
  blanks (a : α) {more : List Char} (h : ∀ c ∈ more, Json.isBlank c) :
    parse (String.ofList ((toJson a).render ++ more)) = .ok a
  trailing (a : α) {more : List Char} (h : ¬ ∀ c ∈ more, Json.isBlank c) :
    parse (String.ofList ((toJson a).render ++ more)) = .error (.fault .malformed)

theorem EndsExactly.of_readText {α : Type} {toJson : α → Json} {read : Node → Except Problem α}
    (hdelimiting : ∀ a, SelfDelimiting (toJson a)) (hwaits : Waits read)
    (hread : ∀ a, read (toJson a).toNode = .ok a) :
    EndsExactly toJson (Json.readText read) where
  cut a _ h hne := (hdelimiting a).readText_cut hwaits (hread a) (Json.cutOff_iff.mpr ⟨h, hne⟩)
  blanks a _ h := (hdelimiting a).readText_blanks (hread a) h
  trailing a _ h := (hdelimiting a).readText_trailing (hread a) h

/-- A file that has been cut off or has grown is never read as another definition, and
neither is any part of a definition. -/
theorem Definition.endsExactly_and_parts :
    EndsExactly Definition.toJson Definition.parse ∧ EndsExactly FieldDef.toJson FieldDef.parse ∧
    EndsExactly TypeDef.toJson TypeDef.parse ∧ EndsExactly ScalarDef.toJson ScalarDef.parse ∧
    EndsExactly PackingDef.toJson PackingDef.parse :=
  ⟨.of_readText selfDelimiting_toJson (waits_ofNode _) (ofNode_toJson _),
    .of_readText FieldDef.selfDelimiting_toJson (FieldDef.waits_ofNode _)
      (FieldDef.ofNode_toJson _),
    .of_readText TypeDef.selfDelimiting_toJson (TypeDef.waits_ofNode _)
      (TypeDef.ofNode_toJson _),
    .of_readText ScalarDef.selfDelimiting_toJson ScalarDef.waits_ofNode ScalarDef.ofNode_toJson,
    .of_readText PackingDef.selfDelimiting_toJson PackingDef.waits_ofNode PackingDef.ofNode_toJson⟩

/-- A name that has to be escaped.  Its text may break off within the escape, a quote too
many is refused, and a line may end behind it. -/
theorem Definition.endsExactly_control :
    TypeDef.parse
        (String.ofList "\x7b\"type\":\"Unsupported\",\"name\":\"\\u00".toList) =
      .error (.fault .unexpectedEnd) ∧
    TypeDef.parse (String.ofList ((TypeDef.unsupported "\x01").toJson.render ++ ['"'])) =
      .error (.fault .malformed) ∧
    TypeDef.parse (String.ofList ((TypeDef.unsupported "\x01").toJson.render ++ ['\n'])) =
      .ok (.unsupported "\x01") := by
  have htype : EndsExactly TypeDef.toJson TypeDef.parse := endsExactly_and_parts.2.2.1
  have hquote : ¬ ∀ c ∈ ['"'], Json.isBlank c := fun h => nomatch h '"' List.mem_cons_self
  have hline : ∀ c ∈ ['\n'], Json.isBlank c := List.forall_mem_singleton.mpr rfl
  refine ⟨htype.cut (.unsupported "\x01") ?_ ?_, htype.trailing _ hquote, htype.blanks _ hline⟩
  · decide +kernel
  · decide +kernel

end FlatRecord
