import FlatRecord.Proofs.Json.Grammar

/-!
# Rendered values

The text that is written for a value spells the tree of the value, so a reader of
the text is a reader of that tree.

* `toNode` is the tree of a value.  It has no gaps, and its containers are closed.
* `spells_renderString` is where the writer's escapes meet those of the grammar.
* `Rendered` holds of a value whose text spells its tree.  There is one lemma for
  each way to make a value, numbers apart.
-/

namespace FlatRecord.Json

/-! ## Trees of values -/

mutual

/-- The tree of a value. -/
def toNode : Json → Node
  | null => .null
  | boolean b => .boolean b
  | number n => .number (some n)
  | string s => .string (some s)
  | array items => .array (itemNodes items) .closed
  | object members => .object (memberNodes members) .closed

/-- The tree of each item. -/
def itemNodes : List Json → List Node
  | [] => []
  | v :: rest => toNode v :: itemNodes rest

/-- The trees of each member. -/
def memberNodes : List (String × Json) → List (Node × Node)
  | [] => []
  | (k, v) :: rest => (.string (some k), toNode v) :: memberNodes rest

end

theorem itemNodes_eq_map (items : List Json) : itemNodes items = items.map toNode := by
  induction items with
  | nil => rfl
  | cons v items ih => rw [itemNodes, ih, List.map_cons]

theorem memberNodes_eq_map (members : List (String × Json)) :
    memberNodes members = members.map fun m => (.string (some m.1), m.2.toNode) := by
  induction members with
  | nil => rfl
  | cons m members ih => rw [memberNodes, ih, List.map_cons]

theorem renderItems_eq_map (items : List Json) : renderItems items = items.map render := by
  induction items with
  | nil => rfl
  | cons v items ih => rw [renderItems, ih, List.map_cons]

theorem renderMembers_eq_map (members : List (String × Json)) :
    renderMembers members = members.map fun m => renderString m.1 ++ ':' :: m.2.render := by
  induction members with
  | nil => rfl
  | cons m members ih => rw [renderMembers, ih, List.map_cons]

/-! ## Strings -/

theorem isHexDigit_digitChar {d : Nat} (h : d < 16) : IsHexDigit d (Nat.digitChar d) := by
  have hall : ∀ d < 16, lowerDigits[d]? = some (Nat.digitChar d) := by decide
  exact .inl (hall d h)

/-- A control is escaped by its number. -/
theorem spellsUnit_of_lt {n : Nat} (h : n < 0x20) :
    SpellsUnit n ['0', '0', Nat.digitChar (n / 16), Nat.digitChar (n % 16)] := by
  have hzero : IsHexDigit 0 '0' := isHexDigit_digitChar (by decide)
  have hhigh : IsHexDigit (n / 16) (Nat.digitChar (n / 16)) := isHexDigit_digitChar (by omega)
  have hlow : IsHexDigit (n % 16) (Nat.digitChar (n % 16)) := isHexDigit_digitChar (by omega)
  have hn : ((0 * 16 + 0) * 16 + n / 16) * 16 + n % 16 = n := by omega
  have hunit := SpellsUnit.digits hzero hzero hhigh hlow
  rwa [hn] at hunit

/-- The written form of a character is a piece that stands for it. -/
theorem spellsPieces_escapedChar (c : Char) {pieces : List Piece} {text : List Char}
    (h : SpellsPieces pieces text) :
    ∃ p, SpellsPieces (p :: pieces) (escapedChar c ++ text) ∧
      Piece.text? (p :: pieces) = (Piece.text? pieces).map (c :: ·) := by
  have hshort {letter c : Char} (hletter : (letter, c) ∈ shortEscapes) :
      ∃ p, SpellsPieces (p :: pieces) (['\\', letter] ++ text) ∧
        Piece.text? (p :: pieces) = (Piece.text? pieces).map (c :: ·) :=
    ⟨.char c, .escape hletter h, by rw [Piece.text?]⟩
  unfold escapedChar
  split
  · next hc => rcases hc with rfl | rfl <;> exact hshort (by decide)
  -- The controls with a letter of their own.
  iterate 5
    split
    · next hc => exact hc ▸ hshort (by decide)
  split
  · next hcontrol =>
    have hhigh : isHighSurrogate c.toNat = false := by
      simp [isHighSurrogate]
      omega
    have hlow : isLowSurrogate c.toNat = false := by
      simp [isLowSurrogate]
      omega
    refine ⟨.unit c.toNat, .unit (spellsUnit_of_lt hcontrol) h, ?_⟩
    rw [Piece.text?.eq_def]
    simp [hhigh, hlow]
  · next hquote _ _ _ _ _ hcontrol =>
    refine ⟨.char c, .plain (Nat.le_of_not_lt hcontrol) ?_ ?_ h, by rw [Piece.text?]⟩
    · exact fun hc => hquote (.inl hc)
    · exact fun hc => hquote (.inr hc)

theorem exists_spellsPieces (cs : List Char) :
    ∃ pieces, SpellsPieces pieces (cs.flatMap escapedChar) ∧ Piece.text? pieces = some cs := by
  induction cs with
  | nil => exact ⟨[], .nil, by rw [Piece.text?]⟩
  | cons c cs ih =>
    obtain ⟨pieces, hspells, htext⟩ := ih
    obtain ⟨p, hp, hptext⟩ := spellsPieces_escapedChar c hspells
    exact ⟨p :: pieces, hp, by rw [hptext, htext, Option.map_some]⟩

theorem spells_renderString (s : String) : Spells (.string (some s)) (renderString s) := by
  obtain ⟨pieces, hspells, htext⟩ := exists_spellsPieces s.toList
  have h := Spells.string hspells
  rw [htext, Option.map_some, String.ofList_toList] at h
  exact h

/-! ## Values -/

/-- The text of the value spells its tree. -/
def Rendered (v : Json) : Prop :=
  Spells v.toNode v.render

/-- A reader of the text of a value is a reader of its tree. -/
theorem Rendered.readText_eq {v : Json} (h : v.Rendered) {α : Type}
    (read : Node → Except Problem α) : readText read (String.ofList v.render) = read v.toNode :=
  h.whole.readText_eq read

theorem rendered_null : Rendered .null := by
  rw [Rendered, toNode, render]
  exact .null

theorem rendered_boolean (b : Bool) : Rendered (.boolean b) := by
  cases b <;> rw [Rendered, toNode, render]
  · exact .boolean_false
  · exact .boolean_true

theorem rendered_string (s : String) : Rendered (.string s) := by
  rw [Rendered, toNode, render]
  exact spells_renderString s

theorem render_array (items : List Json) :
    render (.array items) = '[' :: commaSeparated (items.map render) ++ [']'] := by
  rw [render, renderItems_eq_map]

theorem toNode_array (items : List Json) :
    toNode (.array items) = .array (items.map toNode) .closed := by
  rw [toNode, itemNodes_eq_map]

theorem rendered_array {items : List Json} (h : ∀ v ∈ items, Rendered v) :
    Rendered (.array items) := by
  have hinside : ∀ c ∈ ([] : List Char), isBlank c := fun c hc => absurd hc List.not_mem_nil
  have hitems : ∀ x ∈ items.map fun v => (v.toNode, v.render), Spells x.1 x.2 :=
    List.forall_mem_map.mpr h
  have harray := Spells.array hinside hitems
  rw [List.map_map, List.map_map] at harray
  rw [Rendered, toNode_array, render_array]
  exact harray

/-- A member as an entry of the text of its object. -/
def entry (m : String × Json) : Entry :=
  ⟨some m.1, renderString m.1, m.2.toNode, m.2.render⟩

theorem render_object (members : List (String × Json)) :
    render (.object members) =
      '\x7b' :: commaSeparated ((members.map entry).map Entry.text) ++ ['\x7d'] := by
  rw [render, renderMembers_eq_map, List.map_map]
  rfl

theorem toNode_object (members : List (String × Json)) :
    toNode (.object members) = .object ((members.map entry).map Entry.node) .closed := by
  rw [toNode, memberNodes_eq_map, List.map_map]
  rfl

theorem rendered_object {members : List (String × Json)} (h : ∀ m ∈ members, Rendered m.2) :
    Rendered (.object members) := by
  have hinside : ∀ c ∈ ([] : List Char), isBlank c := fun c hc => absurd hc List.not_mem_nil
  have hkeys : ∀ m ∈ members.map entry, Spells (.string m.key) m.keyText :=
    List.forall_mem_map.mpr fun m _ => spells_renderString m.1
  have hvalues : ∀ m ∈ members.map entry, Spells m.value m.valueText :=
    List.forall_mem_map.mpr h
  rw [Rendered, toNode_object, render_object]
  exact .object hinside hkeys hvalues

end FlatRecord.Json
