import FlatRecord.Json.Reader
import FlatRecord.Proofs.Json.Tokens

/-!
# Trees of whole texts

A text is whole if it is one JSON value and nothing else.  This module puts whole
texts together: a whole text between brackets, commas and colons is read as the
same tree that it is read as alone.

* `Document.Intact` is what the tree of a whole text shows.
  `Document.not_intact_of_advance` says that a tree that is finished before the end
  of the text never shows it.
* `Document.build_append` is the induction over the tokens: what is read of a whole
  text touches neither the containers around it nor the tokens behind it.
* `Whole.build_scan` is the same for characters.  `Whole.array` and `Whole.object`
  are the two ways to put whole texts together, and `build_array` and `build_object`
  are what they make of the texts around.
-/

namespace FlatRecord.Json

namespace Document

/-- The text is one value, and nothing in it is missing. -/
structure Intact (d : Document) : Prop where
  trailing_eq : d.trailing = false
  skipFault?_eq : d.root.skipFault? = none

/-! ## Trees that are finished early -/

/-- A container that is cut shows its fault, however deep it lies. -/
theorem isSome_skipFault?_foldl {f : Fault} {value : Node} {frames : List Frame}
    (h : value.skipFault?.isSome ∨ frames ≠ []) :
    (frames.foldl (fun node frame => frame.plug node (.cut f)) value).skipFault?.isSome := by
  induction frames generalizing value with
  | nil =>
    rcases h with h | h
    · exact h
    · exact absurd rfl h
  | cons frame frames ih =>
    apply ih
    left
    cases frame <;> rfl

theorem not_intact_cut {f : Fault} {value : Node} {frames : List Frame}
    (h : value.skipFault?.isSome ∨ frames ≠ []) : ¬ (cut f value frames).Intact := by
  intro hd
  have hsome : (cut f value frames).root.skipFault?.isSome := isSome_skipFault?_foldl h
  rw [hd.skipFault?_eq] at hsome
  exact nomatch hsome

theorem not_intact_atGap (g : Gap) (frames : List Frame) : ¬ (atGap g frames).Intact :=
  not_intact_cut (.inl rfl)

theorem not_intact_atKey (g : Gap) (members : List (Node × Node)) (frames : List Frame) :
    ¬ (atKey g members frames).Intact :=
  not_intact_cut (.inl rfl)

variable {e e' : Expecting} {frames frames' : List Frame} {t : Token} {d : Document}

theorem not_intact_of_startValue (h : startValue frames t = .error d) : ¬ d.Intact := by
  unfold startValue at h
  split at h <;> cases h <;> exact not_intact_atGap _ _

theorem not_intact_of_startKey {members : List (Node × Node)}
    (h : startKey members frames t = .error d) : ¬ d.Intact := by
  unfold startKey at h
  split at h <;> cases h <;> exact not_intact_atKey _ _ _

/-- A token that cannot stand where it does is no part of a whole text. -/
theorem not_intact_of_advance (h : advance frames t e = .error d) : ¬ d.Intact := by
  cases e with
  | value => exact not_intact_of_startValue h
  | key members => exact not_intact_of_startKey h
  | firstItem =>
    rw [advance] at h
    split at h
    · exact nomatch h
    · exact not_intact_of_startValue h
  | firstKey =>
    rw [advance] at h
    split at h
    · exact nomatch h
    · exact not_intact_of_startKey h
  | colon members key =>
    rw [advance] at h
    split at h
    · exact nomatch h
    · cases h
      exact not_intact_atGap _ _
  | separator value =>
    cases frames with
    | nil =>
      cases h
      exact fun hd => nomatch hd.trailing_eq
    | cons frame outer =>
      cases frame <;>
      · simp only [advance] at h
        split at h
        · exact nomatch h
        · split at h
          · exact nomatch h
          · cases h
            exact not_intact_cut (.inr (List.cons_ne_nil _ _))

/-- Neither is a scalar that breaks off. -/
theorem exists_advance_eq_error (ht : t.isBroken) : ∃ d, advance frames t e = .error d := by
  have hsides : (∃ b, t = .brokenString b) ∨ ∃ b, t = .brokenScalar b := by
    cases t with
    | brokenString b => exact .inl ⟨b, rfl⟩
    | brokenScalar b => exact .inr ⟨b, rfl⟩
    | _ => simp [Token.isBroken] at ht
  obtain ⟨b, rfl⟩ | ⟨b, rfl⟩ := hsides
  all_goals
    cases e with
    | value => exact ⟨_, rfl⟩
    | key members => exact ⟨_, rfl⟩
    | firstItem => exact ⟨_, rfl⟩
    | firstKey => exact ⟨_, rfl⟩
    | colon members key => exact ⟨_, rfl⟩
    | separator value =>
      cases frames with
      | nil => exact ⟨_, rfl⟩
      | cons frame outer => cases frame <;> exact ⟨_, rfl⟩

/-- At the end of a whole text, its value is complete and no container is open. -/
theorem eq_separator_of_finish (h : (finish e frames).Intact) :
    e = .separator (finish e frames).root ∧ frames = [] := by
  cases e with
  | separator value =>
    cases frames with
    | nil => exact ⟨rfl, rfl⟩
    | cons frame outer => exact absurd h (not_intact_cut (.inr (List.cons_ne_nil _ _)))
  | firstKey => exact absurd h (not_intact_atKey _ _ _)
  | key members => exact absurd h (not_intact_atKey _ _ _)
  | value => exact absurd h (not_intact_atGap _ _)
  | firstItem => exact absurd h (not_intact_atGap _ _)
  | colon members key => exact absurd h (not_intact_atGap _ _)

/-! ## Texts that go on -/

theorem startValue_append (h : startValue frames t = .ok (e', frames')) (outer : List Frame) :
    startValue (frames ++ outer) t = .ok (e', frames' ++ outer) := by
  unfold startValue at h ⊢
  split at h <;> cases h <;> rfl

theorem startKey_append {members : List (Node × Node)}
    (h : startKey members frames t = .ok (e', frames')) (outer : List Frame) :
    startKey members (frames ++ outer) t = .ok (e', frames' ++ outer) := by
  unfold startKey at h ⊢
  split at h <;> cases h
  rfl

/-- A step does not look at the containers around those that are open. -/
theorem advance_append (h : advance frames t e = .ok (e', frames')) (outer : List Frame) :
    advance (frames ++ outer) t e = .ok (e', frames' ++ outer) := by
  cases e with
  | value => exact startValue_append h outer
  | key members => exact startKey_append h outer
  | firstItem =>
    rw [advance] at h ⊢
    split at h
    · next ht =>
      cases h
      rw [if_pos ht]
    · next ht =>
      rw [if_neg ht]
      exact startValue_append h outer
  | firstKey =>
    rw [advance] at h ⊢
    split at h
    · next ht =>
      cases h
      rw [if_pos ht]
    · next ht =>
      rw [if_neg ht]
      exact startKey_append h outer
  | colon members key =>
    rw [advance] at h ⊢
    split at h
    · next ht =>
      cases h
      rw [if_pos ht, List.cons_append]
    · exact nomatch h
  | separator value =>
    cases frames with
    | nil => exact nomatch h
    | cons frame inner =>
      cases frame <;>
      · simp only [advance, List.cons_append] at h ⊢
        split at h
        · next ht =>
          cases h
          simp only [if_pos ht, List.cons_append]
        · next hcomma =>
          split at h
          · next ht =>
            cases h
            rw [if_neg hcomma, if_pos ht]
          · exact nomatch h

/-- What is read of a whole text neither breaks off nor depends on what is around
it. -/
theorem build_append {tokens : List Token} (h : (build e frames tokens).Intact) :
    Token.Unbroken tokens ∧ ∀ outer rest, build e (frames ++ outer) (tokens ++ rest) =
      build (.separator (build e frames tokens).root) outer rest := by
  induction tokens generalizing e frames with
  | nil =>
    obtain ⟨he, rfl⟩ := eq_separator_of_finish h
    refine ⟨fun t ht => absurd ht List.not_mem_nil, fun outer rest => ?_⟩
    rw [he]
    rfl
  | cons t tokens ih =>
    cases hstep : advance frames t e with
    | error d =>
      rw [build, hstep] at h
      exact absurd h (not_intact_of_advance hstep)
    | ok next =>
      obtain ⟨e', frames'⟩ := next
      rw [build, hstep] at h
      obtain ⟨hunbroken, hrest⟩ := ih h
      refine ⟨Token.unbroken_cons.mpr ⟨?_, hunbroken⟩, fun outer rest => ?_⟩
      · cases ht : t.isBroken with
        | false => rfl
        | true =>
          obtain ⟨d, hd⟩ : ∃ d, advance frames t e = .error d := exists_advance_eq_error ht
          exact nomatch hstep.symm.trans hd
      · simp only [List.cons_append, build, advance_append hstep, hstep]
        exact hrest outer rest

end Document

/-! ## Whole texts -/

/-- The text is one JSON value, and this is its tree. -/
structure Whole (n : Node) (text : List Char) : Prop where
  document_eq : Document.ofChars text = ⟨n, false⟩
  skipFault?_eq : n.skipFault? = none

namespace Whole

open Document (build)

variable {n : Node} {text rest : List Char} {frames : List Frame}

theorem intact (h : Whole n text) : (build .value [] (Token.scan .between text)).Intact := by
  have hdocument : build .value [] (Token.scan .between text) = ⟨n, false⟩ := h.document_eq
  rw [hdocument]
  exact ⟨rfl, h.skipFault?_eq⟩

theorem unbroken (h : Whole n text) : Token.Unbroken (Token.scan .between text) :=
  (Document.build_append h.intact).1

/-- A whole text is read as its tree wherever a value is wanted. -/
theorem build_scan (h : Whole n text) (hrest : Delimited rest) (frames : List Frame) :
    build .value frames (Token.scan .between (text ++ rest)) =
      build (.separator n) frames (Token.scan .between rest) := by
  have hdocument : build .value [] (Token.scan .between text) = ⟨n, false⟩ := h.document_eq
  rw [Token.scan_append h.unbroken hrest, ← List.nil_append frames,
    (Document.build_append h.intact).2, hdocument, List.nil_append]

/-- A text is whole if it is read as a tree where nothing is around it. -/
theorem of_build (h : build .value [] (Token.scan .between text) = build (.separator n) [] [])
    (hn : n.skipFault? = none) : Whole n text :=
  ⟨h, hn⟩

/-- A reader of a whole text is a reader of its tree. -/
theorem readText_eq (h : Whole n text) {α : Type} (read : Node → Except Problem α) :
    readText read (String.ofList text) = read n := by
  simp only [readText, String.toList_ofList, h.document_eq]
  cases read n <;> rfl

/-! ### Blanks -/

theorem blanks_append {blanks : List Char} (hblanks : ∀ c ∈ blanks, isBlank c)
    (h : Whole n text) : Whole n (blanks ++ text) := by
  refine of_build ?_ h.skipFault?_eq
  rw [Token.scan_blanks hblanks]
  exact h.document_eq

theorem append_blanks {blanks : List Char} (hblanks : ∀ c ∈ blanks, isBlank c)
    (h : Whole n text) : Whole n (text ++ blanks) := by
  have hrest : Delimited blanks :=
    fun c hc => isDelimiter_of_isBlank (hblanks c (List.mem_of_mem_head? hc))
  refine of_build ?_ h.skipFault?_eq
  rw [h.build_scan hrest, ← List.append_nil blanks, Token.scan_blanks hblanks]
  rfl

/-! ### Arrays -/

/-- The first token of a whole text does not close an array. -/
theorem build_firstItem (h : Whole n text) (hrest : Delimited rest) :
    build .firstItem frames (Token.scan .between (text ++ rest)) =
      build .value (.array [] :: frames) (Token.scan .between (text ++ rest)) := by
  have hdocument : build .value [] (Token.scan .between text) = ⟨n, false⟩ := h.document_eq
  rw [Token.scan_append h.unbroken hrest]
  cases htokens : Token.scan .between text with
  | nil =>
    rw [htokens] at hdocument
    cases hdocument
    exact nomatch h.skipFault?_eq
  | cons t tokens =>
    have ht : t ≠ .closeBracket := by
      rintro rfl
      rw [htokens] at hdocument
      cases hdocument
      exact nomatch h.skipFault?_eq
    simp only [List.cons_append, build, Document.advance, if_neg ht]

/-- Items and commas up to the end of an array. -/
theorem build_items {first : Node × List Char} {items : List (Node × List Char)}
    (h : ∀ x ∈ first :: items, Whole x.1 x.2) (done : List Node) (rest : List Char) :
    build .value (.array done :: frames)
        (Token.scan .between (commaSeparated ((first :: items).map Prod.snd) ++ ']' :: rest)) =
      build (.separator (.array (done.reverse ++ (first :: items).map Prod.fst) .closed)) frames
        (Token.scan .between rest) := by
  induction items generalizing first done with
  | nil =>
    obtain ⟨hfirst, _⟩ := List.forall_mem_cons.mp h
    show build .value _ (Token.scan .between (first.2 ++ ']' :: rest)) = _
    rw [hfirst.build_scan (delimited_cons rfl),
      Token.scan_punctuation (t := .closeBracket) rfl, build]
    simp [Document.advance]
  | cons second items ih =>
    obtain ⟨hfirst, hitems⟩ := List.forall_mem_cons.mp h
    show build .value _ (Token.scan .between ((first.2 ++ ',' ::
      commaSeparated ((second :: items).map Prod.snd)) ++ ']' :: rest)) = _
    rw [List.append_assoc, List.cons_append, hfirst.build_scan (delimited_cons rfl),
      Token.scan_punctuation (t := .comma) rfl, build]
    simp only [Document.advance, if_pos]
    rw [ih hitems]
    simp

/-- Whole texts with commas between brackets are read as an array, wherever a value is
wanted and whatever follows. -/
theorem build_array {inside : List Char} (hinside : ∀ c ∈ inside, isBlank c)
    {items : List (Node × List Char)} (h : ∀ x ∈ items, Whole x.1 x.2) (frames : List Frame)
    (rest : List Char) :
    build .value frames (Token.scan .between
        ('[' :: inside ++ commaSeparated (items.map Prod.snd) ++ ']' :: rest)) =
      build (.separator (.array (items.map Prod.fst) .closed)) frames
        (Token.scan .between rest) := by
  rw [List.append_assoc, List.cons_append, Token.scan_punctuation (t := .openBracket) rfl,
    Token.scan_blanks hinside, build]
  show build .firstItem frames _ = _
  cases items with
  | nil =>
    rw [List.map_nil, commaSeparated, List.nil_append,
      Token.scan_punctuation (t := .closeBracket) rfl, build]
    rfl
  | cons first items =>
    have hfirst : Whole first.1 first.2 := h first List.mem_cons_self
    have hopen : build .firstItem frames (Token.scan .between
          (commaSeparated ((first :: items).map Prod.snd) ++ ']' :: rest)) =
        build .value (.array [] :: frames) (Token.scan .between
          (commaSeparated ((first :: items).map Prod.snd) ++ ']' :: rest)) := by
      cases items with
      | nil => exact hfirst.build_firstItem (delimited_cons rfl)
      | cons second items =>
        show build .firstItem frames (Token.scan .between ((first.2 ++ ',' :: _) ++ _)) =
          build .value _ (Token.scan .between ((first.2 ++ ',' :: _) ++ _))
        rw [List.append_assoc]
        exact hfirst.build_firstItem (delimited_cons rfl)
    rw [hopen, build_items h]
    rfl

/-- Whole texts with commas between brackets are a whole array. -/
theorem array {inside : List Char} (hinside : ∀ c ∈ inside, isBlank c)
    {items : List (Node × List Char)} (h : ∀ x ∈ items, Whole x.1 x.2) :
    Whole (.array (items.map Prod.fst) .closed)
      ('[' :: inside ++ commaSeparated (items.map Prod.snd) ++ [']']) :=
  of_build (build_array hinside h [] []) rfl

end Whole

/-! ### Objects -/

/-- The text is a string, with blanks around it or not. -/
def IsKey (key : Option String) (text : List Char) : Prop :=
  ∀ rest, Token.scan .between (text ++ rest) = .string key :: Token.scan .between rest

/-- A member of an object: what its key stands for, its value, and the texts of
both. -/
structure Entry where
  key : Option String
  keyText : List Char
  value : Node
  valueText : List Char

namespace Entry

def text (m : Entry) : List Char :=
  m.keyText ++ ':' :: m.valueText

def node (m : Entry) : Node × Node :=
  (.string m.key, m.value)

end Entry

namespace Whole

open Document (build)

variable {frames : List Frame}

theorem build_entry {m : Entry} (hkey : IsKey m.key m.keyText) (hvalue : Whole m.value m.valueText)
    {rest : List Char} (hrest : Delimited rest) (done : List (Node × Node)) :
    build (.key done) frames (Token.scan .between (m.text ++ rest)) =
      build (.separator m.value) (.object done (.string m.key) :: frames)
        (Token.scan .between rest) := by
  rw [Entry.text, List.append_assoc, hkey, List.cons_append,
    Token.scan_punctuation (t := .colon) rfl, build]
  simp only [Document.advance, Document.startKey]
  rw [build]
  simp only [Document.advance, if_pos]
  exact hvalue.build_scan hrest _

/-- Members and commas up to the end of an object. -/
theorem build_entries {first : Entry} {members : List Entry}
    (hkeys : ∀ m ∈ first :: members, IsKey m.key m.keyText)
    (hvalues : ∀ m ∈ first :: members, Whole m.value m.valueText) (done : List (Node × Node))
    (rest : List Char) :
    build (.key done) frames (Token.scan .between
        (commaSeparated ((first :: members).map Entry.text) ++ '\x7d' :: rest)) =
      build (.separator (.object (done.reverse ++ (first :: members).map Entry.node) .closed))
        frames (Token.scan .between rest) := by
  induction members generalizing first done with
  | nil =>
    obtain ⟨hkey, _⟩ := List.forall_mem_cons.mp hkeys
    obtain ⟨hvalue, _⟩ := List.forall_mem_cons.mp hvalues
    show build (.key done) _ (Token.scan .between (first.text ++ '\x7d' :: rest)) = _
    rw [build_entry hkey hvalue (delimited_cons rfl),
      Token.scan_punctuation (t := .closeBrace) rfl, build]
    simp [Document.advance, Entry.node]
  | cons second members ih =>
    obtain ⟨hkey, hkeys⟩ := List.forall_mem_cons.mp hkeys
    obtain ⟨hvalue, hvalues⟩ := List.forall_mem_cons.mp hvalues
    show build (.key done) _ (Token.scan .between ((first.text ++ ',' ::
      commaSeparated ((second :: members).map Entry.text)) ++ '\x7d' :: rest)) = _
    rw [List.append_assoc, List.cons_append, build_entry hkey hvalue (delimited_cons rfl),
      Token.scan_punctuation (t := .comma) rfl, build]
    simp only [Document.advance, if_pos]
    rw [ih hkeys hvalues]
    simp [Entry.node]

/-- Keys and whole texts with colons and commas between braces are read as an object,
wherever a value is wanted and whatever follows. -/
theorem build_object {inside : List Char} (hinside : ∀ c ∈ inside, isBlank c)
    {members : List Entry} (hkeys : ∀ m ∈ members, IsKey m.key m.keyText)
    (hvalues : ∀ m ∈ members, Whole m.value m.valueText) (frames : List Frame)
    (rest : List Char) :
    build .value frames (Token.scan .between
        ('\x7b' :: inside ++ commaSeparated (members.map Entry.text) ++ '\x7d' :: rest)) =
      build (.separator (.object (members.map Entry.node) .closed)) frames
        (Token.scan .between rest) := by
  rw [List.append_assoc, List.cons_append, Token.scan_punctuation (t := .openBrace) rfl,
    Token.scan_blanks hinside, build]
  show build .firstKey frames _ = _
  cases members with
  | nil =>
    rw [List.map_nil, commaSeparated, List.nil_append,
      Token.scan_punctuation (t := .closeBrace) rfl, build]
    rfl
  | cons first members =>
    have hopen : build .firstKey frames (Token.scan .between
          (commaSeparated ((first :: members).map Entry.text) ++ '\x7d' :: rest)) =
        build (.key []) frames (Token.scan .between
          (commaSeparated ((first :: members).map Entry.text) ++ '\x7d' :: rest)) := by
      have hkey : IsKey first.key first.keyText := hkeys first List.mem_cons_self
      cases members with
      | nil =>
        show build .firstKey frames (Token.scan .between (first.text ++ _)) =
          build (.key []) frames (Token.scan .between (first.text ++ _))
        rw [Entry.text, List.append_assoc, hkey]
        rfl
      | cons second members =>
        show build .firstKey frames (Token.scan .between ((first.text ++ ',' :: _) ++ _)) =
          build (.key []) frames (Token.scan .between ((first.text ++ ',' :: _) ++ _))
        rw [Entry.text, List.append_assoc, List.append_assoc, hkey]
        rfl
    rw [hopen, build_entries hkeys hvalues]
    rfl

/-- Keys and whole texts with colons and commas between braces are a whole object. -/
theorem object {inside : List Char} (hinside : ∀ c ∈ inside, isBlank c) {members : List Entry}
    (hkeys : ∀ m ∈ members, IsKey m.key m.keyText)
    (hvalues : ∀ m ∈ members, Whole m.value m.valueText) :
    Whole (.object (members.map Entry.node) .closed)
      ('\x7b' :: inside ++ commaSeparated (members.map Entry.text) ++ ['\x7d']) :=
  of_build (build_object hinside hkeys hvalues [] []) rfl

end Whole

end FlatRecord.Json
