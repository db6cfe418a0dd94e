import FlatRecord.Proofs.Json.Cuts
import FlatRecord.Proofs.Json.Rendering

/-!
# Texts that end where their last character is

The text of a value without numbers says itself where it ends.  What follows it does not
change how it is read, and a text that breaks off earlier is seen to break off.  A
numeral is different: another digit may follow, and most of its beginnings are numerals.

* `CutOff` says that a text breaks off.  `cutOff_append` and `cutOff_cons` find the place,
  piece by piece.
* `Token.scan_inString_cut` is the induction over the characters of a string.  The scan
  looks ahead within an escape, so a text that breaks off may differ in its last step.
  `Token.scan_between_eq_nil_iff` tells whitespace from the rest.
* `SelfDelimiting` is the property of values, with one lemma for each way to make one.
  `build_items_cut` and `build_members_cut` are the inductions for containers.
* `SelfDelimiting.readText_cut` and the two lemmas after it are what a reader of texts
  makes of it.
-/

namespace FlatRecord.Json

/-! ## Texts without their ends -/

/-- The text goes on after `p`. -/
def CutOff (p text : List Char) : Prop :=
  ∃ rest, rest ≠ [] ∧ p ++ rest = text

variable {p : List Char}

theorem cutOff_iff {text : List Char} : CutOff p text ↔ p <+: text ∧ p ≠ text := by
  constructor
  · rintro ⟨rest, hrest, rfl⟩
    exact ⟨List.prefix_append p rest, fun h => hrest (List.self_eq_append_right.mp h)⟩
  · rintro ⟨⟨rest, rfl⟩, hne⟩
    exact ⟨rest, fun h => hne (by rw [h, List.append_nil]), rfl⟩

theorem not_cutOff_nil : ¬ CutOff p [] :=
  fun ⟨_, hrest, h⟩ => hrest (List.append_eq_nil_iff.mp h).2

theorem cutOff_append {first second : List Char} :
    CutOff p (first ++ second) ↔ CutOff p first ∨ ∃ q, p = first ++ q ∧ CutOff q second := by
  constructor
  · rintro ⟨rest, hrest, h⟩
    rcases List.append_eq_append_iff.mp h with ⟨missing, rfl, rfl⟩ | ⟨q, rfl, rfl⟩
    · cases missing with
      | nil => exact .inr ⟨[], by simp, second, hrest, rfl⟩
      | cons c missing => exact .inl ⟨c :: missing, List.cons_ne_nil _ _, rfl⟩
    · exact .inr ⟨q, rfl, rest, hrest, rfl⟩
  · rintro (⟨rest, hrest, rfl⟩ | ⟨q, rfl, rest, hrest, rfl⟩)
    · exact ⟨rest ++ second, by simp [hrest], by simp⟩
    · exact ⟨rest, hrest, by simp⟩

theorem cutOff_cons {c : Char} {text : List Char} :
    CutOff p (c :: text) ↔ p = [] ∨ ∃ q, p = c :: q ∧ CutOff q text := by
  have hfirst : CutOff p [c] ↔ p = [] := by
    constructor
    · rintro ⟨rest, hrest, h⟩
      rcases List.append_eq_cons_iff.mp h with ⟨rfl, _⟩ | ⟨q, rfl, hq⟩
      · rfl
      · exact absurd (List.append_eq_nil_iff.mp hq.symm).2 hrest
    · rintro rfl
      exact ⟨[c], List.cons_ne_nil _ _, rfl⟩
  rw [← List.singleton_append, cutOff_append, hfirst]
  rfl

/-! ## Scalars without their ends -/

namespace TextState

variable {s s' : TextState} {c : Char}

/-- More text only matters to a step that misses it. -/
theorem step_eq_or_refuse (s : TextState) (c : Char) (rest more : List Char) :
    s.step c rest = s.step c (rest ++ more) ∨ s.step c rest = .refuse .unexpectedEnd := by
  unfold step
  cases s.place with
  | plain => exact .inl rfl
  | hex left value => exact .inl rfl
  | escape =>
    by_cases hu : c = 'u'
    · simp only [if_pos hu]
      by_cases hfour : hasFourBytes rest
      · exact .inl (by rw [if_pos hfour, if_pos (hasFourBytes_append hfour more)])
      · exact .inr (if_neg hfour)
    · exact .inl (by simp only [if_neg hu])

theorem chars_push_of_none (hs : s.chars = none) (c : Char) : (s.push c).chars = none := by
  simp [push, hs]

theorem chars_pushUnit_of_none (hs : s.chars = none) (n : Nat) : (s.pushUnit n).chars = none := by
  unfold pushUnit
  split
  · split
    · simp [hs]
    · rfl
  · split
    · exact hs
    · split
      · rfl
      · exact chars_push_of_none hs _

/-- A string that stands for no text stays one. -/
theorem chars_of_extend_of_none (hs : s.chars = none) {rest : List Char}
    (h : s.step c rest = .extend s') : s'.chars = none := by
  unfold step at h
  split at h
  · split_ifs at h
    · cases h
      exact hs
    · cases h
      exact chars_push_of_none hs c
  · split_ifs at h
    · cases h
      exact hs
    · split at h
      · cases h
        exact chars_push_of_none hs _
      · exact nomatch h
  · split at h
    · exact nomatch h
    · split at h
      · cases h
        exact chars_pushUnit_of_none hs _
      · cases h
        exact hs

theorem eq_none_of_finish_of_none (hs : s.chars = none) {rest : List Char} {text : Option String}
    (h : s.step c rest = .finish text) : text = none := by
  unfold step at h
  split at h
  · split_ifs at h
    cases h
    simp [text?, hs]
  · split_ifs at h
    split at h <;> cases h
  · split at h
    · cases h
    · split at h <;> cases h

end TextState

namespace Token

/-- A token that has been started is always there, also if it breaks off. -/
theorem scan_ne_nil {state : Scan} (h : state ≠ .between) (text : List Char) :
    scan state text ≠ [] := by
  induction text generalizing state with
  | nil =>
    cases state with
    | between => exact absurd rfl h
    | inString s => exact List.cons_ne_nil _ _
    | inNumeral s read =>
      rw [scan]
      split <;> exact List.cons_ne_nil _ _
    | inWord word token => exact List.cons_ne_nil _ _
  | cons c text ih =>
    cases state with
    | between => exact absurd rfl h
    | inString s =>
      rw [scan]
      split
      · exact ih (by simp)
      · exact List.cons_ne_nil _ _
      · exact List.cons_ne_nil _ _
    | inNumeral s read =>
      rw [scan]
      split
      · exact ih (by simp)
      · exact List.cons_ne_nil _ _
      · exact List.cons_ne_nil _ _
    | inWord word token =>
      rw [scan.eq_def]
      cases word with
      | nil => exact List.cons_ne_nil _ _
      | cons first word =>
        cases word with
        | nil =>
          simp only
          split <;> exact List.cons_ne_nil _ _
        | cons second word =>
          simp only
          split
          · exact ih (by simp)
          · exact List.cons_ne_nil _ _

/-- There are no tokens in whitespace, and only in whitespace. -/
theorem scan_between_eq_nil_iff {text : List Char} :
    scan .between text = [] ↔ ∀ c ∈ text, isBlank c := by
  induction text with
  | nil => simp [scan]
  | cons c text ih =>
    rw [List.forall_mem_cons]
    by_cases hc : isBlank c
    · rw [scan_blank hc, ih]
      exact ⟨fun h => ⟨hc, h⟩, And.right⟩
    · refine ⟨fun h => absurd h ?_, fun h => absurd h.1 hc⟩
      rw [scan_between_cons, start?, if_neg hc]
      by_cases hquote : c = '"'
      · rw [if_pos hquote]
        exact scan_ne_nil (by simp) text
      · rw [if_neg hquote]
        cases punctuation? c with
        | some token => exact List.cons_ne_nil _ _
        | none =>
          cases NumeralState.start? c with
          | some s => exact scan_ne_nil (by simp) text
          | none =>
            cases word? c with
            | some word => exact scan_ne_nil (by simp) text
            | none => exact List.cons_ne_nil _ _

theorem isSome_chars_of_scan {s : TextState} {cs : List Char} {text : String} {more : List Token}
    (h : scan (.inString s) cs = string (some text) :: more) : s.chars.isSome := by
  by_contra hsome
  have hnone : s.chars = none := Option.not_isSome_iff_eq_none.mp hsome
  induction cs generalizing s with
  | nil => cases h
  | cons c cs ih =>
    rw [scan] at h
    split at h
    · next s' hstep =>
      have hnone' : s'.chars = none := TextState.chars_of_extend_of_none hnone hstep
      exact ih h (by simp [hnone']) hnone'
    · next hstep =>
      rw [TextState.eq_none_of_finish_of_none hnone hstep] at h
      cases h
    · cases h

/-- A string that stands for a text breaks off in the same way wherever the text ends. -/
theorem scan_inString_cut {s : TextState} {p rest : List Char} {text : String}
    (h : scan (.inString s) (p ++ rest ++ ['"']) = [string (some text)]) :
    scan (.inString s) p = [brokenString ⟨.unexpectedEnd, .unexpectedEnd⟩] := by
  have hbroken {s : TextState} (hs : s.chars.isSome) :
      [brokenString ⟨s.faultWhenRead .unexpectedEnd, .unexpectedEnd⟩] =
        [brokenString ⟨.unexpectedEnd, .unexpectedEnd⟩] := by
    rw [TextState.faultWhenRead, if_pos hs]
  induction p generalizing s with
  | nil => exact hbroken (isSome_chars_of_scan h)
  | cons c p ih =>
    have hsome : s.chars.isSome := isSome_chars_of_scan h
    rw [List.cons_append, List.cons_append, List.append_assoc, scan] at h
    rw [scan]
    rcases s.step_eq_or_refuse c p (rest ++ ['"']) with hstep | hstep
    · rw [← hstep] at h
      cases hp : s.step c p with
      | extend s' =>
        simp only [hp] at h ⊢
        exact ih (by rwa [List.append_assoc])
      | finish text' =>
        simp only [hp, List.cons.injEq, scan_between_eq_nil_iff] at h
        exact absurd (h.2 '"' (by simp)) (by decide)
      | refuse f => simp [hp] at h
    · simp only [hstep]
      exact hbroken hsome

/-- The tokens of a string whose text is cut. -/
theorem scan_renderString_cut {p : List Char} {s : String} (h : CutOff p (renderString s)) :
    scan .between p = [] ∨
      scan .between p = [brokenString ⟨.unexpectedEnd, .unexpectedEnd⟩] := by
  have hwhole : scan .between (renderString s ++ []) = [string (some s)] :=
    (spells_renderString s).isKey []
  obtain rfl | ⟨q, rfl, hq⟩ := cutOff_cons.mp h
  · exact .inl rfl
  · right
    have hbody : ∃ rest, s.toList.flatMap escapedChar = q ++ rest := by
      rcases cutOff_append.mp hq with ⟨rest, _, hrest⟩ | ⟨q', rfl, hq'⟩
      · exact ⟨rest, hrest.symm⟩
      · obtain rfl | ⟨q'', rfl, hq''⟩ := cutOff_cons.mp hq'
        · exact ⟨[], by simp⟩
        · exact absurd hq'' not_cutOff_nil
    obtain ⟨rest, hrest⟩ := hbody
    rw [List.append_nil, renderString, hrest] at hwhole
    exact scan_inString_cut hwhole

end Token

/-! ## Values -/

open Document (build)

/-- The text of the value ends where its last character is.  What follows is not looked
at, and if the end of the text is missing, then so is the end of the value. -/
structure SelfDelimiting (v : Json) : Prop where
  rendered : v.Rendered
  build_append (frames : List Frame) (rest : List Char) :
    build .value frames (Token.scan .between (v.render ++ rest)) =
      build (.separator v.toNode) frames (Token.scan .between rest)
  build_cut (frames : List Frame) {p : List Char} (h : CutOff p v.render) :
    ∃ left, v.toNode.Cut left ∧ build .value frames (Token.scan .between p) =
      Document.cut .unexpectedEnd left frames

/-- A value whose text has not been begun. -/
theorem build_cut_nil (n : Node) (frames : List Frame) :
    ∃ left, n.Cut left ∧
      build .value frames (Token.scan .between []) = Document.cut .unexpectedEnd left frames :=
  ⟨.gap .ended, .ended n, rfl⟩

theorem selfDelimiting_boolean (b : Bool) : SelfDelimiting (.boolean b) where
  rendered := rendered_boolean b
  build_append frames rest := by cases b <;> rfl
  build_cut frames p h := by
    cases b with
    | false =>
      simp only [render, cutOff_cons, not_cutOff_nil, and_false, exists_false, or_false] at h
      rcases h with rfl | ⟨q, rfl, h⟩
      · exact build_cut_nil _ frames
      · refine ⟨_, .boolean false, ?_⟩
        rcases h with rfl | ⟨_, rfl, rfl | ⟨_, rfl, rfl | ⟨_, rfl, rfl⟩⟩⟩ <;> rfl
    | true =>
      simp only [render, cutOff_cons, not_cutOff_nil, and_false, exists_false, or_false] at h
      rcases h with rfl | ⟨q, rfl, h⟩
      · exact build_cut_nil _ frames
      · refine ⟨_, .boolean true, ?_⟩
        rcases h with rfl | ⟨_, rfl, rfl | ⟨_, rfl, rfl⟩⟩ <;> rfl

theorem selfDelimiting_string (s : String) : SelfDelimiting (.string s) where
  rendered := rendered_string s
  build_append frames rest := by
    rw [render, (spells_renderString s).isKey]
    rfl
  build_cut frames p h := by
    rcases Token.scan_renderString_cut h with hp | hp <;> rw [hp]
    · exact build_cut_nil _ frames
    · exact ⟨_, .string (some s), rfl⟩

section Containers

variable {v : Json} {frames : List Frame}

/-- The first of some texts is followed by a comma or by what closes the container. -/
theorem exists_commaSeparated (first : List Char) (texts : List (List Char)) {close : Char}
    (hclose : isDelimiter close) :
    ∃ mark tail, isDelimiter mark ∧
      commaSeparated (first :: texts) ++ [close] = first ++ mark :: tail := by
  cases texts with
  | nil => exact ⟨close, [], hclose, rfl⟩
  | cons second texts =>
    refine ⟨',', commaSeparated (second :: texts) ++ [close], rfl, ?_⟩
    rw [← List.cons_append, ← List.append_assoc]
    rfl

/-- In a container, the text may end within a value or behind it, or go on after the
mark that follows the value. -/
theorem SelfDelimiting.build_cut_or (hv : SelfDelimiting v) {mark : Char} {tail : List Char}
    (hp : CutOff p (v.render ++ mark :: tail)) (frame : Frame) (frames : List Frame) :
    (∃ left, (v.toNode.Cut left ∨ left = v.toNode) ∧
      build .value (frame :: frames) (Token.scan .between p) =
        Document.cut .unexpectedEnd (frame.plug left (.cut .unexpectedEnd)) frames) ∨
    ∃ q, p = v.render ++ mark :: q ∧ CutOff q tail := by
  rcases cutOff_append.mp hp with hp | ⟨q, rfl, hq⟩
  · obtain ⟨left, hleft, hbuild⟩ := hv.build_cut (frame :: frames) hp
    exact .inl ⟨left, .inl hleft, hbuild⟩
  · obtain rfl | ⟨q', rfl, hq'⟩ := cutOff_cons.mp hq
    · refine .inl ⟨v.toNode, .inr rfl, ?_⟩
      rw [hv.build_append]
      rfl
    · exact .inr ⟨q', rfl, hq'⟩

/-- Items up to where the text ends. -/
theorem build_items_cut {first : Json} {items : List Json}
    (h : ∀ v ∈ first :: items, SelfDelimiting v)
    (hp : CutOff p (commaSeparated ((first :: items).map render) ++ [']'])) (done : List Node) :
    ∃ left, CutList Node.Cut ((first :: items).map toNode) left ∧
      build .value (.array done :: frames) (Token.scan .between p) =
        Document.cut .unexpectedEnd (.array (done.reverse ++ left) (.cut .unexpectedEnd))
          frames := by
  induction items generalizing first done p with
  | nil =>
    have hfirst : SelfDelimiting first := h first List.mem_cons_self
    rcases hfirst.build_cut_or hp (.array done) frames with ⟨left, hleft, hbuild⟩ | ⟨q, rfl, hq⟩
    · exact ⟨[left], .head hleft _, by rw [hbuild, Frame.plug, List.reverse_cons]⟩
    · exact absurd hq not_cutOff_nil
  | cons second items ih =>
    obtain ⟨hfirst, hitems⟩ := List.forall_mem_cons.mp h
    have hp : CutOff p (first.render ++
        ',' :: (commaSeparated ((second :: items).map render) ++ [']'])) := by
      simpa [commaSeparated] using hp
    rcases hfirst.build_cut_or hp (.array done) frames with ⟨left, hleft, hbuild⟩ | ⟨q, rfl, hq⟩
    · exact ⟨[left], .head hleft _, by rw [hbuild, Frame.plug, List.reverse_cons]⟩
    · obtain ⟨left, hleft, hbuild⟩ := ih hitems hq (first.toNode :: done)
      refine ⟨first.toNode :: left, .next _ hleft, ?_⟩
      rw [hfirst.build_append, Token.scan_punctuation (t := .comma) rfl, build]
      simp only [Document.advance, if_pos]
      rw [hbuild, List.reverse_cons, List.append_assoc]
      rfl

/-- The first token of a text that is cut within a value does not close an array. -/
theorem build_firstItem_cut (hv : SelfDelimiting v) {mark : Char} (hmark : isDelimiter mark)
    {tail : List Char} (hp : CutOff p (v.render ++ mark :: tail)) :
    build .firstItem frames (Token.scan .between p) =
      build .value (.array [] :: frames) (Token.scan .between p) := by
  rcases cutOff_append.mp hp with hp | ⟨q, rfl, hq⟩
  · obtain ⟨left, hleft, hbuild⟩ := hv.build_cut [] hp
    cases htokens : Token.scan .between p with
    | nil => rfl
    | cons t tokens =>
      have ht : t ≠ .closeBracket := by
        rintro rfl
        rw [htokens] at hbuild
        cases hbuild
        exact Node.not_cut_misplaced hleft
      simp only [build, Document.advance, if_neg ht]
  · have hdelimited : Delimited q := by
      obtain rfl | ⟨q', rfl, _⟩ := cutOff_cons.mp hq
      · exact delimited_nil
      · exact delimited_cons hmark
    exact hv.rendered.whole.build_firstItem hdelimited

/-- The first token of a text that is cut within a key does not close an object, nor
does the key. -/
theorem build_firstKey_cut {key : String} {tail : List Char}
    (hp : CutOff p (renderString key ++ tail)) :
    build .firstKey frames (Token.scan .between p) =
      build (.key []) frames (Token.scan .between p) := by
  rcases cutOff_append.mp hp with hp | ⟨q, rfl, _⟩
  · rcases Token.scan_renderString_cut hp with hp | hp <;> rw [hp] <;> rfl
  · rw [(spells_renderString key).isKey]
    rfl

/-- Within an object, the text may end within a member or behind it, or go on after the
mark that follows the member. -/
theorem build_member_cut {m : String × Json} (hm : SelfDelimiting m.2) {mark : Char}
    {tail : List Char} (hp : CutOff p ((entry m).text ++ mark :: tail))
    (done : List (Node × Node)) (frames : List Frame) :
    (∃ left, (Node.CutMember (entry m).node left ∨ left = (entry m).node) ∧
      build (.key done) frames (Token.scan .between p) =
        Document.cut .unexpectedEnd (.object (left :: done).reverse (.cut .unexpectedEnd))
          frames) ∨
    ∃ q, p = (entry m).text ++ mark :: q ∧ CutOff q tail := by
  have hp : CutOff p (renderString m.1 ++ ':' :: (m.2.render ++ mark :: tail)) := by
    simpa [Entry.text, entry] using hp
  rcases cutOff_append.mp hp with hp | ⟨q, rfl, hq⟩
  · left
    rcases Token.scan_renderString_cut hp with hp | hp <;> rw [hp]
    · exact ⟨_, .inl (.key (.ended _) _), rfl⟩
    · exact ⟨_, .inl (.key (.string _) _), rfl⟩
  · have hkey : build (.key done) frames (Token.scan .between (renderString m.1 ++ q)) =
        build (.colon done (.string (some m.1))) frames (Token.scan .between q) := by
      rw [(spells_renderString m.1).isKey]
      rfl
    obtain rfl | ⟨q', rfl, hq'⟩ := cutOff_cons.mp hq
    · exact .inl ⟨_, .inl (.value _ (.ended _)), hkey⟩
    · have hcolon : build (.colon done (.string (some m.1))) frames
          (Token.scan .between (':' :: q')) =
          build .value (.object done (.string (some m.1)) :: frames)
            (Token.scan .between q') := by
        rw [Token.scan_punctuation (t := .colon) rfl]
        rfl
      rcases hm.build_cut_or hq' (.object done (.string (some m.1))) frames with
        ⟨left, hleft, hbuild⟩ | ⟨r, rfl, hr⟩
      · refine .inl ⟨(.string (some m.1), left), ?_, hkey.trans (hcolon.trans hbuild)⟩
        exact hleft.imp (.value _) (congrArg _)
      · exact .inr ⟨r, by simp [Entry.text, entry], hr⟩

/-- Members up to where the text ends. -/
theorem build_members_cut {first : String × Json} {members : List (String × Json)}
    (h : ∀ m ∈ first :: members, SelfDelimiting m.2)
    (hp : CutOff p
      (commaSeparated (((first :: members).map entry).map Entry.text) ++ ['\x7d']))
    (done : List (Node × Node)) :
    ∃ left, left ≠ [] ∧
      CutList Node.CutMember (((first :: members).map entry).map Entry.node) left ∧
      build (.key done) frames (Token.scan .between p) =
        Document.cut .unexpectedEnd (.object (done.reverse ++ left) (.cut .unexpectedEnd))
          frames := by
  induction members generalizing first done p with
  | nil =>
    have hfirst : SelfDelimiting first.2 := h first List.mem_cons_self
    rcases build_member_cut hfirst hp done frames with ⟨left, hleft, hbuild⟩ | ⟨q, rfl, hq⟩
    · exact ⟨[left], List.cons_ne_nil _ _, .head hleft _, by rw [hbuild, List.reverse_cons]⟩
    · exact absurd hq not_cutOff_nil
  | cons second members ih =>
    obtain ⟨hfirst, hmembers⟩ := List.forall_mem_cons.mp h
    have hp : CutOff p ((entry first).text ++
        ',' :: (commaSeparated (((second :: members).map entry).map Entry.text) ++
          ['\x7d'])) := by
      simpa [commaSeparated] using hp
    rcases build_member_cut hfirst hp done frames with ⟨left, hleft, hbuild⟩ | ⟨q, rfl, hq⟩
    · exact ⟨[left], List.cons_ne_nil _ _, .head hleft _, by rw [hbuild, List.reverse_cons]⟩
    · obtain ⟨left, _, hleft, hbuild⟩ := ih hmembers hq ((entry first).node :: done)
      refine ⟨(entry first).node :: left, List.cons_ne_nil _ _, .next _ hleft, ?_⟩
      have hkey : IsKey (entry first).key (entry first).keyText :=
        (spells_renderString first.1).isKey
      rw [Whole.build_entry hkey hfirst.rendered.whole (delimited_cons rfl),
        Token.scan_punctuation (t := .comma) rfl, build]
      simp only [Document.advance, if_pos]
      rw [← Entry.node, hbuild, List.reverse_cons, List.append_assoc]
      rfl

end Containers

theorem selfDelimiting_array {items : List Json} (h : ∀ v ∈ items, SelfDelimiting v) :
    SelfDelimiting (.array items) where
  rendered := rendered_array fun v hv => (h v hv).rendered
  build_append frames rest := by
    have hinside : ∀ c ∈ ([] : List Char), isBlank c := fun c hc => absurd hc List.not_mem_nil
    have hitems : ∀ x ∈ items.map fun v => (v.toNode, v.render), Whole x.1 x.2 :=
      List.forall_mem_map.mpr fun v hv => (h v hv).rendered.whole
    have hbuild := Whole.build_array hinside hitems frames rest
    rw [List.map_map, List.map_map] at hbuild
    rw [toNode_array, render_array, List.append_assoc]
    exact hbuild
  build_cut frames p hp := by
    rw [render_array] at hp
    rw [toNode_array]
    obtain rfl | ⟨q, rfl, hq⟩ := cutOff_cons.mp hp
    · exact build_cut_nil _ frames
    · rw [Token.scan_punctuation (t := .openBracket) rfl, build]
      show ∃ left, _ ∧ build .firstItem frames (Token.scan .between q) = _
      cases items with
      | nil =>
        obtain rfl | ⟨_, rfl, hq'⟩ := cutOff_cons.mp hq
        · exact ⟨_, .emptyArray, rfl⟩
        · exact absurd hq' not_cutOff_nil
      | cons first items =>
        have hfirst : SelfDelimiting first := h first List.mem_cons_self
        obtain ⟨mark, tail, hmark, htext⟩ :=
          exists_commaSeparated first.render (items.map render) (show isDelimiter ']' from rfl)
        obtain ⟨left, hleft, hbuild⟩ := build_items_cut h hq []
        have hfirstq : CutOff q (first.render ++ mark :: tail) := htext ▸ hq
        exact ⟨_, .array hleft, (build_firstItem_cut hfirst hmark hfirstq).trans hbuild⟩

theorem selfDelimiting_object {members : List (String × Json)}
    (h : ∀ m ∈ members, SelfDelimiting m.2) : SelfDelimiting (.object members) where
  rendered := rendered_object fun m hm => (h m hm).rendered
  build_append frames rest := by
    have hinside : ∀ c ∈ ([] : List Char), isBlank c := fun c hc => absurd hc List.not_mem_nil
    have hkeys : ∀ m ∈ members.map entry, IsKey m.key m.keyText :=
      List.forall_mem_map.mpr fun m _ => (spells_renderString m.1).isKey
    have hvalues : ∀ m ∈ members.map entry, Whole m.value m.valueText :=
      List.forall_mem_map.mpr fun m hm => (h m hm).rendered.whole
    rw [render_object, toNode_object, List.append_assoc]
    exact Whole.build_object hinside hkeys hvalues frames rest
  build_cut frames p hp := by
    rw [render_object] at hp
    rw [toNode_object]
    obtain rfl | ⟨q, rfl, hq⟩ := cutOff_cons.mp hp
    · exact build_cut_nil _ frames
    · rw [Token.scan_punctuation (t := .openBrace) rfl, build]
      show ∃ left, _ ∧ build .firstKey frames (Token.scan .between q) = _
      cases members with
      | nil =>
        obtain rfl | ⟨_, rfl, hq'⟩ := cutOff_cons.mp hq
        · exact ⟨_, .emptyObject, rfl⟩
        · exact absurd hq' not_cutOff_nil
      | cons first members =>
        obtain ⟨mark, tail, _, htext⟩ :=
          exists_commaSeparated (entry first).text ((members.map entry).map Entry.text)
            (show isDelimiter '\x7d' from rfl)
        have hfirst : CutOff q (renderString first.1 ++
            (':' :: first.2.render ++ mark :: tail)) := by
          have hq : CutOff q ((entry first).text ++ mark :: tail) := htext ▸ hq
          simpa [Entry.text, entry] using hq
        obtain ⟨left, hleft, hmembers, hbuild⟩ := build_members_cut h hq []
        exact ⟨_, .object hmembers hleft, (build_firstKey_cut hfirst).trans hbuild⟩

/-! ## Readers of texts -/

namespace SelfDelimiting

variable {α : Type} {read : Node → Except Problem α} {v : Json} {a : α}

/-- No part of the text of a value is read as a value. -/
theorem readText_cut (h : SelfDelimiting v) (hwaits : Waits read) (hread : read v.toNode = .ok a)
    (hp : CutOff p v.render) :
    readText read (String.ofList p) = .error (.fault .unexpectedEnd) := by
  obtain ⟨left, hleft, hbuild⟩ := h.build_cut [] hp
  have hdocument : Document.ofChars p = ⟨left, false⟩ := hbuild
  rw [readText, String.toList_ofList, hdocument]
  simp only [hwaits hread hleft, error_bind]

/-- The value ends with its text.  Only tokens can follow it, since whitespace is no
token. -/
theorem ofChars_append (h : SelfDelimiting v) (more : List Char) :
    Document.ofChars (v.render ++ more) =
      ⟨v.toNode, !(Token.scan .between more).isEmpty⟩ := by
  have hbuild := h.build_append [] more
  rw [Document.ofChars, Token.ofChars, hbuild]
  cases Token.scan .between more <;> rfl

theorem readText_blanks (h : SelfDelimiting v) (hread : read v.toNode = .ok a) {more : List Char}
    (hmore : ∀ c ∈ more, isBlank c) :
    readText read (String.ofList (v.render ++ more)) = .ok a := by
  rw [readText, String.toList_ofList, h.ofChars_append, Token.scan_between_eq_nil_iff.mpr hmore]
  simp only [hread, ok_bind]
  rfl

theorem readText_trailing (h : SelfDelimiting v) (hread : read v.toNode = .ok a)
    {more : List Char} (hmore : ¬ ∀ c ∈ more, isBlank c) :
    readText read (String.ofList (v.render ++ more)) = .error (.fault .malformed) := by
  have htokens : (Token.scan .between more).isEmpty = false :=
    List.isEmpty_eq_false_iff.mpr (mt Token.scan_between_eq_nil_iff.mp hmore)
  rw [readText, String.toList_ofList, h.ofChars_append, htokens]
  simp only [hread, ok_bind]
  rfl

end SelfDelimiting

end FlatRecord.Json
