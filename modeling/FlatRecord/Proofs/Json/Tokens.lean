import FlatRecord.Json.Token

/-!
# Tokens of a text that goes on

The tokens of a text stay what they are when more text follows, with two
provisos.  The text may not break off in a scalar.  And what follows may not be a
part of the last token: a numeral only ends where a digit cannot follow.

* `Delimited` is what may follow: nothing, a blank, or a token of one character.
* `TextState.step_append` is the one place where a reader looks ahead.  It counts
  the bytes that are left, and more text never takes any away.
* `Token.scan_append` is the induction over the text, for every state of the scan.
  `Token.scan_blank` and `Token.scan_punctuation` are the steps between tokens.
-/

namespace FlatRecord.Json

/-! ## What may follow -/

/-- A character that ends every numeral. -/
def isDelimiter (c : Char) : Bool :=
  isBlank c || (Token.punctuation? c).isSome

/-- The text is at its end, or a delimiter comes next. -/
def Delimited (rest : List Char) : Prop :=
  ∀ c ∈ rest.head?, isDelimiter c

theorem delimited_nil : Delimited [] :=
  fun _ h => nomatch h

theorem delimited_cons {c : Char} {rest : List Char} (h : isDelimiter c) :
    Delimited (c :: rest) := by
  intro d hd
  obtain rfl : c = d := by simpa using hd
  exact h

theorem isDelimiter_of_isBlank {c : Char} (h : isBlank c) : isDelimiter c := by
  simp [isDelimiter, h]

/-- The delimiters: four blanks and six marks. -/
def delimiters : List Char :=
  [' ', '\n', '\t', '\r', '[', ']', '\x7b', '\x7d', ',', ':']

theorem mem_of_isDelimiter {c : Char} (h : isDelimiter c) : c ∈ delimiters := by
  rcases Bool.or_eq_true_iff.mp h with h | h
  · simp only [isBlank, Bool.or_eq_true, decide_eq_true_eq] at h
    rcases h with ((rfl | rfl) | rfl) | rfl <;> decide
  · unfold Token.punctuation? at h
    split at h <;> first | decide | exact nomatch h

/-- A delimiter ends a complete numeral. -/
theorem NumeralState.step_of_isDelimiter {s : NumeralState} (hs : s.isComplete) {c : Char}
    (hc : isDelimiter c) : s.step c = .finish := by
  have hall : delimiters.all fun c => s.step c = .finish := by
    cases s <;> first | rfl | exact nomatch hs
  exact of_decide_eq_true (List.all_eq_true.mp hall c (mem_of_isDelimiter hc))

/-- A delimiter starts no numeral. -/
theorem NumeralState.start?_of_isDelimiter {c : Char} (hc : isDelimiter c) : start? c = none := by
  have hall : delimiters.all fun c => (start? c).isNone := rfl
  exact Option.isNone_iff_eq_none.mp (List.all_eq_true.mp hall c (mem_of_isDelimiter hc))

/-! ## Strings that go on -/

theorem hasFourBytes_append {rest : List Char} (h : hasFourBytes rest) (more : List Char) :
    hasFourBytes (rest ++ more) := by
  have hle (cs : List Char) (n : Nat) : n ≤ cs.foldl (fun size c => size + c.utf8Size) n := by
    induction cs generalizing n with
    | nil => exact Nat.le_refl n
    | cons c cs ih => exact Nat.le_trans (Nat.le_add_right n _) (ih _)
  simp only [hasFourBytes, decide_eq_true_eq] at h ⊢
  rw [List.take_append, List.foldl_append]
  exact Nat.le_trans h (hle _ _)

/-- A step that does not refuse its character is the same when more text follows. -/
theorem TextState.step_append {s : TextState} {c : Char} {rest : List Char}
    (h : ∀ f, s.step c rest ≠ .refuse f) (more : List Char) :
    s.step c (rest ++ more) = s.step c rest := by
  unfold TextState.step at h ⊢
  cases hplace : s.place with
  | plain => rfl
  | hex left value => rfl
  | escape =>
    simp only [hplace] at h
    by_cases hu : c = 'u'
    · simp only [if_pos hu] at h ⊢
      by_cases hfour : hasFourBytes rest
      · rw [if_pos hfour, if_pos (hasFourBytes_append hfour more)]
      · rw [if_neg hfour] at h
        exact absurd rfl (h _)
    · simp only [if_neg hu]

/-! ## Tokens -/

namespace Token

/-- The token is a scalar that breaks off. -/
def isBroken : Token → Bool
  | brokenString _ | brokenScalar _ => true
  | _ => false

/-- No token breaks off. -/
def Unbroken (tokens : List Token) : Prop :=
  ∀ t ∈ tokens, t.isBroken = false

theorem unbroken_cons {t : Token} {tokens : List Token} :
    Unbroken (t :: tokens) ↔ t.isBroken = false ∧ Unbroken tokens :=
  List.forall_mem_cons

theorem unbroken_append {first second : List Token} :
    Unbroken (first ++ second) ↔ Unbroken first ∧ Unbroken second :=
  List.forall_mem_append

theorem not_unbroken_wrong : ¬ Unbroken [wrong] :=
  fun h => nomatch h wrong List.mem_cons_self

/-! ### Between tokens -/

theorem scan_between_cons (c : Char) (cs : List Char) :
    scan .between (c :: cs) =
      match start? c with
      | some (tokens, next) => tokens ++ scan next cs
      | none => [wrong] := by
  cases hstart : start? c with
  | none => simp only [scan, hstart]
  | some next => simp only [scan, hstart]

/-- Whitespace is dropped. -/
theorem scan_blank {c : Char} (h : isBlank c) (cs : List Char) :
    scan .between (c :: cs) = scan .between cs := by
  rw [scan_between_cons, start?, if_pos h]
  rfl

theorem scan_blanks {blanks : List Char} (h : ∀ c ∈ blanks, isBlank c) (cs : List Char) :
    scan .between (blanks ++ cs) = scan .between cs := by
  induction blanks with
  | nil => rfl
  | cons c blanks ih =>
    obtain ⟨hc, hblanks⟩ := List.forall_mem_cons.mp h
    rw [List.cons_append, scan_blank hc, ih hblanks]

theorem scan_punctuation {c : Char} {t : Token} (h : punctuation? c = some t) (cs : List Char) :
    scan .between (c :: cs) = t :: scan .between cs := by
  have hstart : start? c = some ([t], .between) := by
    unfold punctuation? at h
    split at h <;> cases h <;> rfl
  rw [scan_between_cons, hstart]
  rfl

/-- A numeral ends before a character that cannot belong to it. -/
theorem scan_inNumeral_of_finish {s : NumeralState} {c : Char} (h : s.step c = .finish)
    (read : List Char) (cs : List Char) :
    scan (.inNumeral s read) (c :: cs) =
      number (Number.ofNumeral? read.reverse) :: scan .between (c :: cs) := by
  cases hstart : start? c with
  | none => simp only [scan, h, hstart]
  | some next => simp only [scan, h, hstart]

/-- A numeral that may end is ended by what may follow. -/
theorem scan_inNumeral_of_delimited {s : NumeralState} (hs : s.isComplete) {rest : List Char}
    (hrest : Delimited rest) (read : List Char) :
    scan (.inNumeral s read) rest =
      number (Number.ofNumeral? read.reverse) :: scan .between rest := by
  cases rest with
  | nil => rw [scan, scan, if_pos hs]
  | cons c rest =>
    have hc : isDelimiter c := hrest c rfl
    rw [scan_inNumeral_of_finish (NumeralState.step_of_isDelimiter hs hc)]

/-- A text that does not break off is cut into the same tokens when more follows. -/
theorem scan_append {state : Scan} {text rest : List Char} (h : Unbroken (scan state text))
    (hrest : Delimited rest) :
    scan state (text ++ rest) = scan state text ++ scan .between rest := by
  induction text generalizing state with
  | nil =>
    cases state with
    | between => rfl
    | inString s => exact nomatch h _ List.mem_cons_self
    | inWord word token => exact nomatch h _ List.mem_cons_self
    | inNumeral s read =>
      rw [scan] at h ⊢
      by_cases hs : s.isComplete
      · rw [if_pos hs, List.nil_append, scan_inNumeral_of_delimited hs hrest]
        rfl
      · rw [if_neg hs] at h
        exact nomatch h _ List.mem_cons_self
  | cons c cs ih =>
    -- What a character between tokens starts goes on as the text does.
    have hstart (h : Unbroken (scan .between (c :: cs))) :
        scan .between (c :: (cs ++ rest)) = scan .between (c :: cs) ++ scan .between rest := by
      rw [scan_between_cons] at h ⊢
      rw [scan_between_cons]
      cases hnext : start? c with
      | none => exact absurd (by simpa only [hnext] using h) not_unbroken_wrong
      | some next =>
        simp only [hnext] at h ⊢
        rw [ih (unbroken_append.mp h).2, List.append_assoc]
    rw [List.cons_append]
    cases state with
    | between => exact hstart h
    | inString s =>
      rw [scan] at h ⊢
      rw [scan]
      cases hstep : s.step c cs with
      | refuse f =>
        rw [hstep] at h
        exact nomatch h _ List.mem_cons_self
      | extend next =>
        rw [TextState.step_append (by simp [hstep]), hstep]
        rw [hstep] at h
        exact ih h
      | finish text =>
        rw [TextState.step_append (by simp [hstep]), hstep]
        rw [hstep] at h
        exact congrArg (string text :: ·) (ih (unbroken_cons.mp h).2)
    | inNumeral s read =>
      cases hstep : s.step c with
      | refuse =>
        rw [scan] at h
        simp only [hstep] at h
        exact absurd h not_unbroken_wrong
      | extend next =>
        rw [scan] at h ⊢
        rw [scan]
        simp only [hstep] at h ⊢
        exact ih h
      | finish =>
        rw [scan_inNumeral_of_finish hstep] at h ⊢
        rw [scan_inNumeral_of_finish hstep, hstart (unbroken_cons.mp h).2]
        rfl
    | inWord word token =>
      rw [scan.eq_def] at h ⊢
      rw [scan.eq_def (.inWord word token) (c :: cs)]
      match word with
      | [] => exact absurd h not_unbroken_wrong
      | [last] =>
        by_cases hc : c = last
        · simp only [if_pos hc] at h ⊢
          exact congrArg (token :: ·) (ih (unbroken_cons.mp h).2)
        · simp only [if_neg hc] at h
          exact absurd h not_unbroken_wrong
      | next :: second :: word =>
        by_cases hc : c = next
        · simp only [if_pos hc] at h ⊢
          exact ih h
        · simp only [if_neg hc] at h
          exact absurd h not_unbroken_wrong

end Token

end FlatRecord.Json
