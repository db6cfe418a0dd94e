import FlatRecord.Proofs.Json.Trees

/-!
# The grammar of JSON

The grammar of JSON texts, as a relation between trees and the texts that spell them.
It is written down apart from the scan and the tree builder, and this module shows
that they agree: every text that spells a tree is whole and is read as that tree.

A tree has many spellings.  They differ in whitespace, in the escapes of strings and
in the case of hexadecimal digits.

* `SpellsPieces` and `Piece.text?` are the grammar of strings and its meaning.
  `Token.scan_string` reads every string that they derive.
* `IsNumeral` is the grammar of numbers, and `Token.scan_numeral` reads them.
* `Spells.whole` is the induction over values.
-/

namespace FlatRecord.Json

/-! ## Strings -/

/-- What a piece of a string stands for: a character, or a UTF-16 code unit that is
given by its number. -/
inductive Piece where
  | char (c : Char)
  | unit (n : Nat)

/-- The letters that may follow a backslash, with what they stand for. -/
def shortEscapes : List (Char × Char) :=
  [('"', '"'), ('\\', '\\'), ('/', '/'), ('b', '\x08'), ('f', '\x0c'), ('n', '\n'), ('r', '\r'),
    ('t', '\t')]

def lowerDigits : List Char :=
  ['0', '1', '2', '3', '4', '5', '6', '7', '8', '9', 'a', 'b', 'c', 'd', 'e', 'f']

def upperDigits : List Char :=
  ['0', '1', '2', '3', '4', '5', '6', '7', '8', '9', 'A', 'B', 'C', 'D', 'E', 'F']

/-- The character is the hexadecimal digit `d`, in either case. -/
def IsHexDigit (d : Nat) (c : Char) : Prop :=
  lowerDigits[d]? = some c ∨ upperDigits[d]? = some c

/-- Four hexadecimal digits and their number. -/
inductive SpellsUnit : Nat → List Char → Prop where
  | digits {d₁ d₂ d₃ d₄ : Nat} {c₁ c₂ c₃ c₄ : Char} (h₁ : IsHexDigit d₁ c₁)
      (h₂ : IsHexDigit d₂ c₂) (h₃ : IsHexDigit d₃ c₃) (h₄ : IsHexDigit d₄ c₄) :
      SpellsUnit (((d₁ * 16 + d₂) * 16 + d₃) * 16 + d₄) [c₁, c₂, c₃, c₄]

/-- The pieces of a string and their text between the quotes. -/
inductive SpellsPieces : List Piece → List Char → Prop where
  | nil : SpellsPieces [] []
  | plain {c : Char} {pieces : List Piece} {text : List Char} (hcontrol : 0x20 ≤ c.toNat)
      (hquote : c ≠ '"') (hbackslash : c ≠ '\\') (h : SpellsPieces pieces text) :
      SpellsPieces (.char c :: pieces) (c :: text)
  | escape {letter c : Char} {pieces : List Piece} {text : List Char}
      (hletter : (letter, c) ∈ shortEscapes) (h : SpellsPieces pieces text) :
      SpellsPieces (.char c :: pieces) ('\\' :: letter :: text)
  | unit {n : Nat} {digits : List Char} {pieces : List Piece} {text : List Char}
      (hdigits : SpellsUnit n digits) (h : SpellsPieces pieces text) :
      SpellsPieces (.unit n :: pieces) ('\\' :: 'u' :: (digits ++ text))

/-- The text that pieces stand for.  Two units that are a surrogate pair are one
character.  With a surrogate that has no partner there is no text. -/
def Piece.text? : List Piece → Option (List Char)
  | [] => some []
  | .char c :: pieces => (text? pieces).map (c :: ·)
  | .unit n :: pieces =>
    if isHighSurrogate n then
      match pieces with
      | .unit m :: pieces =>
        if isLowSurrogate m then
          (text? pieces).map (Char.ofNat (0x10000 + (n - 0xD800) * 0x400 + (m - 0xDC00)) :: ·)
        else none
      | _ => none
    else if isLowSurrogate n then none
    else (text? pieces).map (Char.ofNat n :: ·)

namespace TextState

variable {s : TextState}

/-- The state after a piece. -/
def read (s : TextState) : Piece → TextState
  | .char c => s.push c
  | .unit n => s.pushUnit n

theorem place_read (p : Piece) : (s.read p).place = .plain := by
  cases p with
  | char c => rfl
  | unit n =>
    simp only [read, pushUnit, push]
    repeat' split
    all_goals rfl

theorem place_foldl (h : s.place = .plain) (pieces : List Piece) :
    (pieces.foldl read s).place = .plain := by
  induction pieces generalizing s with
  | nil => exact h
  | cons p pieces ih => exact ih (place_read p)

/-- A string that stands for no text does not get one again. -/
theorem chars_read_of_none (h : s.chars = none) (p : Piece) : (s.read p).chars = none := by
  cases p with
  | char c => simp [read, push, h]
  | unit n =>
    simp only [read, pushUnit, push, h]
    repeat' split
    all_goals rfl

theorem text?_foldl_of_none (h : s.chars = none) (pieces : List Piece) :
    (pieces.foldl read s).text? = none := by
  induction pieces generalizing s with
  | nil => simp [text?, h]
  | cons p pieces ih => exact ih (chars_read_of_none h p)

/-- After a high surrogate comes its partner or nothing that helps. -/
theorem chars_read_of_high {high : Nat} (h : s.high = some high) {p : Piece}
    (hp : ∀ m, isLowSurrogate m → p ≠ .unit m) : (s.read p).chars = none := by
  cases p with
  | char c => simp [read, push, h]
  | unit m =>
    have hm : ¬ isLowSurrogate m := fun hm => hp m hm rfl
    simp [read, pushUnit, h, hm]

/-- From a state in which no surrogate waits, pieces add what they stand for. -/
theorem text?_foldl (hhigh : s.high = none) (pieces : List Piece) :
    (pieces.foldl read s).text? = s.chars.bind fun done =>
      (Piece.text? pieces).map fun cs => String.ofList (done.reverse ++ cs) := by
  -- One character more, and then the rest.
  have hadd {s s' : TextState} {c : Char} {pieces : List Piece}
      (hchars : s'.chars = s.chars.map (c :: ·))
      (h : (pieces.foldl read s').text? = s'.chars.bind fun done =>
        (Piece.text? pieces).map fun cs => String.ofList (done.reverse ++ cs)) :
      (pieces.foldl read s').text? = s.chars.bind fun done =>
        ((Piece.text? pieces).map (c :: ·)).map fun cs => String.ofList (done.reverse ++ cs) := by
    rw [h, hchars]
    cases s.chars with
    | none => rfl
    | some done => simp [Function.comp_def, -String.ofList_append]
  induction pieces using Piece.text?.induct generalizing s with
  | case1 => cases hchars : s.chars <;> simp [text?, hhigh, hchars, Piece.text?]
  | case2 c pieces ih =>
    rw [Piece.text?]
    exact hadd (by simp [read, push, hhigh]) (ih rfl)
  | case3 n hn m pieces hm ih =>
    rw [Piece.text?, if_pos hn, if_pos hm]
    refine hadd ?_ (ih ?_) <;> simp [read, pushUnit, hhigh, hn, hm]
  | case4 n hn m pieces hm =>
    have hwait : (s.read (.unit n)).high = some n := by simp [read, pushUnit, hhigh, hn]
    rw [Piece.text?, if_pos hn, if_neg hm, List.foldl_cons, List.foldl_cons,
      text?_foldl_of_none (chars_read_of_high hwait (by rintro k hk ⟨⟩; exact hm hk))]
    simp
  | case5 n pieces hn hpieces =>
    have hwait : (s.read (.unit n)).high = some n := by simp [read, pushUnit, hhigh, hn]
    rw [List.foldl_cons]
    cases pieces with
    | nil => simp [text?, hwait, Piece.text?, hn]
    | cons p pieces =>
      have hp (m : Nat) : p ≠ .unit m := by
        rintro rfl
        exact hpieces m pieces rfl
      rw [List.foldl_cons, text?_foldl_of_none (chars_read_of_high hwait fun m _ => hp m)]
      cases p with
      | char c => simp [Piece.text?, hn]
      | unit m => exact absurd rfl (hp m)
  | case6 n pieces hn hlow =>
    have hnone : (s.read (.unit n)).chars = none := by simp [read, pushUnit, hhigh, hn, hlow]
    rw [Piece.text?.eq_def, List.foldl_cons, text?_foldl_of_none hnone]
    simp [hn, hlow]
  | case7 n pieces hn hlow ih =>
    rw [Piece.text?.eq_def]
    simp only [if_neg hn, if_neg hlow]
    refine hadd ?_ (ih ?_) <;> simp [read, pushUnit, push, hhigh, hn, hlow]

end TextState

/-! ### Scanning strings -/

theorem hexDigit?_of_isHexDigit {d : Nat} {c : Char} (h : IsHexDigit d c) :
    hexDigit? c = some d := by
  have hd : d < 16 := by
    rcases h with h | h <;> exact (List.getElem?_eq_some_iff.mp h).1
  have hlower : ∀ d < 16, lowerDigits[d]?.bind hexDigit? = some d := by decide
  have hupper : ∀ d < 16, upperDigits[d]?.bind hexDigit? = some d := by decide
  rcases h with h | h
  · simpa only [h, Option.bind_some] using hlower d hd
  · simpa only [h, Option.bind_some] using hupper d hd

theorem escaped?_of_mem_shortEscapes {letter c : Char} (h : (letter, c) ∈ shortEscapes) :
    letter ≠ 'u' ∧ escaped? letter = some c := by
  have hall : ∀ e ∈ shortEscapes, e.1 ≠ 'u' ∧ escaped? e.1 = some e.2 := by decide
  exact hall _ h

namespace Token

variable {s : TextState}

theorem scan_inString_extend {c : Char} {cs : List Char} {s' : TextState}
    (h : s.step c cs = .extend s') : scan (.inString s) (c :: cs) = scan (.inString s') cs := by
  rw [scan, h]

/-- The four digits of an escaped unit. -/
theorem scan_unit {n : Nat} {digits : List Char} (h : SpellsUnit n digits) (rest : List Char) :
    scan (.inString { s with place := .hex 3 0 }) (digits ++ rest) =
      scan (.inString (s.pushUnit n)) rest := by
  cases h with
  | @digits d₁ d₂ d₃ d₄ c₁ c₂ c₃ c₄ h₁ h₂ h₃ h₄ =>
    have h₁ := hexDigit?_of_isHexDigit h₁
    have h₂ := hexDigit?_of_isHexDigit h₂
    have h₃ := hexDigit?_of_isHexDigit h₃
    have h₄ := hexDigit?_of_isHexDigit h₄
    simp only [List.cons_append, List.nil_append, scan, TextState.step, h₁, h₂, h₃, h₄,
      Nat.zero_mul, Nat.zero_add]
    rfl

/-- An escaped unit has its four digits before the text ends. -/
theorem hasFourBytes_of_spellsUnit {n : Nat} {digits : List Char} (h : SpellsUnit n digits)
    (rest : List Char) : hasFourBytes (digits ++ rest) := by
  cases h with
  | @digits d₁ d₂ d₃ d₄ c₁ c₂ c₃ c₄ h₁ h₂ h₃ h₄ =>
    have h₁ := c₁.utf8Size_pos
    have h₂ := c₂.utf8Size_pos
    have h₃ := c₃.utf8Size_pos
    have h₄ := c₄.utf8Size_pos
    refine decide_eq_true ?_
    simp only [List.cons_append, List.nil_append, List.take_succ_cons, List.take_zero,
      List.foldl_cons, List.foldl_nil]
    omega

theorem scan_pieces {pieces : List Piece} {text : List Char} (h : SpellsPieces pieces text)
    (hplace : s.place = .plain) (rest : List Char) :
    scan (.inString s) (text ++ rest) = scan (.inString (pieces.foldl TextState.read s)) rest := by
  induction h generalizing s with
  | nil => rfl
  | @plain c pieces text hcontrol hquote hbackslash h ih =>
    have hstep : s.step c (text ++ rest) = .extend (s.push c) := by
      simp [TextState.step, *]
    rw [List.cons_append, scan_inString_extend hstep]
    exact ih (TextState.place_read (.char c))
  | @escape letter c pieces text hletter h ih =>
    obtain ⟨hu, hescaped⟩ := escaped?_of_mem_shortEscapes hletter
    have hstep : s.step '\\' (letter :: (text ++ rest)) = .extend { s with place := .escape } := by
      simp [TextState.step, hplace]
    have hletter : { s with place := .escape }.step letter (text ++ rest) =
        .extend (s.push c) := by
      simp [TextState.step, hu, hescaped, TextState.push]
    rw [List.cons_append, List.cons_append, scan_inString_extend hstep,
      scan_inString_extend hletter]
    exact ih (TextState.place_read (.char c))
  | @unit n digits pieces text hdigits h ih =>
    have hstep : s.step '\\' ('u' :: (digits ++ text ++ rest)) =
        .extend { s with place := .escape } := by
      simp [TextState.step, hplace]
    have hu : { s with place := .escape }.step 'u' (digits ++ text ++ rest) =
        .extend { s with place := .hex 3 0 } := by
      have hfour := hasFourBytes_of_spellsUnit hdigits (text ++ rest)
      simp [TextState.step, hfour]
    rw [List.cons_append, List.cons_append, scan_inString_extend hstep, scan_inString_extend hu,
      List.append_assoc, scan_unit hdigits]
    exact ih (TextState.place_read (.unit n))

/-- A string is read as the text that its pieces stand for. -/
theorem scan_string {pieces : List Piece} {text : List Char} (h : SpellsPieces pieces text)
    (rest : List Char) :
    scan .between ('"' :: text ++ '"' :: rest) =
      .string ((Piece.text? pieces).map String.ofList) :: scan .between rest := by
  have hstart : start? '"' = some ([], .inString {}) := rfl
  rw [List.cons_append, scan_between_cons, hstart]
  show scan (.inString {}) (text ++ '"' :: rest) = _
  have hplace : (pieces.foldl TextState.read {}).place = .plain := TextState.place_foldl rfl pieces
  have hstep : (pieces.foldl TextState.read {}).step '"' rest =
      .finish ((Piece.text? pieces).map String.ofList) := by
    simp [TextState.step, hplace, TextState.text?_foldl]
  rw [scan_pieces h rfl, scan, hstep]

end Token

/-! ## Numbers -/

/-- At least one decimal digit. -/
def IsDigits (text : List Char) : Prop :=
  text ≠ [] ∧ ∀ c ∈ text, isDigit c

/-- The digits before the point, with no zero at the front. -/
inductive IsWholePart : List Char → Prop where
  | zero : IsWholePart ['0']
  | digits {c : Char} {text : List Char} (hc : isDigit c) (hzero : c ≠ '0')
      (h : ∀ c ∈ text, isDigit c) : IsWholePart (c :: text)

/-- The point and the digits after it, or nothing. -/
inductive IsFractionPart : List Char → Prop where
  | none : IsFractionPart []
  | point {text : List Char} (h : IsDigits text) : IsFractionPart ('.' :: text)

/-- The letter of an exponent, an optional sign and digits, or nothing. -/
inductive IsExponentPart : List Char → Prop where
  | none : IsExponentPart []
  | unsigned {mark : Char} {text : List Char} (hmark : mark = 'e' ∨ mark = 'E')
      (h : IsDigits text) : IsExponentPart (mark :: text)
  | signed {mark sign : Char} {text : List Char} (hmark : mark = 'e' ∨ mark = 'E')
      (hsign : sign = '+' ∨ sign = '-') (h : IsDigits text) :
      IsExponentPart (mark :: sign :: text)

/-- A number in JSON. -/
inductive IsNumeral : List Char → Prop where
  | parts {sign whole fraction exponent : List Char} (hsign : sign = [] ∨ sign = ['-'])
      (hwhole : IsWholePart whole) (hfraction : IsFractionPart fraction)
      (hexponent : IsExponentPart exponent) :
      IsNumeral (sign ++ (whole ++ (fraction ++ exponent)))

namespace NumeralState

/-- The text leads from one state of a numeral to another. -/
inductive Reads : NumeralState → List Char → NumeralState → Prop where
  | nil {s : NumeralState} : Reads s [] s
  | cons {s s' s'' : NumeralState} {c : Char} {text : List Char} (hstep : s.step c = .extend s')
      (h : Reads s' text s'') : Reads s (c :: text) s''

namespace Reads

variable {s s' s'' : NumeralState} {text text' : List Char}

theorem append (h : Reads s text s') (h' : Reads s' text' s'') : Reads s (text ++ text') s'' := by
  induction h with
  | nil => exact h'
  | cons hstep _ ih => exact .cons hstep (ih h')

/-- A state in which digits are read and that they do not change. -/
theorem digits (hstep : ∀ c, isDigit c → s.step c = .extend s) (h : ∀ c ∈ text, isDigit c) :
    Reads s text s := by
  induction text with
  | nil => exact .nil
  | cons c text ih =>
    obtain ⟨hc, htext⟩ := List.forall_mem_cons.mp h
    exact .cons (hstep c hc) (ih htext)

/-- A state that the first digit changes. -/
theorem isDigits (hfirst : ∀ c, isDigit c → s.step c = .extend s')
    (hstep : ∀ c, isDigit c → s'.step c = .extend s') (h : IsDigits text) : Reads s text s' := by
  obtain ⟨hne, hdigits⟩ := h
  cases text with
  | nil => exact absurd rfl hne
  | cons c text =>
    obtain ⟨hc, htext⟩ := List.forall_mem_cons.mp hdigits
    exact .cons (hfirst c hc) (digits hstep htext)

end Reads

/-- A point may follow. -/
def IsInteger (s : NumeralState) : Prop :=
  s = zero ∨ s = whole

/-- An exponent may follow. -/
def IsMantissa (s : NumeralState) : Prop :=
  IsInteger s ∨ s = fraction

theorem reads_fractionPart {text : List Char} (h : IsFractionPart text) {s : NumeralState}
    (hs : IsInteger s) : ∃ s', Reads s text s' ∧ IsMantissa s' := by
  cases h with
  | none => exact ⟨s, .nil, .inl hs⟩
  | point h =>
    have hpoint : s.step '.' = .extend point := by
      obtain rfl | rfl := hs <;> rfl
    refine ⟨fraction, .cons hpoint (.isDigits ?_ ?_ h), .inr rfl⟩ <;>
      exact fun c hc => if_pos hc

theorem reads_exponentPart {text : List Char} (h : IsExponentPart text) {s : NumeralState}
    (hs : IsMantissa s) : ∃ s', Reads s text s' ∧ s'.isComplete := by
  have hmark {c : Char} (hc : c = 'e' ∨ c = 'E') : s.step c = .extend mark := by
    obtain (rfl | rfl) | rfl := hs <;> obtain rfl | rfl := hc <;> rfl
  cases h with
  | none =>
    refine ⟨s, .nil, ?_⟩
    obtain (rfl | rfl) | rfl := hs <;> rfl
  | unsigned hletter h =>
    refine ⟨exponent, .cons (hmark hletter) (.isDigits ?_ ?_ h), rfl⟩ <;>
      exact fun c hc => if_pos hc
  | @signed letter sign text hletter hsign h =>
    have hsign : mark.step sign = .extend markSign := by
      obtain rfl | rfl := hsign <;> rfl
    refine ⟨exponent, .cons (hmark hletter) (.cons hsign (.isDigits ?_ ?_ h)), rfl⟩ <;>
      exact fun c hc => if_pos hc

/-- The first digit, from the start of a numeral or after the sign. -/
theorem reads_wholePart {c : Char} {text : List Char} (h : IsWholePart (c :: text)) :
    ∃ s s', start? c = some s ∧ minus.step c = .extend s ∧ Reads s text s' ∧ IsInteger s' := by
  cases h with
  | zero => exact ⟨zero, zero, rfl, rfl, .nil, .inl rfl⟩
  | digits hc hzero h =>
    have hminus : c ≠ '-' := by
      rintro rfl
      exact nomatch hc
    refine ⟨whole, whole, ?_, ?_, .digits (fun c hc => if_pos hc) h, .inr rfl⟩
    · simp [start?, hminus, hzero, hc]
    · simp [step, hzero, hc]

/-- A numeral has a first character, and the others lead to its end. -/
theorem reads_numeral {text : List Char} (h : IsNumeral text) :
    ∃ c cs s s', text = c :: cs ∧ start? c = some s ∧ Reads s cs s' ∧ s'.isComplete := by
  cases h with
  | @parts sign whole fraction exponent hsign hwhole hfraction hexponent =>
    obtain ⟨c, cs, rfl⟩ : ∃ c cs, whole = c :: cs := by
      cases hwhole <;> exact ⟨_, _, rfl⟩
    obtain ⟨s, s₁, hstart, hminus, h₁, hs₁⟩ := reads_wholePart hwhole
    obtain ⟨s₂, h₂, hs₂⟩ := reads_fractionPart hfraction hs₁
    obtain ⟨s₃, h₃, hs₃⟩ := reads_exponentPart hexponent hs₂
    have hreads : Reads s (cs ++ (fraction ++ exponent)) s₃ := h₁.append (h₂.append h₃)
    obtain rfl | rfl := hsign
    · exact ⟨c, _, s, s₃, rfl, hstart, hreads, hs₃⟩
    · exact ⟨'-', _, minus, s₃, rfl, rfl, .cons hminus hreads, hs₃⟩

end NumeralState

namespace Token

/-- The first character of a numeral starts no other token. -/
theorem start?_of_numeral {c : Char} {s : NumeralState} (h : NumeralState.start? c = some s) :
    start? c = some ([], .inNumeral s [c]) := by
  have hdelimiter : ¬ isDelimiter c := by
    intro hc
    rw [NumeralState.start?_of_isDelimiter hc] at h
    exact nomatch h
  have hblank : ¬ isBlank c := fun hc => hdelimiter (isDelimiter_of_isBlank hc)
  have hquote : c ≠ '"' := by
    rintro rfl
    exact nomatch h
  have hpunctuation : punctuation? c = none :=
    Option.not_isSome_iff_eq_none.mp fun hc => hdelimiter (by simp [isDelimiter, hc])
  simp only [start?, if_neg hblank, if_neg hquote, hpunctuation, h]

theorem scan_reads {s s' : NumeralState} {text : List Char} (h : s.Reads text s')
    (read rest : List Char) :
    scan (.inNumeral s read) (text ++ rest) =
      scan (.inNumeral s' (text.reverse ++ read)) rest := by
  induction h generalizing read with
  | nil => rfl
  | cons hstep _ ih =>
    rw [List.cons_append, scan, hstep, List.reverse_cons, List.append_assoc]
    exact ih _

/-- A numeral is read as its number if no digit follows. -/
theorem scan_numeral {text : List Char} (h : IsNumeral text) {rest : List Char}
    (hrest : Delimited rest) :
    scan .between (text ++ rest) = .number (Number.ofNumeral? text) :: scan .between rest := by
  obtain ⟨c, cs, s, s', rfl, hstart, hreads, hcomplete⟩ := NumeralState.reads_numeral h
  rw [List.cons_append, scan_between_cons, start?_of_numeral hstart]
  show scan (.inNumeral s [c]) (cs ++ rest) = _
  rw [scan_reads hreads, scan_inNumeral_of_delimited hcomplete hrest]
  simp

end Token

/-! ## Values -/

/-- The text is a JSON value that stands for the tree, with blanks around it or not.
In an empty container, `inside` is what stands between its ends. -/
inductive Spells : Node → List Char → Prop where
  | null : Spells .null ['n', 'u', 'l', 'l']
  | boolean_true : Spells (.boolean true) ['t', 'r', 'u', 'e']
  | boolean_false : Spells (.boolean false) ['f', 'a', 'l', 's', 'e']
  | number {text : List Char} (h : IsNumeral text) : Spells (.number (Number.ofNumeral? text)) text
  | string {pieces : List Piece} {text : List Char} (h : SpellsPieces pieces text) :
      Spells (.string ((Piece.text? pieces).map String.ofList)) ('"' :: text ++ ['"'])
  | array {inside : List Char} {items : List (Node × List Char)}
      (hinside : ∀ c ∈ inside, isBlank c) (h : ∀ x ∈ items, Spells x.1 x.2) :
      Spells (.array (items.map Prod.fst) .closed)
        ('[' :: inside ++ commaSeparated (items.map Prod.snd) ++ [']'])
  | object {inside : List Char} {members : List Entry} (hinside : ∀ c ∈ inside, isBlank c)
      (hkeys : ∀ m ∈ members, Spells (.string m.key) m.keyText)
      (hvalues : ∀ m ∈ members, Spells m.value m.valueText) :
      Spells (.object (members.map Entry.node) .closed)
        ('\x7b' :: inside ++ commaSeparated (members.map Entry.text) ++ ['\x7d'])
  | blanks {before after text : List Char} {n : Node} (hbefore : ∀ c ∈ before, isBlank c)
      (hafter : ∀ c ∈ after, isBlank c) (h : Spells n text) :
      Spells n (before ++ text ++ after)

namespace Spells

variable {n : Node} {text : List Char}

/-- A text that spells a string can be a key. -/
theorem isKey {key : Option String} (h : Spells (.string key) text) : IsKey key text := by
  generalize hn : Node.string key = n at h
  induction h with
  | string h =>
    cases hn
    intro rest
    rw [List.append_assoc]
    exact Token.scan_string h rest
  | @blanks before after text n hbefore hafter _ ih =>
    intro rest
    rw [List.append_assoc, List.append_assoc, Token.scan_blanks hbefore, ih hn,
      Token.scan_blanks hafter]
  | _ => exact nomatch hn

/-- Whatever spells a tree is read as that tree. -/
theorem whole (h : Spells n text) : Whole n text := by
  induction h with
  | null => exact .of_build rfl rfl
  | boolean_true => exact .of_build rfl rfl
  | boolean_false => exact .of_build rfl rfl
  | @number text h =>
    refine .of_build ?_ rfl
    rw [← List.append_nil text, Token.scan_numeral h delimited_nil, List.append_nil]
    rfl
  | string h =>
    refine .of_build ?_ rfl
    rw [Token.scan_string h []]
    rfl
  | array hinside _ ih => exact .array hinside ih
  | object hinside hkeys _ _ ih => exact .object hinside (fun m hm => (hkeys m hm).isKey) ih
  | blanks hbefore hafter _ ih => exact (ih.blanks_append hbefore).append_blanks hafter

/-- The value of each member of an object has a text of its own. -/
theorem exists_of_mem_object {members : List (Node × Node)} {ending : Ending}
    (h : Spells (.object members ending) text) {m : Node × Node} (hm : m ∈ members) :
    ∃ value, Spells m.2 value := by
  generalize hn : Node.object members ending = n at h
  induction h with
  | object _ _ hvalues =>
    cases hn
    obtain ⟨entry, hentry, rfl⟩ := List.mem_map.mp hm
    exact ⟨_, hvalues entry hentry⟩
  | blanks _ _ _ ih => exact ih hn
  | _ => exact nomatch hn

end Spells

end FlatRecord.Json
