import FlatRecord.Proofs.Declaration
import FlatRecord.Proofs.Packing

/-!
# Names by their code points

Names are sorted by their UTF-8 bytes.  This module says that this is the order of
their characters by number, so that no layout depends on which of the two orders
its fields are sorted by.

* `Utf8.Parts` says of two strings of bytes that one byte decides between them.  It
  does not matter then what follows (`Parts.compare_append`).
* A character is written as digits in base 64 behind a mark for their number
  (`Utf8.utf8EncodeChar_eq`).  `parts_continuation` is the induction over the digits,
  and `parts_utf8EncodeChar` adds that the marks grow with the number of digits.
* `Name.compare_eq_compare_codePoints` follows by induction over two names, one
  character of each at a time, however many bytes each of them takes.
* `Entry.eq_sorted_of_codePoints` says that fields of different names have one order
  by code points, and that it is the one that they are placed in.
-/

namespace FlatRecord

namespace Utf8

/-! ## Strings of bytes that part -/

/-- The strings have the same bytes up to a place where the first has a smaller byte
than the second. -/
inductive Parts : Bytes → Bytes → Prop where
  | here {x y : UInt8} (h : x < y) (xs ys : Bytes) : Parts (x :: xs) (y :: ys)
  | later (x : UInt8) {xs ys : Bytes} (h : Parts xs ys) : Parts (x :: xs) (x :: ys)

/-- Whatever follows, the first string is the smaller one. -/
theorem Parts.compare_append {xs ys : Bytes} (h : Parts xs ys) (as bs : Bytes) :
    Ord.compare (xs ++ as) (ys ++ bs) = .lt := by
  induction h with
  | here h xs ys =>
    rw [List.cons_append, List.cons_append, List.compare_cons_cons, Std.compare_eq_lt.mpr h]
    rfl
  | later x h ih =>
    rw [List.cons_append, List.cons_append, List.compare_cons_cons, Std.ReflOrd.compare_self, ih]
    rfl

/-- A common start decides nothing. -/
theorem compare_append_left (xs as bs : Bytes) :
    Ord.compare (xs ++ as) (xs ++ bs) = Ord.compare as bs := by
  induction xs with
  | nil => rfl
  | cons x xs ih =>
    rw [List.cons_append, List.cons_append, List.compare_cons_cons, Std.ReflOrd.compare_self, ih]
    rfl

/-! ## The bytes of a character -/

/-- The lowest `k` digits of a number in base 64, the highest of them first. -/
def continuation : (k : Nat) → Nat → Bytes
  | 0, _ => []
  | k + 1, n => UInt8.ofNat (n / 64 ^ k % 64 + 128) :: continuation k n

/-- How many bytes follow the first one of a character. -/
def following (n : Nat) : Nat :=
  if n ≤ 0x7f then 0 else if n ≤ 0x7ff then 1 else if n ≤ 0xffff then 2 else 3

/-- What tells from the first byte how many follow. -/
def mark : Nat → Nat
  | 0 => 0
  | 1 => 0xc0
  | 2 => 0xe0
  | _ => 0xf0

/-- The first byte of a character: the mark, and the digits that do not follow. -/
def lead (n : Nat) : Nat :=
  n / 64 ^ following n + mark (following n)

theorem toNat_lt (c : Char) : c.toNat < 0x110000 := by
  have hvalid : c.val.toNat.isValidChar := c.valid
  show c.val.toNat < 0x110000
  cases hvalid with
  | inl h => omega
  | inr h => omega

theorem utf8EncodeChar_eq (c : Char) :
    String.utf8EncodeChar c =
      UInt8.ofNat (lead c.toNat) :: continuation (following c.toNat) c.toNat := by
  have hmax : c.toNat < 0x110000 := toNat_lt c
  have hval : c.val.toNat = c.toNat := rfl
  simp only [String.utf8EncodeChar, hval]
  generalize c.toNat = n at hmax
  -- The digits of the first byte are cut off there, which loses none of them.
  by_cases hone : n ≤ 0x7f
  · simp [lead, following, mark, continuation, hone]
  by_cases htwo : n ≤ 0x7ff
  · have hlead : n / 64 % 32 = n / 64 := by omega
    simp [lead, following, mark, continuation, hone, htwo, hlead]
  by_cases hthree : n ≤ 0xffff
  · have hlead : n / 4096 % 16 = n / 4096 := by omega
    simp [lead, following, mark, continuation, hone, htwo, hthree, hlead]
  · have hlead : n / 262144 % 8 = n / 262144 := by omega
    simp [lead, following, mark, continuation, hone, htwo, hthree, hlead]

theorem following_le {m n : Nat} (h : m < n) : following m ≤ following n := by
  unfold following
  split_ifs <;> omega

theorem lead_lt_size {n : Nat} (h : n < 0x110000) : lead n < UInt8.size := by
  unfold lead following
  split_ifs <;> simp [mark, UInt8.size] <;> omega

/-- The marks leave room for the digits of the first byte. -/
theorem lead_lt_of_following_lt {m n : Nat} (hn : n < 0x110000)
    (h : following m < following n) : lead m < lead n := by
  unfold following at h
  unfold lead following
  -- One case for each two lengths, in which all bounds on the digits are numerals.
  split_ifs at h ⊢ <;> simp [mark] <;> omega

theorem parts_continuation {k m n : Nat} (h : m % 64 ^ k < n % 64 ^ k) :
    Parts (continuation k m) (continuation k n) := by
  induction k with
  | zero => omega
  | succ k ih =>
    rw [Nat.mod_pow_succ, Nat.mod_pow_succ] at h
    have hm : m / 64 ^ k % 64 < 64 := Nat.mod_lt _ (by decide)
    have hn : n / 64 ^ k % 64 < 64 := Nat.mod_lt _ (by decide)
    have hlow : n % 64 ^ k < 64 ^ k := Nat.mod_lt _ (Nat.pow_pos (by decide))
    unfold continuation
    rcases Nat.lt_trichotomy (m / 64 ^ k % 64) (n / 64 ^ k % 64) with hlt | heq | hgt
    · apply Parts.here
      rw [UInt8.lt_iff_toNat_lt, UInt8.toNat_ofNat', UInt8.toNat_ofNat']
      omega
    · rw [heq] at h ⊢
      exact Parts.later _ (ih (by omega))
    · -- One more in the higher digit outweighs all the lower digits.
      have hmul : 64 ^ k * (n / 64 ^ k % 64 + 1) ≤ 64 ^ k * (m / 64 ^ k % 64) :=
        Nat.mul_le_mul_left _ hgt
      rw [Nat.mul_succ] at hmul
      omega

/-- The bytes of a character decide against those of one with a smaller number. -/
theorem parts_utf8EncodeChar {c d : Char} (h : c.toNat < d.toNat) :
    Parts (String.utf8EncodeChar c) (String.utf8EncodeChar d) := by
  have hd := toNat_lt d
  have hhere (hlead : lead c.toNat < lead d.toNat) :
      Parts (String.utf8EncodeChar c) (String.utf8EncodeChar d) := by
    rw [utf8EncodeChar_eq, utf8EncodeChar_eq]
    apply Parts.here
    rw [UInt8.lt_iff_toNat_lt, UInt8.toNat_ofNat_of_lt' (lead_lt_size (h.trans hd)),
      UInt8.toNat_ofNat_of_lt' (lead_lt_size hd)]
    exact hlead
  rcases Nat.lt_or_eq_of_le (following_le h) with hfollowing | hfollowing
  · exact hhere (lead_lt_of_following_lt hd hfollowing)
  · have hdiv : c.toNat / 64 ^ following d.toNat ≤ d.toNat / 64 ^ following d.toNat :=
      Nat.div_le_div_right h.le
    rcases Nat.lt_or_eq_of_le hdiv with hlt | heq
    · apply hhere
      unfold lead
      rw [hfollowing]
      omega
    · have hmod : c.toNat % 64 ^ following d.toNat < d.toNat % 64 ^ following d.toNat := by
        have hc := Nat.div_add_mod c.toNat (64 ^ following d.toNat)
        have hd := Nat.div_add_mod d.toNat (64 ^ following d.toNat)
        rw [heq] at hc
        omega
      have hlead : lead c.toNat = lead d.toNat := by
        unfold lead
        rw [hfollowing, heq]
      rw [utf8EncodeChar_eq, utf8EncodeChar_eq, hlead, hfollowing]
      exact Parts.later _ (parts_continuation hmod)

end Utf8

/-! ## Names -/

namespace Name

/-- The numbers of the characters of a name. -/
def codePoints (name : String) : List Nat :=
  name.toList.map Char.toNat

/-- Whether `a` may stand before `b` when names are sorted by code points. -/
def leByCodePoint (a b : String) : Bool :=
  (Ord.compare (codePoints a) (codePoints b)).isLE

theorem compare_flatMap_utf8 (cs ds : List Char) :
    Ord.compare (cs.flatMap String.utf8EncodeChar) (ds.flatMap String.utf8EncodeChar) =
      Ord.compare (cs.map Char.toNat) (ds.map Char.toNat) := by
  induction cs generalizing ds with
  | nil =>
    cases ds with
    | nil => rfl
    | cons d ds =>
      rw [List.flatMap_cons, Utf8.utf8EncodeChar_eq]
      rfl
  | cons c cs ih =>
    cases ds with
    | nil =>
      rw [List.flatMap_cons, Utf8.utf8EncodeChar_eq]
      rfl
    | cons d ds =>
      rw [List.flatMap_cons, List.flatMap_cons, List.map_cons, List.map_cons,
        List.compare_cons_cons]
      rcases Nat.lt_trichotomy c.toNat d.toNat with hlt | heq | hgt
      · rw [(Utf8.parts_utf8EncodeChar hlt).compare_append, Std.compare_eq_lt.mpr hlt]
        rfl
      · rw [Char.toNat_inj.mp heq, Utf8.compare_append_left, Std.ReflOrd.compare_self, ih]
        rfl
      · rw [Std.OrientedOrd.eq_swap, (Utf8.parts_utf8EncodeChar hgt).compare_append,
          Std.compare_eq_gt.mpr hgt]
        rfl

theorem compare_eq_compare_codePoints (a b : String) :
    compare a b = Ord.compare (codePoints a) (codePoints b) :=
  compare_flatMap_utf8 a.toList b.toList

theorem leByCodePoint_eq (a b : String) : leByCodePoint a b = le a b := by
  rw [leByCodePoint, le, compare_eq_compare_codePoints]

end Name

/-! ## Layouts -/

namespace Entry

variable {fields : List Field} {entries : List Entry}

/-- Fields of different names have one order by code points, however they were
sorted, and it is the order of their bytes. -/
theorem eq_sorted_of_codePoints (hnodup : ((fields.filter Field.included).map Field.name).Nodup)
    (hperm : entries.Perm (included fields))
    (hsorted : entries.Pairwise fun a b => Name.leByCodePoint a.name b.name) :
    entries = sorted fields := by
  have hnames : ((sorted fields).map Entry.name).Nodup :=
    (map_name_sorted_perm fields).nodup_iff.mpr hnodup
  have hboth : entries.Perm (sorted fields) := hperm.trans (sortByName_perm _).symm
  have hle : entries.Pairwise fun a b => Name.le a.name b.name := by
    simpa only [Name.leByCodePoint_eq] using hsorted
  refine hboth.eq_of_pairwise ?_ hle (pairwise_sortByName _)
  intro a b ha hb hab hba
  exact List.inj_on_of_nodup_map hnames (hboth.mem_iff.mp ha) hb (Name.le_antisymm hab hba)

end Entry

namespace Layout

variable {fields : List Field} {packing : Packing} {l : Layout}

/-- The scalars are placed in the order of their entries. -/
theorem map_name_scalars (h : arrange fields packing = .ok l) :
    (l.placements.filter fun p => !p.isBool).map Placement.name =
      (Entry.others fields).map Entry.name := by
  obtain ⟨_, scalars, hback, rfl⟩ := arrange_eq_ok_iff.mp h
  have hs : ∀ x ∈ scalars, x.2 ≠ .bool := fun _ => Entry.ne_bool_of_mem_withBacking hback
  rw [filter_placements_assemble packing _ hs, map_name_placeScalars,
    Entry.map_fst_of_withBacking hback]

/-- The booleans are placed in the order of their entries. -/
theorem map_name_booleans (h : arrange fields packing = .ok l) :
    (l.placements.filter Placement.isBool).map Placement.name =
      (Entry.booleans fields).map Entry.name := by
  obtain ⟨_, scalars, hback, rfl⟩ := arrange_eq_ok_iff.mp h
  have hs : ∀ x ∈ scalars, x.2 ≠ .bool := fun _ => Entry.ne_bool_of_mem_withBacking hback
  rw [filter_isBool_assemble packing _ hs]
  exact map_mapIdx_flagAt_eq_map Entry.name (fun _ _ => rfl) _

/-- The bytes of two names stand to each other as their code points do.  So fields of
different names that are sorted by code points, in whatever way, have the layout of
those sorted by bytes or are refused with the same error, and the scalars and the
booleans of the layout both stand in the order of the sorted fields. -/
theorem arrange_by_codePoints :
    (∀ a b : String,
      Name.compare a b = Ord.compare (Name.codePoints a) (Name.codePoints b)) ∧
    ∀ (fields : List Field) (packing : Packing) (entries : List Entry),
      ((fields.filter Field.included).map Field.name).Nodup →
      entries.Perm (Entry.included fields) →
      (entries.Pairwise fun a b => Name.leByCodePoint a.name b.name) →
        ofSorted packing entries = arrange fields packing ∧
        ∀ l, arrange fields packing = .ok l →
          (l.placements.filter fun p => !p.isBool).map Placement.name =
              (entries.filter fun e => !e.field.type.isBool).map Entry.name ∧
            (l.placements.filter Placement.isBool).map Placement.name =
              (entries.filter fun e => e.field.type.isBool).map Entry.name := by
  refine ⟨Name.compare_eq_compare_codePoints, ?_⟩
  intro fields packing entries hnodup hperm hsorted
  have hentries : entries = Entry.sorted fields :=
    Entry.eq_sorted_of_codePoints hnodup hperm hsorted
  rw [hentries]
  refine ⟨(arrange_eq_ofSorted fields packing).symm, ?_⟩
  intro l hl
  exact ⟨map_name_scalars hl, map_name_booleans hl⟩

/-- Names of one character, which takes from one to four bytes.  By the units of UTF-16
the one of four bytes would come before the one of three. -/
def polyglotFields : List Field :=
  [{ name := "😀", type := .scalar .u16 }, { name := "ﬀ", type := .scalar .u8 },
    { name := "é", type := .scalar .bool }, { name := "z", type := .scalar .bool }]

theorem arrange_by_codePoints_polyglot :
    Name.compare "ﬀ" "😀" = .lt ∧
      ofSorted .dense ((Entry.included polyglotFields).reverse) =
        arrange polyglotFields .dense ∧
      ∃ l, arrange polyglotFields .dense = .ok l ∧
        (l.placements.filter fun p => !p.isBool).map Placement.name = ["ﬀ", "😀"] ∧
        (l.placements.filter Placement.isBool).map Placement.name = ["z", "é"] := by
  obtain ⟨hcompare, hlayout⟩ := arrange_by_codePoints
  obtain ⟨heq, horder⟩ := hlayout polyglotFields .dense (Entry.included polyglotFields).reverse
    (by decide) (List.reverse_perm _) (by decide)
  obtain ⟨l, hl⟩ : ∃ l, arrange polyglotFields .dense = .ok l := ⟨_, rfl⟩
  obtain ⟨hscalars, hbooleans⟩ := horder l hl
  refine ⟨?_, heq, l, hl, ?_, ?_⟩
  · rw [hcompare]
    decide
  · rw [hscalars]
    decide
  · rw [hbooleans]
    decide

end Layout

end FlatRecord
