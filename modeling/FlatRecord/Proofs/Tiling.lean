import FlatRecord.Proofs.Arrangement
import Mathlib.Data.List.Nodup
import Mathlib.Data.List.Pairwise

/-!
# The placements tile the record

A placement owns the bits of a record that its value is stored in.  This module
says that the placements of a layout own every bit of the record once, but for
the spare bits of a last byte of flags.

There are four groups.

* `Placement.Owns` is the ownership of a bit, and `Placement.IsFlag` the case
  of a boolean that shares its byte.  `Placement.Within` says that a field lies inside
  the record and has the size of its type.
* The scalars follow each other without gaps.
* The booleans take one bit or one byte each.
* `Layout.WellFormed` collects what every layout keeps, and
  `wellFormed_of_arrange` proves it.  All later modules start from it and know
  nothing of how fields are placed.
-/

namespace FlatRecord

/-! ## Ownership -/

namespace Placement

/-- The field is a boolean that shares its byte. -/
def IsFlag (packing : Packing) (p : Placement) : Prop :=
  packing = .dense ∧ p.isBool = true

instance (packing : Packing) (p : Placement) : Decidable (p.IsFlag packing) :=
  inferInstanceAs (Decidable (packing = .dense ∧ p.isBool = true))

/-- Bit `j` of byte `i` of the record belongs to the field: the bit of a flag,
and all eight bits of each byte of any other field. -/
def Owns (packing : Packing) (p : Placement) (i j : Nat) : Prop :=
  if p.IsFlag packing then i = p.offset ∧ j = p.bit
  else p.offset ≤ i ∧ i < p.offset + p.size ∧ j < 8

instance (packing : Packing) (p : Placement) (i j : Nat) : Decidable (p.Owns packing i j) :=
  inferInstanceAs (Decidable (if p.IsFlag packing then i = p.offset ∧ j = p.bit
    else p.offset ≤ i ∧ i < p.offset + p.size ∧ j < 8))

variable {packing : Packing} {p : Placement} {i j : Nat}

theorem owns_of_isFlag (h : p.IsFlag packing) :
    p.Owns packing i j ↔ i = p.offset ∧ j = p.bit := by
  rw [Owns, if_pos h]

theorem owns_of_not_isFlag (h : ¬ p.IsFlag packing) :
    p.Owns packing i j ↔ p.offset ≤ i ∧ i < p.offset + p.size ∧ j < 8 := by
  rw [Owns, if_neg h]

theorem not_isFlag_of_loose : ¬ p.IsFlag .loose := fun h => nomatch h.1

theorem not_isFlag_of_backing_ne (h : p.backing ≠ .bool) : ¬ p.IsFlag packing :=
  fun hf => h (beq_iff_eq.mp hf.2)

/-- A boolean that is no flag has a byte of its own. -/
theorem eq_loose_of_not_isFlag (hbool : p.backing = .bool) (h : ¬ p.IsFlag packing) :
    packing = .loose := by
  cases packing with
  | loose => rfl
  | dense => exact absurd ⟨rfl, beq_iff_eq.mpr hbool⟩ h

/-- The bits of a field that takes a byte at least lie in its bytes. -/
theorem Owns.byte_mem (h : p.Owns packing i j) (hpos : 0 < p.size) :
    p.offset ≤ i ∧ i < p.offset + p.size := by
  by_cases hf : p.IsFlag packing
  · obtain ⟨rfl, _⟩ := (owns_of_isFlag hf).mp h
    omega
  · obtain ⟨hlo, hhi, _⟩ := (owns_of_not_isFlag hf).mp h
    exact ⟨hlo, hhi⟩

/-- Fields whose bytes are apart share no bit. -/
theorem Owns.not_owns_of_le {q : Placement} (h : p.Owns packing i j) (hp : 0 < p.size)
    (hq : 0 < q.size) (hle : p.offset + p.size ≤ q.offset) : ¬ q.Owns packing i j := by
  intro hown
  have hfirst := h.byte_mem hp
  have hsecond := hown.byte_mem hq
  omega

/-- A field that lies inside `n` bytes, and whose size is that of its type. -/
structure Within (p : Placement) (n : Nat) : Prop where
  inside : p.offset + p.size ≤ n
  bit_lt : p.bit < 8
  size_eq : p.size = p.backing.size

namespace Within

variable {n : Nat}

theorem size_pos (h : p.Within n) : 0 < p.size := by
  rw [h.size_eq]
  exact p.backing.size_pos

theorem offset_lt (h : p.Within n) : p.offset < n := by
  have hin := h.inside
  have hpos := h.size_pos
  omega

theorem size_of_bool (h : p.Within n) (hbool : p.backing = .bool) : p.size = 1 := by
  rw [h.size_eq, hbool]
  rfl

/-- The bits of a field lie in its bytes. -/
theorem byte_mem (h : p.Within n) (hown : p.Owns packing i j) :
    p.offset ≤ i ∧ i < p.offset + p.size :=
  hown.byte_mem h.size_pos

end Within

end Placement

namespace Layout

/-! ## Scalars -/

variable {offset : Nat} {scalars : List (Entry × Scalar)}

theorem scalarSize_cons (x : Entry × Scalar) (scalars : List (Entry × Scalar)) :
    scalarSize (x :: scalars) = x.2.size + scalarSize scalars := rfl

theorem bounds_of_mem_placeScalars {p : Placement} (hp : p ∈ placeScalars offset scalars) :
    offset ≤ p.offset ∧ p.offset + p.size ≤ offset + scalarSize scalars := by
  induction scalars generalizing offset with
  | nil => exact nomatch hp
  | cons x scalars ih =>
    rw [scalarSize_cons]
    rcases List.mem_cons.mp hp with rfl | hp
    · show offset ≤ offset ∧ offset + x.2.size ≤ offset + (x.2.size + scalarSize scalars)
      omega
    · have := ih hp
      omega

/-- Each scalar ends before the next begins. -/
theorem pairwise_placeScalars (offset : Nat) (scalars : List (Entry × Scalar)) :
    (placeScalars offset scalars).Pairwise fun p q => p.offset + p.size ≤ q.offset := by
  induction scalars generalizing offset with
  | nil => exact List.Pairwise.nil
  | cons x scalars ih =>
    refine List.pairwise_cons.mpr ⟨fun q hq => ?_, ih _⟩
    exact (bounds_of_mem_placeScalars hq).1

/-- There are no gaps between scalars. -/
theorem exists_mem_placeScalars {i : Nat} (hlo : offset ≤ i)
    (hhi : i < offset + scalarSize scalars) :
    ∃ p ∈ placeScalars offset scalars, p.offset ≤ i ∧ i < p.offset + p.size := by
  induction scalars generalizing offset with
  | nil =>
    simp only [scalarSize] at hhi
    omega
  | cons x scalars ih =>
    rw [scalarSize_cons] at hhi
    by_cases hx : i < offset + x.2.size
    · exact ⟨_, List.mem_cons_self, hlo, hx⟩
    · have hrest : ∃ p ∈ placeScalars (offset + x.2.size) scalars,
          p.offset ≤ i ∧ i < p.offset + p.size := ih (by omega) (by omega)
      rcases hrest with ⟨p, hp, hbounds⟩
      exact ⟨p, List.mem_cons_of_mem _ hp, hbounds⟩

theorem exists_of_mem_placeScalars {p : Placement} (hp : p ∈ placeScalars offset scalars) :
    ∃ x ∈ scalars, p.backing = x.2 ∧ p.size = x.2.size ∧ p.bit = 0 := by
  induction scalars generalizing offset with
  | nil => exact nomatch hp
  | cons x scalars ih =>
    rcases List.mem_cons.mp hp with rfl | hp
    · exact ⟨x, List.mem_cons_self, rfl, rfl, rfl⟩
    · obtain ⟨y, hy, hback⟩ := ih hp
      exact ⟨y, List.mem_cons_of_mem _ hy, hback⟩

/-- The size of a scalar is that of its type. -/
theorem size_eq_of_mem_placeScalars {p : Placement} (hp : p ∈ placeScalars offset scalars) :
    p.size = p.backing.size := by
  obtain ⟨x, _, hback, hsize, _⟩ := exists_of_mem_placeScalars hp
  rw [hsize, hback]

theorem size_pos_of_mem_placeScalars {p : Placement} (hp : p ∈ placeScalars offset scalars) :
    0 < p.size := by
  rw [size_eq_of_mem_placeScalars hp]
  exact p.backing.size_pos

theorem map_name_placeScalars (offset : Nat) (scalars : List (Entry × Scalar)) :
    (placeScalars offset scalars).map Placement.name =
      (scalars.map Prod.fst).map Entry.name := by
  induction scalars generalizing offset with
  | nil => rfl
  | cons x scalars ih => simp only [placeScalars, List.map_cons, ih]

/-! ## Booleans -/

variable {start k i j : Nat} {e : Entry}

theorem owns_flagAt_loose :
    (flagAt .loose start e k).Owns .loose i j ↔ i = start + k ∧ j < 8 := by
  rw [Placement.owns_of_not_isFlag Placement.not_isFlag_of_loose]
  show start + k ≤ i ∧ i < start + k + 1 ∧ j < 8 ↔ i = start + k ∧ j < 8
  omega

theorem owns_flagAt_dense :
    (flagAt .dense start e k).Owns .dense i j ↔ i = start + k / 8 ∧ j = k % 8 :=
  Placement.owns_of_isFlag ⟨rfl, rfl⟩

/-- Two booleans share no bit. -/
theorem disjoint_flagAt (packing : Packing) (start : Nat) (e e' : Entry) {k k' : Nat}
    (hk : k ≠ k') (h : (flagAt packing start e k).Owns packing i j) :
    ¬ (flagAt packing start e' k').Owns packing i j := by
  intro h'
  cases packing with
  | loose =>
    rw [owns_flagAt_loose] at h h'
    omega
  | dense =>
    rw [owns_flagAt_dense] at h h'
    omega

theorem bounds_flagAt (packing : Packing) (start : Nat) (e : Entry) {k n : Nat} (hk : k < n) :
    start ≤ (flagAt packing start e k).offset ∧
      (flagAt packing start e k).offset + 1 ≤ (Cursor.nth packing start n).bytesUsed := by
  cases packing with
  | loose =>
    rw [Cursor.bytesUsed_nth_loose]
    show start ≤ start + k ∧ start + k + 1 ≤ start + n
    omega
  | dense =>
    rw [Cursor.bytesUsed_nth_dense]
    show start ≤ start + k / 8 ∧ start + k / 8 + 1 ≤ start + (n + 7) / 8
    omega

theorem bit_flagAt_lt (packing : Packing) (start : Nat) (e : Entry) (k : Nat) :
    (flagAt packing start e k).bit < 8 := by
  cases packing with
  | loose => exact Nat.zero_lt_succ 7
  | dense => exact Nat.mod_lt k (by decide)

/-! ## The invariant of a layout -/

/-- The number of booleans of a record. -/
def flagCount (l : Layout) : Nat :=
  l.placements.countP Placement.isBool

/-- Bit `j` of byte `i` lies above the last flag of a partly used last byte. -/
def IsSpare (l : Layout) (i j : Nat) : Prop :=
  l.packing = .dense ∧ l.flagCount % 8 ≠ 0 ∧ i + 1 = l.totalSize ∧ l.flagCount % 8 ≤ j

instance (l : Layout) (i j : Nat) : Decidable (l.IsSpare i j) :=
  inferInstanceAs (Decidable (l.packing = .dense ∧ l.flagCount % 8 ≠ 0 ∧ i + 1 = l.totalSize ∧
    l.flagCount % 8 ≤ j))

/-- What every layout keeps. -/
structure WellFormed (l : Layout) : Prop where
  /-- Every field lies inside the record. -/
  within : ∀ p ∈ l.placements, p.Within l.totalSize
  /-- No bit belongs to two fields. -/
  disjoint : l.placements.Pairwise fun p q =>
    ∀ i j, p.Owns l.packing i j → ¬ q.Owns l.packing i j
  /-- The bits that belong to no field are the spare ones. -/
  unowned_iff : ∀ i j, i < l.totalSize → j < 8 →
    ((∀ p ∈ l.placements, ¬ p.Owns l.packing i j) ↔ l.IsSpare i j)
  nodup_names : (l.placements.map Placement.name).Nodup

variable {packing : Packing} {booleans : List Entry}

theorem not_isBool_of_mem_placeScalars (hs : ∀ x ∈ scalars, x.2 ≠ .bool) {p : Placement}
    (hp : p ∈ placeScalars offset scalars) : p.backing ≠ .bool := by
  obtain ⟨x, hx, hback, _⟩ := exists_of_mem_placeScalars hp
  rw [hback]
  exact hs x hx

theorem flagCount_assemble (packing : Packing) (booleans : List Entry)
    (hs : ∀ x ∈ scalars, x.2 ≠ .bool) :
    (assemble packing scalars booleans).flagCount = booleans.length := by
  have hscalars : (placeScalars 0 scalars).countP Placement.isBool = 0 := by
    refine List.countP_eq_zero.mpr fun p hp hbool => ?_
    exact not_isBool_of_mem_placeScalars hs hp (beq_iff_eq.mp hbool)
  have hflags : (booleans.mapIdx fun k e => flagAt packing (scalarSize scalars) e k).countP
      Placement.isBool = booleans.length := by
    rw [← List.length_mapIdx (f := fun k e => flagAt packing (scalarSize scalars) e k)]
    refine List.countP_eq_length.mpr fun p hp => ?_
    obtain ⟨k, hk, rfl⟩ := List.mem_mapIdx.mp hp
    rfl
  rw [flagCount, assemble, List.countP_append, hscalars, hflags, Nat.zero_add]

/-- A place of an assembled layout is that of a scalar or of a boolean. -/
theorem mem_placements_assemble {p : Placement} :
    p ∈ (assemble packing scalars booleans).placements ↔
      p ∈ placeScalars 0 scalars ∨
        ∃ k, ∃ h : k < booleans.length, p = flagAt packing (scalarSize scalars) booleans[k] k := by
  simp only [assemble, List.mem_append, List.mem_mapIdx, eq_comm]

theorem totalSize_assemble_loose (scalars : List (Entry × Scalar)) (booleans : List Entry) :
    (assemble .loose scalars booleans).totalSize = scalarSize scalars + booleans.length :=
  Cursor.bytesUsed_nth_loose _ _

theorem totalSize_assemble_dense (scalars : List (Entry × Scalar)) (booleans : List Entry) :
    (assemble .dense scalars booleans).totalSize =
      scalarSize scalars + (booleans.length + 7) / 8 :=
  Cursor.bytesUsed_nth_dense _ _

theorem scalarSize_le_totalSize (packing : Packing) (scalars : List (Entry × Scalar))
    (booleans : List Entry) :
    scalarSize scalars ≤ (assemble packing scalars booleans).totalSize := by
  cases packing with
  | loose => exact Nat.le_add_right _ _
  | dense =>
    rw [totalSize_assemble_dense]
    omega

/-- Fields of an assembled layout share no bit. -/
theorem pairwise_disjoint_assemble (packing : Packing) (scalars : List (Entry × Scalar))
    (booleans : List Entry) :
    (assemble packing scalars booleans).placements.Pairwise fun p q =>
      ∀ i j, p.Owns packing i j → ¬ q.Owns packing i j := by
  refine List.pairwise_append.mpr ⟨?_, ?_, ?_⟩
  · refine (pairwise_placeScalars 0 scalars).imp_of_mem fun hp hq hle i j hown => ?_
    exact hown.not_owns_of_le (size_pos_of_mem_placeScalars hp)
      (size_pos_of_mem_placeScalars hq) hle
  · rw [List.pairwise_iff_getElem]
    intro k k' hk hk' hlt i j hp
    rw [List.getElem_mapIdx] at hp ⊢
    exact disjoint_flagAt packing _ _ _ (Nat.ne_of_lt hlt) hp
  · intro p hp q hq i j hown
    obtain ⟨k, hk, rfl⟩ := List.mem_mapIdx.mp hq
    have hend := (bounds_of_mem_placeScalars hp).2
    have hstart := (bounds_flagAt packing (scalarSize scalars) booleans[k] hk).1
    exact hown.not_owns_of_le (size_pos_of_mem_placeScalars hp) Nat.one_pos (by omega)

/-- A byte of an assembled layout that no scalar takes belongs to the booleans.
There, the bit at a position is owned as long as there is a boolean for it. -/
theorem exists_flagAt_owns_iff {i j : Nat} (hi : scalarSize scalars ≤ i) (hj : j < 8) :
    (∃ k, ∃ h : k < booleans.length,
        (flagAt packing (scalarSize scalars) booleans[k] k).Owns packing i j) ↔
      match packing with
      | .loose => i < scalarSize scalars + booleans.length
      | .dense => 8 * (i - scalarSize scalars) + j < booleans.length := by
  cases packing with
  | loose =>
    simp only [owns_flagAt_loose]
    constructor
    · intro h
      rcases h with ⟨k, hk, hik, _⟩
      omega
    · intro hlt
      exact ⟨i - scalarSize scalars, by omega, by omega, hj⟩
  | dense =>
    simp only [owns_flagAt_dense]
    constructor
    · intro h
      rcases h with ⟨k, hk, hik, hjk⟩
      omega
    · intro hlt
      exact ⟨8 * (i - scalarSize scalars) + j, hlt, by omega, by omega⟩

/-- Behind the scalars, a bit that no field owns is one that no boolean owns. -/
theorem unowned_assemble_iff_of_le {i j : Nat} (hi : scalarSize scalars ≤ i) :
    (∀ p ∈ (assemble packing scalars booleans).placements, ¬ p.Owns packing i j) ↔
      ¬ ∃ k, ∃ h : k < booleans.length,
        (flagAt packing (scalarSize scalars) booleans[k] k).Owns packing i j := by
  constructor
  · intro h hexists
    rcases hexists with ⟨k, hk, hown⟩
    exact h _ (mem_placements_assemble.mpr (.inr ⟨k, hk, rfl⟩)) hown
  · intro h p hp hown
    rcases mem_placements_assemble.mp hp with hp | ⟨k, hk, rfl⟩
    · have hbounds := (bounds_of_mem_placeScalars hp).2
      have hbyte := hown.byte_mem (size_pos_of_mem_placeScalars hp)
      omega
    · exact h ⟨k, hk, hown⟩

/-- The bits of an assembled layout that belong to no field are the spare ones. -/
theorem unowned_assemble_iff (hs : ∀ x ∈ scalars, x.2 ≠ .bool) {i j : Nat}
    (hi : i < (assemble packing scalars booleans).totalSize) (hj : j < 8) :
    (∀ p ∈ (assemble packing scalars booleans).placements, ¬ p.Owns packing i j) ↔
      (assemble packing scalars booleans).IsSpare i j := by
  unfold IsSpare
  rw [flagCount_assemble packing booleans hs]
  by_cases hscalar : i < scalarSize scalars
  · obtain ⟨p, hp, hlo, hhi⟩ :=
      exists_mem_placeScalars (Nat.zero_le i) (by simpa using hscalar)
    have hown : p.Owns packing i j := by
      rw [Placement.owns_of_not_isFlag
        (Placement.not_isFlag_of_backing_ne (not_isBool_of_mem_placeScalars hs hp))]
      exact ⟨hlo, hhi, hj⟩
    constructor
    · intro h
      exact absurd hown (h p (mem_placements_assemble.mpr (.inl hp)))
    · intro h
      rcases h with ⟨hdense, hpart, hlast, _⟩
      obtain rfl : packing = .dense := hdense
      -- The last byte holds flags, so it is no byte of a scalar.
      rw [totalSize_assemble_dense] at hlast
      omega
  · rw [unowned_assemble_iff_of_le (by omega), exists_flagAt_owns_iff (by omega) hj]
    cases packing with
    | loose =>
      rw [totalSize_assemble_loose] at hi
      exact ⟨fun h => absurd hi h, fun h => nomatch h.1⟩
    | dense =>
      have hdense : (assemble .dense scalars booleans).packing = .dense := rfl
      rw [totalSize_assemble_dense] at hi ⊢
      simp only [hdense, true_and]
      omega

/-- The names of an assembled layout are those of the entries. -/
theorem map_name_assemble (packing : Packing) (scalars : List (Entry × Scalar))
    (booleans : List Entry) :
    (assemble packing scalars booleans).placements.map Placement.name =
      (scalars.map Prod.fst).map Entry.name ++ booleans.map Entry.name := by
  rw [assemble, List.map_append, map_name_placeScalars,
    map_mapIdx_flagAt_eq_map Entry.name fun _ _ => rfl]

/-- Every place of an assembled layout lies inside the record. -/
theorem within_of_mem_assemble {p : Placement}
    (hp : p ∈ (assemble packing scalars booleans).placements) :
    p.Within (assemble packing scalars booleans).totalSize := by
  rcases mem_placements_assemble.mp hp with hp | ⟨k, hk, rfl⟩
  · refine ⟨?_, ?_, size_eq_of_mem_placeScalars hp⟩
    · have hbounds := (bounds_of_mem_placeScalars hp).2
      have hle := scalarSize_le_totalSize packing scalars booleans
      omega
    · obtain ⟨_, _, _, _, hbit⟩ := exists_of_mem_placeScalars hp
      omega
  · exact ⟨(bounds_flagAt packing (scalarSize scalars) _ hk).2, bit_flagAt_lt packing _ _ k, rfl⟩

/-- Every layout is well formed. -/
theorem wellFormed_of_arrange {fields : List Field} {l : Layout}
    (h : arrange fields packing = .ok l) : l.WellFormed := by
  obtain ⟨hnames, scalars, hback, rfl⟩ := arrange_eq_ok_iff.mp h
  have hs : ∀ x ∈ scalars, x.2 ≠ .bool := fun x hx => Entry.ne_bool_of_mem_withBacking hback hx
  refine ⟨?_, ?_, ?_, ?_⟩
  · intro p hp
    exact within_of_mem_assemble hp
  · exact pairwise_disjoint_assemble packing scalars _
  · intro i j hi hj
    exact unowned_assemble_iff hs hi hj
  · rw [map_name_assemble, Entry.map_fst_of_withBacking hback, ← List.map_append]
    have hperm : (Entry.others fields ++ Entry.booleans fields).Perm (Entry.sorted fields) :=
      List.perm_append_comm.trans (List.filter_append_perm _ _)
    exact (hperm.map Entry.name).nodup_iff.mpr (Entry.nodup_names_of_checkNames hnames)

theorem packing_of_arrange {fields : List Field} {l : Layout}
    (h : arrange fields packing = .ok l) : l.packing = packing := by
  obtain ⟨_, scalars, _, rfl⟩ := arrange_eq_ok_iff.mp h
  rfl

/-- The booleans of a record are the stored boolean fields of the list. -/
theorem flagCount_of_arrange {fields : List Field} {l : Layout}
    (h : arrange fields packing = .ok l) : l.flagCount = Field.booleanCount fields := by
  obtain ⟨_, scalars, hback, rfl⟩ := arrange_eq_ok_iff.mp h
  have hs : ∀ x ∈ scalars, x.2 ≠ .bool := fun x hx => Entry.ne_bool_of_mem_withBacking hback hx
  rw [flagCount_assemble packing _ hs, Entry.length_booleans]

namespace WellFormed

variable {l : Layout} {p q : Placement} {i j : Nat}

/-- An owned bit lies inside the record. -/
theorem lt_of_owns (hl : l.WellFormed) (hp : p ∈ l.placements) (h : p.Owns l.packing i j) :
    i < l.totalSize ∧ j < 8 := by
  have hwithin := hl.within p hp
  have hbyte := hwithin.byte_mem h
  have hin := hwithin.inside
  refine ⟨by omega, ?_⟩
  by_cases hf : p.IsFlag l.packing
  · rw [((Placement.owns_of_isFlag hf).mp h).2]
    exact hwithin.bit_lt
  · exact ((Placement.owns_of_not_isFlag hf).mp h).2.2

/-- A bit has one owner at most. -/
theorem owner_unique (hl : l.WellFormed) (hp : p ∈ l.placements) (hq : q ∈ l.placements)
    (hpown : p.Owns l.packing i j) (hqown : q.Owns l.packing i j) : p = q := by
  by_contra hne
  have hsymm : Std.Symm fun p q : Placement =>
      ∀ i j, p.Owns l.packing i j → ¬ q.Owns l.packing i j :=
    ⟨fun _ _ h i j hq hp => h i j hp hq⟩
  exact hl.disjoint.forall hp hq hne i j hpown hqown

/-- A bit that is not spare has an owner. -/
theorem exists_owns (hl : l.WellFormed) (hi : i < l.totalSize) (hj : j < 8)
    (h : ¬ l.IsSpare i j) : ∃ p ∈ l.placements, p.Owns l.packing i j := by
  by_contra hnone
  exact h ((hl.unowned_iff i j hi hj).mp fun p hp hown => hnone ⟨p, hp, hown⟩)

/-- The lowest bit of every byte has an owner. -/
theorem exists_owns_zero (hl : l.WellFormed) (hi : i < l.totalSize) :
    ∃ p ∈ l.placements, p.Owns l.packing i 0 := by
  apply hl.exists_owns hi (by decide)
  intro hspare
  exact hspare.2.1 (Nat.le_zero.mp hspare.2.2.2)

end WellFormed

/-- The placements tile the record: owned bits lie inside it, no two placements
own one bit, every byte has an owned bit, and the bits that nobody owns are
those above the last boolean of a partly used last byte. -/
theorem placements_tile {fields : List Field} {l : Layout} (h : arrange fields packing = .ok l) :
    (∀ p ∈ l.placements, ∀ i j, p.Owns packing i j → i < l.totalSize ∧ j < 8) ∧
      (l.placements.Pairwise fun p q => ∀ i j, p.Owns packing i j → ¬ q.Owns packing i j) ∧
      (∀ i, i < l.totalSize → ∃ p ∈ l.placements, ∃ j, p.Owns packing i j) ∧
      ∀ i j, i < l.totalSize → j < 8 →
        ((∀ p ∈ l.placements, ¬ p.Owns packing i j) ↔
          packing = .dense ∧ Field.booleanCount fields % 8 ≠ 0 ∧ i + 1 = l.totalSize ∧
            Field.booleanCount fields % 8 ≤ j) := by
  have hl := wellFormed_of_arrange h
  obtain rfl := packing_of_arrange h
  refine ⟨fun p hp i j => hl.lt_of_owns hp, hl.disjoint, ?_, ?_⟩
  · intro i hi
    obtain ⟨p, hp, hown⟩ := hl.exists_owns_zero hi
    exact ⟨p, hp, 0, hown⟩
  · intro i j hi hj
    rw [← flagCount_of_arrange h]
    exact hl.unowned_iff i j hi hj

/-- A number, nine flags against the order of their names, and a field that is
not stored. -/
def nineFlags : List Field :=
  { name := "id", type := .scalar .u16 } ::
    { name := "note", type := .unsupported "String", included := false } ::
      ["i", "h", "g", "f", "e", "d", "c", "b", "a"].map fun name =>
        { name := name, type := .scalar .bool }

/-- Two bytes of the number, a full byte of flags, and the ninth flag in a byte
of which seven bits are spare. -/
def nineFlagsLayout : Layout where
  packing := .dense
  totalSize := 4
  placements :=
    { name := "id", index := 0, offset := 0, bit := 0, backing := .u16, size := 2 } ::
      ["a", "b", "c", "d", "e", "f", "g", "h", "i"].mapIdx fun k name =>
        { name := name, index := 10 - k, offset := 2 + k / 8, bit := k % 8, backing := .bool,
          size := 1 }

theorem arrange_nineFlags : arrange nineFlags .dense = .ok nineFlagsLayout := by
  decide

theorem placements_tile_nineFlags :
    arrange nineFlags .dense = .ok nineFlagsLayout ∧
      (nineFlagsLayout.placements.Pairwise fun p q =>
        ∀ i j, p.Owns .dense i j → ¬ q.Owns .dense i j) ∧
      ∀ j, j < 8 → ((∀ p ∈ nineFlagsLayout.placements, ¬ p.Owns .dense 3 j) ↔ 1 ≤ j) := by
  obtain ⟨_, hdisjoint, _, hunowned⟩ := placements_tile arrange_nineFlags
  refine ⟨arrange_nineFlags, hdisjoint, fun j hj => ?_⟩
  rw [hunowned 3 j (by decide) hj, show Field.booleanCount nineFlags = 9 by decide]
  exact ⟨fun hspare => hspare.2.2.2, fun hle => ⟨rfl, by decide, by decide, hle⟩⟩

end Layout

end FlatRecord
