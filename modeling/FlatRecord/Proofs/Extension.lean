import FlatRecord.Proofs.Lookup
import FlatRecord.Proofs.PlacementLaw

/-!
# Adding a field

A list with one more stored field has a layout as well, and this module says where
the fields of the first layout lie in the second.  By the law of places, a place is
known from how many bytes and how many booleans have a smaller name.  An added
field raises one of these numbers and leaves the other, so the comparison needs
neither of the two sorted lists.

* `Field.AddedTo` is a list with one more field, wherever it stands.
* `Field.AddedTo.of_scalar` and `Field.AddedTo.of_boolean` are the changes of the
  numbers, among all fields or among those that a test picks.
* `Placement.MovesOn` is the step of a boolean to the next place, and
  `Placement.movesOn_of_rank` finds it in the law.
-/

namespace FlatRecord

/-! ## A list with one more field -/

namespace Field

/-- `extended` has the fields of `fields` and a stored field `f` of a new name
besides, in any order. -/
structure AddedTo (f : Field) (fields extended : List Field) : Prop where
  perm : extended.Perm (f :: fields)
  included : f.included = true
  name_ne : f.name ≠ ""
  /-- No stored field has the name already. -/
  fresh : ∀ g ∈ fields, g.included = true → g.name ≠ f.name

variable {f : Field} {fields extended : List Field}

theorem scalarBytes_perm (h : extended.Perm fields) : scalarBytes extended = scalarBytes fields :=
  ((h.filter _).map storedSize).sum_nat

theorem booleanCount_perm (h : extended.Perm fields) :
    booleanCount extended = booleanCount fields :=
  h.countP_eq _

namespace AddedTo

/-- A scalar adds its bytes in front of the larger names, and no boolean. -/
theorem of_scalar (h : f.AddedTo fields extended) (hbool : f.type.isBool = false)
    (p : Field → Bool) :
    scalarBytes (extended.filter p) =
        scalarBytes (fields.filter p) + (if p f then f.storedSize else 0) ∧
      booleanCount (extended.filter p) = booleanCount (fields.filter p) := by
  have hperm := h.perm.filter p
  rw [scalarBytes_perm hperm, booleanCount_perm hperm]
  cases hp : p f with
  | false => simp [hp]
  | true =>
    simp [hp, scalarBytes, booleanCount, h.included, hbool, Nat.add_comm]

/-- A boolean adds one to the booleans in front of the larger names, and no byte to
the scalars. -/
theorem of_boolean (h : f.AddedTo fields extended) (hbool : f.type.isBool = true)
    (p : Field → Bool) :
    scalarBytes (extended.filter p) = scalarBytes (fields.filter p) ∧
      booleanCount (extended.filter p) = booleanCount (fields.filter p) + if p f then 1 else 0 := by
  have hperm := h.perm.filter p
  rw [scalarBytes_perm hperm, booleanCount_perm hperm]
  cases hp : p f with
  | false => simp [hp]
  | true => simp [hp, scalarBytes, booleanCount, h.included, hbool]

theorem totals_of_scalar (h : f.AddedTo fields extended) (hbool : f.type.isBool = false) :
    scalarBytes extended = scalarBytes fields + f.storedSize ∧
      booleanCount extended = booleanCount fields := by
  simpa only [List.filter_true, if_true] using h.of_scalar hbool fun _ => true

theorem totals_of_boolean (h : f.AddedTo fields extended) (hbool : f.type.isBool = true) :
    scalarBytes extended = scalarBytes fields ∧
      booleanCount extended = booleanCount fields + 1 := by
  simpa only [List.filter_true, if_true] using h.of_boolean hbool fun _ => true

end AddedTo

end Field

namespace Layout

variable {f : Field} {fields extended : List Field} {packing : Packing} {l l' : Layout}

/-- The extended list has a layout. -/
theorem exists_arrange_extended (h : arrange fields packing = .ok l)
    (hadded : f.AddedTo fields extended) {s : Scalar} (hback : f.backing = .ok s) :
    ∃ l', arrange extended packing = .ok l' := by
  obtain ⟨hnamed, hnodup, hstorable⟩ := exists_arrange_iff.mp ⟨l, h⟩
  have hstored : (extended.filter Field.included).Perm (f :: fields.filter Field.included) := by
    have hperm := hadded.perm.filter Field.included
    rwa [List.filter_cons_of_pos hadded.included] at hperm
  refine exists_arrange_iff.mpr ⟨fun g hg => ?_, ?_, fun g hg e he => ?_⟩
  · rcases List.mem_cons.mp (hstored.mem_iff.mp hg) with rfl | hg
    · exact hadded.name_ne
    · exact hnamed g hg
  · refine (hstored.map Field.name).nodup_iff.mpr (List.nodup_cons.mpr ⟨fun hmem => ?_, hnodup⟩)
    obtain ⟨g, hg, hname⟩ := List.mem_map.mp hmem
    obtain ⟨hg, hincluded⟩ := List.mem_filter.mp hg
    exact hadded.fresh g hg hincluded hname
  · rcases List.mem_cons.mp (hstored.mem_iff.mp hg) with rfl | hg
    · exact nomatch hback.symm.trans (Field.backing_eq_error_iff.mpr he)
    · exact hstorable g hg e he

/-- A name that finds a placement still finds one, with the same backing. -/
theorem exists_get?_extended (h : arrange fields packing = .ok l)
    (h' : arrange extended packing = .ok l') (hsubset : fields ⊆ extended) {name : String}
    {p : Placement} (hget : l.get? name = some p) :
    ∃ q, l'.get? name = some q ∧ q.backing = p.backing := by
  obtain ⟨hp, rfl⟩ := (get?_eq_some_iff (wellFormed_of_arrange h)).mp hget
  obtain ⟨g, hg, hincluded, hname, hback⟩ := exists_field h hp
  obtain ⟨i, hi⟩ := List.mem_iff_getElem?.mp (hsubset (List.mem_of_getElem? hg))
  obtain ⟨q, hq, _, hqname, hqback⟩ := exists_placement h' hi hincluded
  refine ⟨q, (get?_eq_some_iff (wellFormed_of_arrange h')).mpr ⟨hq, hqname.trans hname⟩, ?_⟩
  exact Except.ok.inj (hqback.symm.trans hback)

/-! ## Where the fields move -/

/-- The place of a found scalar, from the bytes of the smaller names. -/
theorem offset_of_get? (h : arrange fields packing = .ok l) {name : String} {p : Placement}
    (hget : l.get? name = some p) (hback : p.backing ≠ .bool) :
    p.bit = 0 ∧ p.offset = Field.scalarBytes (Field.before fields name) := by
  obtain ⟨hp, rfl⟩ := (get?_eq_some_iff (wellFormed_of_arrange h)).mp hget
  exact offset_of_scalar h hp hback

/-- The place of a found boolean, from the number of the smaller names. -/
theorem place_of_get? (h : arrange fields packing = .ok l) {name : String} {p : Placement}
    (hget : l.get? name = some p) (hback : p.backing = .bool) :
    p.cursor = Cursor.nth packing (Field.scalarBytes fields)
      (Field.booleanCount (Field.before fields name)) := by
  obtain ⟨hp, rfl⟩ := (get?_eq_some_iff (wellFormed_of_arrange h)).mp hget
  exact place_of_boolean h hp hback

end Layout

/-- The bytes that one more boolean takes, besides `count` others: none if the last
byte has a bit to spare. -/
def Packing.nextBooleanBytes (packing : Packing) (count : Nat) : Nat :=
  match packing with
  | .loose => 1
  | .dense => if count % 8 = 0 then 1 else 0

theorem Packing.booleanBytes_succ (packing : Packing) (count : Nat) :
    packing.booleanBytes (count + 1) =
      packing.booleanBytes count + packing.nextBooleanBytes count := by
  cases packing with
  | loose => rfl
  | dense =>
    show (count + 1 + 7) / 8 = (count + 7) / 8 + if count % 8 = 0 then 1 else 0
    split
    · omega
    · omega

/-- `q` is one byte behind `p`, or one bit if booleans share bytes, with a carry from
the highest bit. -/
def Placement.MovesOn (packing : Packing) (p q : Placement) : Prop :=
  match packing with
  | .loose => q.offset = p.offset + 1 ∧ q.bit = p.bit
  | .dense =>
    if p.bit = 7 then q.offset = p.offset + 1 ∧ q.bit = 0
    else q.offset = p.offset ∧ q.bit = p.bit + 1

/-- The next rank is one byte or one bit further. -/
theorem Placement.movesOn_of_rank {packing : Packing} {p q : Placement} {start k : Nat}
    (hp : p.cursor = Layout.Cursor.nth packing start k)
    (hq : q.cursor = Layout.Cursor.nth packing start (k + 1)) : p.MovesOn packing q := by
  cases packing with
  | loose =>
    obtain ⟨hpbyte, hpbit⟩ := Layout.Cursor.mk.inj hp
    obtain ⟨hqbyte, hqbit⟩ := Layout.Cursor.mk.inj hq
    exact ⟨by omega, hqbit.trans hpbit.symm⟩
  | dense =>
    obtain ⟨hpbyte, hpbit⟩ := Layout.Cursor.mk.inj hp
    obtain ⟨hqbyte, hqbit⟩ := Layout.Cursor.mk.inj hq
    show if p.bit = 7 then q.offset = p.offset + 1 ∧ q.bit = 0
      else q.offset = p.offset ∧ q.bit = p.bit + 1
    by_cases hlast : p.bit = 7
    · rw [if_pos hlast]
      omega
    · rw [if_neg hlast]
      omega

namespace Layout

/-- A later start moves every rank by as many bytes, and no bit. -/
theorem Cursor.nth_add (packing : Packing) (start size k : Nat) :
    nth packing (start + size) k =
      ⟨(nth packing start k).byte + size, (nth packing start k).bit⟩ := by
  cases packing with
  | loose => exact congrArg (Cursor.mk · 0) (Nat.add_right_comm start size k)
  | dense => exact congrArg (Cursor.mk · (k % 8)) (Nat.add_right_comm start size (k / 8))

variable {f : Field} {fields extended : List Field} {packing : Packing} {l l' : Layout}

/-- An added scalar moves the scalars of larger names and all booleans by its size. -/
theorem moved_by_scalar (h : arrange fields packing = .ok l)
    (h' : arrange extended packing = .ok l') (hadded : f.AddedTo fields extended)
    (hbool : f.type.isBool = false) {name : String} {p q : Placement}
    (hp : l.get? name = some p) (hq : l'.get? name = some q) (hback : q.backing = p.backing) :
    q.bit = p.bit ∧ q.offset =
      if p.backing = .bool ∨ Name.Before f.name name then p.offset + f.storedSize
      else p.offset := by
  obtain ⟨hbytes, hcount⟩ := hadded.of_scalar hbool fun g => decide (Name.Before g.name name)
  by_cases hboolean : p.backing = .bool
  -- A boolean keeps its rank, but the scalars in front of all booleans take more bytes.
  · have hsize := (hadded.totals_of_scalar hbool).1
    have hpcursor := place_of_get? h hp hboolean
    have hqcursor := place_of_get? h' hq (hback.trans hboolean)
    rw [Field.before, hcount, hsize, Cursor.nth_add, ← Field.before, ← hpcursor] at hqcursor
    obtain ⟨hoffset, hbit⟩ := Cursor.mk.inj hqcursor
    rw [if_pos (.inl hboolean)]
    exact ⟨hbit, hoffset⟩
  · obtain ⟨hpbit, hpoffset⟩ := offset_of_get? h hp hboolean
    obtain ⟨hqbit, hqoffset⟩ := offset_of_get? h' hq (hback ▸ hboolean)
    rw [Field.before, hbytes, ← Field.before, ← hpoffset] at hqoffset
    refine ⟨hqbit.trans hpbit.symm, hqoffset.trans ?_⟩
    simp only [hboolean, false_or, decide_eq_true_eq]
    split <;> rfl

/-- An added boolean moves the booleans of larger names to the next rank, and no
other field. -/
theorem moved_by_boolean (h : arrange fields packing = .ok l)
    (h' : arrange extended packing = .ok l') (hadded : f.AddedTo fields extended)
    (hbool : f.type.isBool = true) {name : String} {p q : Placement}
    (hp : l.get? name = some p) (hq : l'.get? name = some q) (hback : q.backing = p.backing) :
    if p.backing = .bool ∧ Name.Before f.name name then
      p.MovesOn packing q ∧ ∃ k, p.cursor = Cursor.nth packing (Field.scalarBytes fields) k ∧
        q.cursor = Cursor.nth packing (Field.scalarBytes fields) (k + 1)
    else q.offset = p.offset ∧ q.bit = p.bit := by
  obtain ⟨hbytes, hcount⟩ := hadded.of_boolean hbool fun g => decide (Name.Before g.name name)
  by_cases hboolean : p.backing = .bool
  · have hpcursor := place_of_get? h hp hboolean
    have hqcursor := place_of_get? h' hq (hback.trans hboolean)
    rw [Field.before, hcount, (hadded.totals_of_boolean hbool).1, ← Field.before] at hqcursor
    -- The scalars take the same bytes, so the place changes with the rank only.
    by_cases hbefore : Name.Before f.name name
    · rw [if_pos ⟨hboolean, hbefore⟩]
      rw [if_pos (decide_eq_true hbefore)] at hqcursor
      exact ⟨Placement.movesOn_of_rank hpcursor hqcursor, _, hpcursor, hqcursor⟩
    · rw [if_neg fun hcase => hbefore hcase.2]
      rw [if_neg (by simpa using hbefore), Nat.add_zero, ← hpcursor] at hqcursor
      exact Cursor.mk.inj hqcursor
  · obtain ⟨hpbit, hpoffset⟩ := offset_of_get? h hp hboolean
    obtain ⟨hqbit, hqoffset⟩ := offset_of_get? h' hq (hback ▸ hboolean)
    rw [if_neg fun hcase => hboolean hcase.1]
    rw [Field.before, hbytes, ← Field.before, ← hpoffset] at hqoffset
    exact ⟨hqoffset, hqbit.trans hpbit.symm⟩

/-- What an added field does to a layout.  The extended list has one as well.  A
scalar moves the scalars of larger names and all booleans by its size, and no bit.
A boolean moves the booleans of larger names to the next rank: by a byte, or by a
bit with a carry.  The record grows by the size of the scalar, or for a boolean by a
byte unless the last byte of flags has a bit to spare. -/
theorem arrange_extended {s : Scalar} (h : arrange fields packing = .ok l)
    (hadded : f.AddedTo fields extended) (hback : f.backing = .ok s) :
    ∃ l', arrange extended packing = .ok l' ∧
      (∃ q, l'.get? f.name = some q ∧ q.backing = s) ∧
      (f.type.isBool = false →
        l'.totalSize = l.totalSize + s.size ∧
        ∀ name p, l.get? name = some p → ∃ q, l'.get? name = some q ∧ q.backing = p.backing ∧
          q.bit = p.bit ∧ q.offset =
            if p.backing = .bool ∨ Name.Before f.name name then p.offset + s.size
            else p.offset) ∧
      (f.type.isBool = true →
        l'.totalSize = l.totalSize + packing.nextBooleanBytes (Field.booleanCount fields) ∧
        ∀ name p, l.get? name = some p → ∃ q, l'.get? name = some q ∧ q.backing = p.backing ∧
          if p.backing = .bool ∧ Name.Before f.name name then
            p.MovesOn packing q ∧
              ∃ k, p.cursor = Cursor.nth packing (Field.scalarBytes fields) k ∧
                q.cursor = Cursor.nth packing (Field.scalarBytes fields) (k + 1)
          else q.offset = p.offset ∧ q.bit = p.bit) := by
  obtain ⟨l', h'⟩ := exists_arrange_extended h hadded hback
  have hmem : f ∈ extended := hadded.perm.mem_iff.mpr List.mem_cons_self
  have hsubset : fields ⊆ extended := fun g hg =>
    hadded.perm.mem_iff.mpr (List.mem_cons_of_mem f hg)
  have hsize := Field.storedSize_of_backing hback
  refine ⟨l', h', ?_, fun hbool => ⟨?_, fun name p hp => ?_⟩,
    fun hbool => ⟨?_, fun name p hp => ?_⟩⟩
  · obtain ⟨i, hi⟩ := List.mem_iff_getElem?.mp hmem
    obtain ⟨q, hq, _, hname, hqback⟩ := exists_placement h' hi hadded.included
    refine ⟨q, (get?_eq_some_iff (wellFormed_of_arrange h')).mpr ⟨hq, hname⟩, ?_⟩
    exact Except.ok.inj (hqback.symm.trans hback)
  · obtain ⟨hbytes, hcount⟩ := hadded.totals_of_scalar hbool
    rw [totalSize_of_arrange h, totalSize_of_arrange h', hbytes, hcount, hsize]
    omega
  · obtain ⟨q, hq, hqback⟩ := exists_get?_extended h h' hsubset hp
    rw [← hsize]
    exact ⟨q, hq, hqback, moved_by_scalar h h' hadded hbool hp hq hqback⟩
  · obtain ⟨hbytes, hcount⟩ := hadded.totals_of_boolean hbool
    rw [totalSize_of_arrange h, totalSize_of_arrange h', hbytes, hcount,
      Packing.booleanBytes_succ, Nat.add_assoc]
  · obtain ⟨q, hq, hqback⟩ := exists_get?_extended h h' hsubset hp
    exact ⟨q, hq, hqback, moved_by_boolean h h' hadded hbool hp hq hqback⟩

/-- A flag behind `a` sends `h` from the highest bit of its byte to the next byte, and
the record keeps its size.  A number in front of `id` moves it by a byte. -/
theorem arrange_extended_nineFlags :
    arrange nineFlags .dense = .ok nineFlagsLayout ∧
      (∃ l', arrange (nineFlags ++ [{ name := "aa", type := .scalar .bool }]) .dense = .ok l' ∧
        l'.totalSize = 4 ∧ ∃ q, l'.get? "h" = some q ∧ q.offset = 3 ∧ q.bit = 0) ∧
      ∃ l', arrange ({ name := "code", type := .enumeration "Code" .u8 } :: nineFlags) .dense =
          .ok l' ∧
        l'.totalSize = 5 ∧ ∃ q, l'.get? "id" = some q ∧ q.offset = 1 := by
  refine ⟨arrange_nineFlags, ?_, ?_⟩
  · have hadded : Field.AddedTo { name := "aa", type := .scalar .bool } nineFlags
        (nineFlags ++ [{ name := "aa", type := .scalar .bool }]) :=
      ⟨List.perm_append_comm, rfl, by decide, by decide⟩
    obtain ⟨l', h', _, _, hmoved⟩ := arrange_extended arrange_nineFlags hadded rfl
    obtain ⟨hsize, hplaces⟩ := hmoved rfl
    obtain ⟨q, hq, _, hplace⟩ := hplaces "h" ⟨"h", 3, 2, 7, .bool, 1⟩ (by decide)
    rw [if_pos (by decide)] at hplace
    exact ⟨l', h', hsize, q, hq, hplace.1⟩
  · have hadded : Field.AddedTo { name := "code", type := .enumeration "Code" .u8 } nineFlags
        ({ name := "code", type := .enumeration "Code" .u8 } :: nineFlags) :=
      ⟨List.Perm.refl _, rfl, by decide, by decide⟩
    obtain ⟨l', h', _, hmoved, _⟩ := arrange_extended arrange_nineFlags hadded rfl
    obtain ⟨hsize, hplaces⟩ := hmoved rfl
    obtain ⟨q, hq, _, _, hoffset⟩ := hplaces "id" ⟨"id", 0, 0, 0, .u16, 2⟩ (by decide)
    rw [if_pos (by decide)] at hoffset
    exact ⟨l', h', hsize, q, hq, hoffset⟩

end Layout

end FlatRecord
