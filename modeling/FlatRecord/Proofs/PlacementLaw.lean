import FlatRecord.Words
import FlatRecord.Proofs.Packing

/-!
# The law of places

The place of a field follows from the fields in front of it.  This module states
the law twice, by number and by name, and draws the bounds from it.

* In ascending order of names, the fields in front of one are those of smaller
  names (`Field.Ascending.take_eq_filter`), so a number in the order can be traded
  for a name.
* `Layout.Placed` is the law by number: scalar number `i` lies behind the `i`
  scalars before it, and boolean number `k` has place `Cursor.nth` behind all
  scalars.  `placed_of_arrange` proves it of every layout.
* `offset_of_scalar` and `place_of_boolean` are the law by name.  They do not
  mention any order of fields, so they can be used for two lists at once.
* `Cursor.countAll?` counts as a machine does, in words of 64 and of 8 bits.  A
  count that would leave its word has no result, and `countAll?_placements` says
  that a layout of fewer than 2 ^ 64 bytes never has such a count.
-/

namespace FlatRecord

theorem Scalar.size_le (s : Scalar) : s.size ≤ 8 := by
  cases s <;> decide

/-- The place of a field, as the cursor that visits it. -/
def Placement.cursor (p : Placement) : Layout.Cursor :=
  ⟨p.offset, p.bit⟩

/-- The bytes that `count` booleans take. -/
def Packing.booleanBytes (packing : Packing) (count : Nat) : Nat :=
  match packing with
  | .loose => count
  | .dense => (count + 7) / 8

/-! ## Ascending order -/

namespace Field

/-- The names are in strictly ascending order. -/
def Ascending (fields : List Field) : Prop :=
  fields.Pairwise fun f g => Name.Before f.name g.name

/-- The fields in front of one are those of smaller names. -/
theorem Ascending.take_eq_filter {fields : List Field} (h : Ascending fields) {i : Nat} {f : Field}
    (hf : fields[i]? = some f) :
    fields.take i = fields.filter fun g => decide (Name.Before g.name f.name) := by
  induction fields generalizing i with
  | nil => simp at hf
  | cons g fields ih =>
    obtain ⟨hg, hrest⟩ := List.pairwise_cons.mp h
    cases i with
    | zero =>
      obtain rfl : g = f := by simpa using hf
      refine (List.filter_eq_nil_iff.mpr fun x hx => ?_).symm
      rw [decide_eq_true_eq]
      rcases List.mem_cons.mp hx with rfl | hx
      · exact Name.not_before_self x.name
      · exact (hg x hx).not_before
    | succ i =>
      have hf : fields[i]? = some f := by simpa using hf
      have hgf : Name.Before g.name f.name := hg f (List.mem_of_getElem? hf)
      rw [List.take_succ_cons, ih hrest hf, List.filter_cons, if_pos (decide_eq_true hgf)]

/-- The number of a field is how many fields have smaller names. -/
theorem Ascending.eq_length_filter {fields : List Field} (h : Ascending fields) {i : Nat}
    {f : Field} (hf : fields[i]? = some f) :
    i = (fields.filter fun g => decide (Name.Before g.name f.name)).length := by
  have hi : i < fields.length := (List.getElem?_eq_some_iff.mp hf).1
  rw [← h.take_eq_filter hf, List.length_take_of_le (Nat.le_of_lt hi)]

end Field

namespace Entry

variable {fields : List Field}

/-- Sorted entries whose names pass the check are in strictly ascending order,
and so are those of one kind. -/
theorem ascending_filter_sorted (h : checkNames (sorted fields) = .ok ()) (kind : Entry → Bool) :
    Field.Ascending (((sorted fields).filter kind).map Entry.field) :=
  List.pairwise_map.mpr ((pairwise_before_of_checkNames h).filter kind)

/-- In order or not, the scalars of a list take the same bytes. -/
theorem sum_storedSize_others (fields : List Field) :
    (((others fields).map Entry.field).map Field.storedSize).sum = Field.scalarBytes fields :=
  ((map_field_filter_sorted_perm fields fun f => !f.type.isBool).map Field.storedSize).sum_nat

/-- The first backings are those of the first entries. -/
theorem withBacking_take {es : List Entry} {scalars : List (Entry × Scalar)}
    (h : withBacking es = .ok scalars) (i : Nat) :
    withBacking (es.take i) = .ok (scalars.take i) := by
  induction es generalizing scalars i with
  | nil =>
    cases h
    simp [withBacking]
  | cons e es ih =>
    obtain ⟨s, rest, hs, hrest, rfl⟩ := withBacking_cons_eq_ok_iff.mp h
    cases i with
    | zero => rfl
    | succ i => exact withBacking_cons_eq_ok_iff.mpr ⟨s, rest.take i, hs, ih hrest i, rfl⟩

/-- The first scalars take the bytes of the first entries. -/
theorem scalarSize_take {es : List Entry} {scalars : List (Entry × Scalar)}
    (h : withBacking es = .ok scalars) (i : Nat) :
    Layout.scalarSize (scalars.take i) =
      (((es.map Entry.field).take i).map Field.storedSize).sum := by
  rw [scalarSize_of_withBacking (withBacking_take h i), ← List.map_take, List.map_map]
  rfl

end Entry

namespace Layout

/-! ## The law by number -/

variable {packing : Packing} {fields : List Field} {l : Layout}

/-- Each scalar lies behind the scalars before it. -/
theorem getElem?_placeScalars (offset : Nat) (scalars : List (Entry × Scalar)) (i : Nat) :
    (placeScalars offset scalars)[i]? = scalars[i]?.map fun x =>
      { name := x.1.name, index := x.1.index, offset := offset + scalarSize (scalars.take i),
        bit := 0, backing := x.2, size := x.2.size } := by
  induction scalars generalizing offset i with
  | nil => rfl
  | cons x scalars ih =>
    cases i with
    | zero => rfl
    | succ i =>
      simp only [placeScalars, List.getElem?_cons_succ, ih, List.take_succ_cons, scalarSize_cons,
        Nat.add_assoc]

variable {scalars : List (Entry × Scalar)} {booleans : List Entry}

theorem getElem?_placements_of_scalar {i : Nat} {x : Entry × Scalar} (hx : scalars[i]? = some x) :
    (assemble packing scalars booleans).placements[i]? =
      some ⟨x.1.name, x.1.index, scalarSize (scalars.take i), 0, x.2, x.2.size⟩ := by
  have hi : i < (placeScalars 0 scalars).length := by
    rw [length_placeScalars]
    exact (List.getElem?_eq_some_iff.mp hx).1
  rw [assemble, List.getElem?_append_left hi, getElem?_placeScalars, hx, Option.map_some,
    Nat.zero_add]

/-- The booleans are placed behind all scalars. -/
theorem getElem?_placements_of_boolean {k : Nat} {e : Entry} (he : booleans[k]? = some e) :
    (assemble packing scalars booleans).placements[scalars.length + k]? =
      some (flagAt packing (scalarSize scalars) e k) := by
  have hle : (placeScalars 0 scalars).length ≤ scalars.length + k := by
    rw [length_placeScalars]
    exact Nat.le_add_right _ _
  rw [assemble, List.getElem?_append_right hle, length_placeScalars, Nat.add_sub_cancel_left,
    List.getElem?_mapIdx, he, Option.map_some]

/-- The places of scalars and booleans that are given in order. -/
structure Placed (packing : Packing) (scalars booleans : List Field)
    (placements : List Placement) : Prop where
  length_eq : placements.length = scalars.length + booleans.length
  scalar : ∀ i f, scalars[i]? = some f → ∃ p, placements[i]? = some p ∧ p.name = f.name ∧
    f.backing = .ok p.backing ∧ p.size = p.backing.size ∧ p.bit = 0 ∧
    p.offset = ((scalars.take i).map Field.storedSize).sum
  boolean : ∀ k f, booleans[k]? = some f → ∃ p, placements[scalars.length + k]? = some p ∧
    p.name = f.name ∧ p.backing = .bool ∧ p.size = 1 ∧
    p.cursor = Cursor.nth packing (scalars.map Field.storedSize).sum k

/-- The places of a layout follow the law. -/
theorem placed_of_arrange (h : arrange fields packing = .ok l) :
    Placed packing ((Entry.others fields).map Entry.field)
      ((Entry.booleans fields).map Entry.field) l.placements := by
  obtain ⟨_, scalars, hback, rfl⟩ := arrange_eq_ok_iff.mp h
  have hothers : scalars.map Prod.fst = Entry.others fields := Entry.map_fst_of_withBacking hback
  have hlength : scalars.length = (Entry.others fields).length := by
    rw [← hothers, List.length_map]
  have hstart : (((Entry.others fields).map Entry.field).map Field.storedSize).sum =
      scalarSize scalars := by
    rw [Entry.sum_storedSize_others, Entry.scalarSize_others hback]
  refine ⟨?_, ?_, ?_⟩
  · simp only [assemble, List.length_append, length_placeScalars, List.length_mapIdx,
      List.length_map, hlength]
  · intro i f hf
    rw [← hothers, List.map_map, List.getElem?_map] at hf
    obtain ⟨x, hx, rfl⟩ := Option.map_eq_some_iff.mp hf
    exact ⟨_, getElem?_placements_of_scalar hx, rfl,
      Entry.backing_of_mem_withBacking hback (List.mem_of_getElem? hx), rfl, rfl,
      Entry.scalarSize_take hback i⟩
  · intro k f hf
    rw [List.getElem?_map] at hf
    obtain ⟨e, he, rfl⟩ := Option.map_eq_some_iff.mp hf
    rw [List.length_map, ← hlength, hstart]
    exact ⟨_, getElem?_placements_of_boolean he, rfl, rfl, rfl, rfl⟩

/-- A place that follows the law is that of a scalar or of a boolean. -/
theorem Placed.scalar_or_boolean {scalars booleans : List Field} {placements : List Placement}
    (h : Placed packing scalars booleans placements) {p : Placement} (hp : p ∈ placements) :
    (∃ i f, scalars[i]? = some f ∧ p.name = f.name ∧ f.backing = .ok p.backing ∧ p.bit = 0 ∧
      p.offset = ((scalars.take i).map Field.storedSize).sum) ∨
    ∃ k f, booleans[k]? = some f ∧ p.name = f.name ∧ p.backing = .bool ∧
      p.cursor = Cursor.nth packing (scalars.map Field.storedSize).sum k := by
  obtain ⟨j, hj, rfl⟩ := List.mem_iff_getElem.mp hp
  have hlength := h.length_eq
  have hself : placements[j]? = some placements[j] := List.getElem?_eq_getElem hj
  by_cases hscalar : j < scalars.length
  · obtain ⟨p, hget, hname, hback, _, hbit, hoffset⟩ :=
      h.scalar j _ (List.getElem?_eq_getElem hscalar)
    obtain rfl : placements[j] = p := Option.some.inj (hself.symm.trans hget)
    exact .inl ⟨j, _, List.getElem?_eq_getElem hscalar, hname, hback, hbit, hoffset⟩
  · have hk : j - scalars.length < booleans.length := by omega
    obtain ⟨p, hget, hname, hback, _, hplace⟩ := h.boolean _ _ (List.getElem?_eq_getElem hk)
    rw [show scalars.length + (j - scalars.length) = j by omega] at hget
    obtain rfl : placements[j] = p := Option.some.inj (hself.symm.trans hget)
    exact .inr ⟨_, _, List.getElem?_eq_getElem hk, hname, hback, hplace⟩

end Layout

/-! ## The law by name -/

namespace Field

/-- The fields whose names stand before a name. -/
def before (fields : List Field) (name : String) : List Field :=
  fields.filter fun f => decide (Name.Before f.name name)

/-- The bytes of the scalars among some of the fields do not depend on an order. -/
theorem sum_filter_eq_scalarBytes {fields scalars : List Field}
    (h : scalars.Perm (fields.filter fun f => f.included && !f.type.isBool)) (p : Field → Bool) :
    ((scalars.filter p).map storedSize).sum = scalarBytes (fields.filter p) := by
  rw [scalarBytes, List.filter_comm]
  exact ((h.filter p).map storedSize).sum_nat

/-- Nor does the number of the booleans among them. -/
theorem length_filter_eq_booleanCount {fields booleans : List Field}
    (h : booleans.Perm (fields.filter fun f => f.included && f.type.isBool)) (p : Field → Bool) :
    (booleans.filter p).length = booleanCount (fields.filter p) := by
  rw [booleanCount, List.countP_eq_length_filter, List.filter_comm]
  exact (h.filter p).length_eq

theorem storedSize_le (f : Field) : f.storedSize ≤ 8 := by
  unfold storedSize
  split
  · exact Scalar.size_le _
  · exact Nat.zero_le 8

theorem scalarBytes_add_booleanCount_le (fields : List Field) :
    scalarBytes fields + booleanCount fields ≤ 8 * fields.countP included := by
  induction fields with
  | nil => exact Nat.le_refl 0
  | cons f fields ih =>
    have hsize := f.storedSize_le
    simp only [scalarBytes, booleanCount] at ih ⊢
    cases hincluded : f.included <;> cases hbool : f.type.isBool <;>
      simp [hincluded, hbool] <;> omega

end Field

namespace Layout

variable {packing : Packing} {fields : List Field} {l : Layout} {p : Placement}

/-- A scalar lies behind the scalars of smaller names. -/
theorem offset_of_scalar (h : arrange fields packing = .ok l) (hp : p ∈ l.placements)
    (hback : p.backing ≠ .bool) :
    p.bit = 0 ∧ p.offset = Field.scalarBytes (Field.before fields p.name) := by
  obtain ⟨hnames, _⟩ := arrange_eq_ok_iff.mp h
  rcases (placed_of_arrange h).scalar_or_boolean hp with
    ⟨i, f, hf, hname, _, hbit, hoffset⟩ | ⟨_, _, _, _, hbool, _⟩
  · refine ⟨hbit, ?_⟩
    have htake := (Entry.ascending_filter_sorted hnames _).take_eq_filter hf
    rw [hoffset, hname, Entry.others, htake]
    exact Field.sum_filter_eq_scalarBytes (Entry.map_field_filter_sorted_perm fields _) _
  · exact absurd hbool hback

/-- The rank of a boolean is the number of booleans of smaller names. -/
theorem place_of_boolean (h : arrange fields packing = .ok l) (hp : p ∈ l.placements)
    (hback : p.backing = .bool) :
    p.cursor = Cursor.nth packing (Field.scalarBytes fields)
      (Field.booleanCount (Field.before fields p.name)) := by
  obtain ⟨hnames, scalars, hscalars, _⟩ := arrange_eq_ok_iff.mp h
  have hothers := Entry.map_field_filter_sorted_perm fields fun f => !f.type.isBool
  rcases (placed_of_arrange h).scalar_or_boolean hp with
    ⟨_, f, hf, _, hscalar, _⟩ | ⟨k, f, hf, hname, _, hplace⟩
  · have hmem := List.mem_filter.mp (hothers.mem_iff.mp (List.mem_of_getElem? hf))
    have hfalse : f.type.isBool = false := by simpa using (Bool.and_eq_true_iff.mp hmem.2).2
    exact absurd hback (Field.backing_ne_bool hfalse hscalar)
  · have hrank : k = Field.booleanCount (Field.before fields p.name) := by
      rw [(Entry.ascending_filter_sorted hnames _).eq_length_filter hf, hname]
      exact Field.length_filter_eq_booleanCount (Entry.map_field_filter_sorted_perm fields _) _
    rw [hplace, ← hrank, Entry.sum_storedSize_others]

/-! ## The size of a record -/

theorem totalSize_of_arrange (h : arrange fields packing = .ok l) :
    l.totalSize = Field.scalarBytes fields + packing.booleanBytes (Field.booleanCount fields) := by
  obtain ⟨_, scalars, hback, rfl⟩ := arrange_eq_ok_iff.mp h
  rw [← Entry.scalarSize_others hback, ← Entry.length_booleans]
  cases packing with
  | loose => exact totalSize_assemble_loose _ _
  | dense => exact totalSize_assemble_dense _ _

/-- No place lies in front of the one before it. -/
theorem pairwise_offset_le (h : arrange fields packing = .ok l) :
    l.placements.Pairwise fun p q => p.offset ≤ q.offset := by
  obtain ⟨_, scalars, _, rfl⟩ := arrange_eq_ok_iff.mp h
  refine List.pairwise_append.mpr ⟨?_, ?_, ?_⟩
  · exact (pairwise_placeScalars 0 scalars).imp fun hle => Nat.le_of_add_right_le hle
  · rw [List.pairwise_iff_getElem]
    intro k k' hk hk' hlt
    rw [List.getElem_mapIdx, List.getElem_mapIdx]
    cases packing with
    | loose => exact Nat.add_le_add_left (Nat.le_of_lt hlt) _
    | dense => exact Nat.add_le_add_left (Nat.div_le_div_right (Nat.le_of_lt hlt)) _
  · intro p hp q hq
    obtain ⟨k, hk, rfl⟩ := List.mem_mapIdx.mp hq
    have hpend := (bounds_of_mem_placeScalars hp).2
    have hqstart := (bounds_flagAt packing (scalarSize scalars) (Entry.booleans fields)[k] hk).1
    omega

/-- No field takes more than eight bytes. -/
theorem totalSize_le (h : arrange fields packing = .ok l) :
    l.totalSize ≤ 8 * fields.countP Field.included := by
  have hbytes : packing.booleanBytes (Field.booleanCount fields) ≤ Field.booleanCount fields := by
    cases packing with
    | loose => exact Nat.le_refl _
    | dense =>
      show (Field.booleanCount fields + 7) / 8 ≤ Field.booleanCount fields
      omega
  have hfields := Field.scalarBytes_add_booleanCount_le fields
  rw [totalSize_of_arrange h]
  omega

/-! ## Counting in words -/

theorem sumInWidth?_of_lt {width a b : Nat} (h : a + b < 2 ^ width) :
    sumInWidth? width a b = some (a + b) :=
  if_pos h

namespace Cursor

theorem count?_of_ne_bool {packing : Packing} {c : Cursor} {s : Scalar} (hs : s ≠ .bool)
    (hfit : c.byte + s.size < 2 ^ 64) :
    c.count? packing s = some ⟨c.byte + s.size, c.bit⟩ := by
  rw [count?, if_neg hs, sumInWidth?_of_lt hfit]
  rfl

/-- The count of bits does not leave its word, since it starts again at 8. -/
theorem count?_bool {packing : Packing} {c : Cursor} (hbit : c.bit < 8)
    (hfit : c.byte + 1 < 2 ^ 64) : c.count? packing .bool = some (c.next packing) := by
  have hbyte : sumInWidth? 64 c.byte 1 = some (c.byte + 1) := sumInWidth?_of_lt hfit
  cases packing with
  | loose =>
    rw [count?, if_pos rfl, hbyte]
    rfl
  | dense =>
    have hnext : sumInWidth? 8 c.bit 1 = some (c.bit + 1) := sumInWidth?_of_lt (by omega)
    rw [count?, if_pos rfl, hbyte]
    simp only [hnext, next, Option.bind_eq_bind, Option.bind_some]
    split <;> rfl

theorem bytesUsed?_of_lt {c : Cursor} (hfit : c.bytesUsed < 2 ^ 64) :
    c.bytesUsed? = some c.bytesUsed := by
  unfold bytesUsed? bytesUsed at *
  split at hfit
  · next hbit => rw [if_neg (by omega), if_pos hbit]
  · next hbit => rw [if_pos (by omega), if_neg hbit, sumInWidth?_of_lt hfit]

end Cursor

/-- The count of scalars visits their places. -/
theorem countAll?_scalars {offset : Nat} {scalars : List (Entry × Scalar)}
    (hs : ∀ x ∈ scalars, x.2 ≠ .bool) (hfit : offset + scalarSize scalars < 2 ^ 64)
    (rest : List Scalar) :
    Cursor.countAll? packing ⟨offset, 0⟩ (scalars.map Prod.snd ++ rest) =
      (Cursor.countAll? packing ⟨offset + scalarSize scalars, 0⟩ rest).map fun counted =>
        ((placeScalars offset scalars).map Placement.cursor ++ counted.1, counted.2) := by
  -- `rest` is what is counted afterwards: the result of the whole is that of `rest`
  -- with the scalars put in front, so both fail together.
  induction scalars generalizing offset with
  | nil => simp [placeScalars, scalarSize]
  | cons x scalars ih =>
    rw [scalarSize_cons] at hfit ⊢
    have hcount : Cursor.count? packing ⟨offset, 0⟩ x.2 = some ⟨offset + x.2.size, 0⟩ :=
      Cursor.count?_of_ne_bool (hs x List.mem_cons_self) (by show offset + x.2.size < 2 ^ 64; omega)
    have hrest := ih (fun y hy => hs y (List.mem_cons_of_mem x hy))
      (show offset + x.2.size + scalarSize scalars < 2 ^ 64 by omega)
    rw [List.map_cons, List.cons_append, Cursor.countAll?, hcount, Option.bind_eq_bind,
      Option.bind_some, hrest, Nat.add_assoc]
    cases Cursor.countAll? packing ⟨offset + (x.2.size + scalarSize scalars), 0⟩ rest <;> rfl

/-- The count of booleans visits theirs. -/
theorem countAll?_booleans (start k : Nat) (es : List Entry)
    (hfit : (Cursor.nth packing start (k + es.length)).bytesUsed < 2 ^ 64) :
    Cursor.countAll? packing (Cursor.nth packing start k) (es.map fun _ => Scalar.bool) =
      some (es.mapIdx fun i e => (flagAt packing start e (k + i)).cursor,
        Cursor.nth packing start (k + es.length)) := by
  induction es generalizing k with
  | nil => rfl
  | cons e es ih =>
    have hlength : k + (e :: es).length = k + 1 + es.length := by
      rw [List.length_cons]
      omega
    rw [hlength] at hfit ⊢
    have hbyte := (bounds_flagAt packing start e (show k < k + 1 + es.length by omega)).2
    have hcount : (Cursor.nth packing start k).count? packing .bool =
        some (Cursor.nth packing start (k + 1)) := by
      rw [← Cursor.next_nth]
      exact Cursor.count?_bool (bit_flagAt_lt packing start e k) (Nat.lt_of_le_of_lt hbyte hfit)
    rw [List.map_cons, Cursor.countAll?, hcount, Option.bind_eq_bind, Option.bind_some,
      ih (k + 1) hfit, List.mapIdx_cons]
    simp only [Nat.add_assoc, Nat.add_comm 1]
    rfl

theorem map_backing_assemble (packing : Packing) (scalars : List (Entry × Scalar))
    (booleans : List Entry) :
    (assemble packing scalars booleans).placements.map Placement.backing =
      scalars.map Prod.snd ++ booleans.map fun _ => Scalar.bool := by
  have htriple := congrArg (List.map fun t : Nat × String × Scalar => t.2.2)
    (map_placements_assemble packing scalars booleans)
  simpa only [List.map_append, List.map_map, Function.comp_def] using htriple

theorem map_cursor_assemble (packing : Packing) (scalars : List (Entry × Scalar))
    (booleans : List Entry) :
    (assemble packing scalars booleans).placements.map Placement.cursor =
      (placeScalars 0 scalars).map Placement.cursor ++ booleans.mapIdx fun k e =>
        (flagAt packing (scalarSize scalars) e k).cursor := by
  rw [assemble, List.map_append, map_mapIdx_flagAt]

/-- A machine that counts in words counts the places of a layout and its size, if
the size is a word. -/
theorem countAll?_placements (h : arrange fields packing = .ok l) (hfit : l.totalSize < 2 ^ 64) :
    ∃ last, Cursor.countAll? packing ⟨0, 0⟩ (l.placements.map Placement.backing) =
        some (l.placements.map Placement.cursor, last) ∧
      last.bytesUsed? = some l.totalSize := by
  obtain ⟨_, scalars, hback, rfl⟩ := arrange_eq_ok_iff.mp h
  have hs : ∀ x ∈ scalars, x.2 ≠ .bool := fun x hx => Entry.ne_bool_of_mem_withBacking hback hx
  have hle := scalarSize_le_totalSize packing scalars (Entry.booleans fields)
  have hused : (Cursor.nth packing (scalarSize scalars)
      (0 + (Entry.booleans fields).length)).bytesUsed < 2 ^ 64 := by
    rw [Nat.zero_add]
    exact hfit
  have hbooleans := countAll?_booleans (scalarSize scalars) 0 (Entry.booleans fields) hused
  simp only [Cursor.nth_zero, Nat.zero_add] at hbooleans
  refine ⟨Cursor.nth packing (scalarSize scalars) (Entry.booleans fields).length, ?_,
    Cursor.bytesUsed?_of_lt hfit⟩
  rw [map_backing_assemble, map_cursor_assemble, countAll?_scalars hs (by omega), Nat.zero_add,
    hbooleans]
  rfl

/-! ## The whole law -/

/-- The places of a layout are those of the stored scalars and then of the stored
booleans, each by name.  A scalar lies behind the scalars before it, a boolean behind
all scalars and the booleans before it, and the record ends behind the last.  So
places do not go back, and a record has at most eight bytes for each stored field.
A list in memory has fewer than 2 ^ 61 fields, since a field takes more than eight
bytes there, and so the counts of a machine stay in their words. -/
theorem placement_law (h : arrange fields packing = .ok l) :
    ∃ scalars booleans : List Field,
      scalars.Perm (fields.filter fun f => f.included && !f.type.isBool) ∧
      booleans.Perm (fields.filter fun f => f.included && f.type.isBool) ∧
      Field.Ascending scalars ∧ Field.Ascending booleans ∧
      Placed packing scalars booleans l.placements ∧
      l.totalSize = (scalars.map Field.storedSize).sum + packing.booleanBytes booleans.length ∧
      (l.placements.Pairwise fun p q => p.offset ≤ q.offset) ∧
      l.totalSize ≤ 8 * fields.countP Field.included ∧
      (8 * fields.length < 2 ^ 64 →
        ∃ last, Cursor.countAll? packing ⟨0, 0⟩ (l.placements.map Placement.backing) =
            some (l.placements.map Placement.cursor, last) ∧
          last.bytesUsed? = some l.totalSize) := by
  obtain ⟨hnames, _⟩ := arrange_eq_ok_iff.mp h
  have hsize : l.totalSize =
      (((Entry.others fields).map Entry.field).map Field.storedSize).sum +
        packing.booleanBytes ((Entry.booleans fields).map Entry.field).length := by
    rw [totalSize_of_arrange h, Entry.sum_storedSize_others, List.length_map,
      Entry.length_booleans]
  refine ⟨_, _, Entry.map_field_filter_sorted_perm fields _,
    Entry.map_field_filter_sorted_perm fields _, Entry.ascending_filter_sorted hnames _,
    Entry.ascending_filter_sorted hnames _, placed_of_arrange h, hsize, pairwise_offset_le h,
    totalSize_le h, fun hfit => countAll?_placements h ?_⟩
  have hle := totalSize_le h
  have hcount : fields.countP Field.included ≤ fields.length := List.countP_le_length
  omega

/-- The ninth flag begins a new byte, and no count comes near the end of its word. -/
theorem placement_law_nineFlags :
    arrange nineFlags .dense = .ok nineFlagsLayout ∧
      (∃ booleans : List Field, Field.Ascending booleans ∧ ∃ f p, booleans[8]? = some f ∧
        nineFlagsLayout.placements[1 + 8]? = some p ∧ p.name = f.name ∧ p.size = 1 ∧
        p.cursor = ⟨3, 0⟩) ∧
      8 * nineFlags.length < 2 ^ 64 ∧
      ∃ last, Cursor.countAll? .dense ⟨0, 0⟩ (nineFlagsLayout.placements.map Placement.backing) =
          some (nineFlagsLayout.placements.map Placement.cursor, last) ∧
        last.bytesUsed? = some 4 := by
  obtain ⟨scalars, booleans, hscalars, hbooleans, _, hascending, hplaced, _, _, _, hcount⟩ :=
    placement_law arrange_nineFlags
  have hfit : 8 * nineFlags.length < 2 ^ 64 := by decide
  refine ⟨arrange_nineFlags, ⟨booleans, hascending, ?_⟩, hfit, hcount hfit⟩
  have hone : scalars.length = 1 := hscalars.length_eq
  have hnine : booleans.length = 9 := hbooleans.length_eq
  have hsize : (scalars.map Field.storedSize).sum = 2 := (hscalars.map Field.storedSize).sum_nat
  have hf : booleans[8]? = some booleans[8] := List.getElem?_eq_getElem (by omega)
  obtain ⟨p, hp, hname, _, hbytes, hcursor⟩ := hplaced.boolean 8 _ hf
  rw [hone] at hp
  rw [hsize] at hcursor
  exact ⟨booleans[8], p, hf, hp, hname, hbytes, hcursor⟩

end Layout

end FlatRecord
