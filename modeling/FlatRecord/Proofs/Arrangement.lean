import FlatRecord.Proofs.Names
import Mathlib.Data.List.Perm.Basic

/-!
# What a layout is made of

`Layout.arrange` runs a cursor over the sorted fields.  This module gives the
places in closed form, so that no later proof follows the cursor.

* `Cursor.nth` is the place of boolean number `k`, and `placeBooleans_nth` says
  that the cursor visits these places in order.
* `Layout.assemble` is the layout of given scalars and booleans in closed form.
* `arrange_eq_ok_iff` says when fields have a layout and that it is an
  assembled one.

The last section holds what the fields of an assembled layout inherit from the
list that it is made from: their backings, their names and their number.
-/

namespace FlatRecord

namespace Layout

/-! ## The place of each boolean -/

namespace Cursor

/-- The place of boolean number `k` when booleans start at byte `start`. -/
def nth (packing : Packing) (start k : Nat) : Cursor :=
  match packing with
  | .loose => ⟨start + k, 0⟩
  | .dense => ⟨start + k / 8, k % 8⟩

@[simp] theorem nth_zero (packing : Packing) (start : Nat) : nth packing start 0 = ⟨start, 0⟩ := by
  cases packing <;> rfl

/-- The cursor goes from each place to the next. -/
theorem next_nth (packing : Packing) (start k : Nat) :
    (nth packing start k).next packing = nth packing start (k + 1) := by
  cases packing with
  | loose => rfl
  | dense =>
    show (if k % 8 + 1 = 8 then (⟨start + k / 8 + 1, 0⟩ : Cursor)
      else ⟨start + k / 8, k % 8 + 1⟩) = ⟨start + (k + 1) / 8, (k + 1) % 8⟩
    by_cases hlast : k % 8 + 1 = 8
    · rw [if_pos hlast, show (k + 1) / 8 = k / 8 + 1 by omega, show (k + 1) % 8 = 0 by omega]
      rfl
    · rw [if_neg hlast, show (k + 1) / 8 = k / 8 by omega, show (k + 1) % 8 = k % 8 + 1 by omega]

theorem bytesUsed_nth_loose (start n : Nat) : (nth .loose start n).bytesUsed = start + n := rfl

/-- Eight booleans to a byte, and the last byte may be partly used. -/
theorem bytesUsed_nth_dense (start n : Nat) :
    (nth .dense start n).bytesUsed = start + (n + 7) / 8 := by
  show (if n % 8 = 0 then start + n / 8 else start + n / 8 + 1) = start + (n + 7) / 8
  by_cases hfull : n % 8 = 0
  · rw [if_pos hfull]
    omega
  · rw [if_neg hfull]
    omega

end Cursor

/-- The placement of boolean number `k`. -/
def flagAt (packing : Packing) (start : Nat) (e : Entry) (k : Nat) : Placement :=
  { name := e.name
    index := e.index
    offset := (Cursor.nth packing start k).byte
    bit := (Cursor.nth packing start k).bit
    backing := .bool
    size := 1 }

/-- Booleans are placed one after the other from number `k` on. -/
theorem placeBooleans_nth (packing : Packing) (start k : Nat) (es : List Entry) :
    placeBooleans packing (Cursor.nth packing start k) es =
      (es.mapIdx fun i e => flagAt packing start e (k + i),
        Cursor.nth packing start (k + es.length)) := by
  induction es generalizing k with
  | nil => rfl
  | cons e es ih =>
    simp only [placeBooleans, Cursor.next_nth, ih, List.mapIdx_cons, List.length_cons,
      Nat.add_assoc, Nat.add_comm 1, Nat.add_zero]
    rfl

/-- What is read off the places of booleans. -/
theorem map_mapIdx_flagAt {α : Type} (read : Placement → α) (packing : Packing) (start : Nat)
    (es : List Entry) :
    (es.mapIdx fun k e => flagAt packing start e k).map read =
      es.mapIdx fun k e => read (flagAt packing start e k) := by
  apply List.ext_getElem
  · simp
  · intro k _ _
    simp only [List.getElem_map, List.getElem_mapIdx]

/-- What does not depend on the number of a boolean is read off its entry. -/
theorem map_mapIdx_flagAt_eq_map {α : Type} {read : Placement → α} (label : Entry → α)
    {packing : Packing} {start : Nat} (h : ∀ e k, read (flagAt packing start e k) = label e)
    (es : List Entry) :
    (es.mapIdx fun k e => flagAt packing start e k).map read = es.map label := by
  rw [map_mapIdx_flagAt]
  apply List.ext_getElem
  · simp
  · intro k _ _
    simp only [List.getElem_map, List.getElem_mapIdx, h]

/-! ## The assembled layout -/

/-- The layout of scalars and booleans that are given in order. -/
def assemble (packing : Packing) (scalars : List (Entry × Scalar)) (booleans : List Entry) :
    Layout where
  packing := packing
  totalSize := (Cursor.nth packing (scalarSize scalars) booleans.length).bytesUsed
  placements :=
    placeScalars 0 scalars ++ booleans.mapIdx fun k e => flagAt packing (scalarSize scalars) e k

end Layout

namespace Entry

/-- The stored fields by name. -/
def sorted (fields : List Field) : List Entry :=
  sortByName (included fields)

/-- The stored booleans by name. -/
def booleans (fields : List Field) : List Entry :=
  (sorted fields).filter fun e => e.field.type.isBool

/-- The stored fields that are no booleans, by name. -/
def others (fields : List Field) : List Entry :=
  (sorted fields).filter fun e => !e.field.type.isBool

end Entry

namespace Layout

/-- Laying out fields checks the names, finds the backings, and assembles. -/
theorem arrange_eq (fields : List Field) (packing : Packing) :
    arrange fields packing = (do
      Entry.checkNames (Entry.sorted fields)
      let scalars ← Entry.withBacking (Entry.others fields)
      pure (assemble packing scalars (Entry.booleans fields))) := by
  have hparts : (Entry.sorted fields).partition (fun e => e.field.type.isBool) =
      (Entry.booleans fields, Entry.others fields) := List.partition_eq_filter_filter
  have hplace (scalars : List (Entry × Scalar)) :
      placeBooleans packing ⟨scalarSize scalars, 0⟩ (Entry.booleans fields) =
        ((Entry.booleans fields).mapIdx fun k e => flagAt packing (scalarSize scalars) e k,
          Cursor.nth packing (scalarSize scalars) (Entry.booleans fields).length) := by
    have h := placeBooleans_nth packing (scalarSize scalars) 0 (Entry.booleans fields)
    rw [Cursor.nth_zero] at h
    simpa only [Nat.zero_add] using h
  have hsorted : Entry.sortByName (Entry.included fields) = Entry.sorted fields := rfl
  simp only [arrange, hsorted, hparts, hplace]
  rfl

/-- Fields have a layout if their names pass and every field that is no boolean
has a backing, and then it is the assembled one. -/
theorem arrange_eq_ok_iff {fields : List Field} {packing : Packing} {l : Layout} :
    arrange fields packing = .ok l ↔
      Entry.checkNames (Entry.sorted fields) = .ok () ∧
        ∃ scalars, Entry.withBacking (Entry.others fields) = .ok scalars ∧
          assemble packing scalars (Entry.booleans fields) = l := by
  rw [arrange_eq]
  cases Entry.checkNames (Entry.sorted fields) with
  | error e => simp [bind, Except.bind]
  | ok u =>
    cases Entry.withBacking (Entry.others fields) with
    | error e => simp [bind, Except.bind]
    | ok scalars => simp [bind, Except.bind, pure, Except.pure]

end Layout

/-! ## What the parts inherit -/

/-- The number of fields of a list that are stored as booleans. -/
def Field.booleanCount (fields : List Field) : Nat :=
  fields.countP fun f => f.included && f.type.isBool

/-- The boolean type is the backing of boolean fields only. -/
theorem Field.backing_ne_bool {f : Field} (hf : f.type.isBool = false) {s : Scalar}
    (h : f.backing = .ok s) : s ≠ .bool := by
  intro hbool
  subst hbool
  unfold backing at h
  split at h
  · next s hs =>
    obtain rfl := Except.ok.inj h
    simp [FieldType.isBool, hs] at hf
  · split at h
    · next hint =>
      rw [Except.ok.inj h] at hint
      simp [Scalar.isInteger] at hint
    · cases h
  · cases h

namespace Entry

/-- Backings are found for a list if they are found for its head and its tail. -/
theorem withBacking_cons_eq_ok_iff {e : Entry} {es : List Entry}
    {scalars : List (Entry × Scalar)} :
    withBacking (e :: es) = .ok scalars ↔
      ∃ s rest, e.field.backing = .ok s ∧ withBacking es = .ok rest ∧
        (e, s) :: rest = scalars := by
  rw [withBacking]
  cases e.field.backing with
  | error _ => simp [bind, Except.bind]
  | ok s =>
    cases withBacking es with
    | error _ => simp [bind, Except.bind]
    | ok rest => simp [bind, Except.bind, pure, Except.pure]

/-- Backings are found for exactly the given entries, in order. -/
theorem map_fst_of_withBacking {es : List Entry} {scalars : List (Entry × Scalar)}
    (h : withBacking es = .ok scalars) : scalars.map Prod.fst = es := by
  induction es generalizing scalars with
  | nil => cases h; rfl
  | cons e es ih =>
    obtain ⟨s, rest, _, hrest, rfl⟩ := withBacking_cons_eq_ok_iff.mp h
    rw [List.map_cons, ih hrest]

theorem backing_of_mem_withBacking {es : List Entry} {scalars : List (Entry × Scalar)}
    (h : withBacking es = .ok scalars) {x : Entry × Scalar} (hx : x ∈ scalars) :
    x.1.field.backing = .ok x.2 := by
  induction es generalizing scalars with
  | nil => cases h; exact nomatch hx
  | cons e es ih =>
    obtain ⟨s, rest, hs, hrest, rfl⟩ := withBacking_cons_eq_ok_iff.mp h
    rcases List.mem_cons.mp hx with rfl | hx
    · exact hs
    · exact ih hrest hx

/-- No scalar of a layout is stored as a boolean. -/
theorem ne_bool_of_mem_withBacking {fields : List Field} {scalars : List (Entry × Scalar)}
    (h : withBacking (others fields) = .ok scalars) {x : Entry × Scalar} (hx : x ∈ scalars) :
    x.2 ≠ .bool := by
  have hmem : x.1 ∈ others fields := by
    rw [← map_fst_of_withBacking h]
    exact List.mem_map_of_mem hx
  have hbool : x.1.field.type.isBool = false := by simpa using (List.mem_filter.mp hmem).2
  exact Field.backing_ne_bool hbool (backing_of_mem_withBacking h hx)

theorem map_field_included (fields : List Field) :
    (included fields).map Entry.field = fields.filter Field.included := by
  conv_rhs => rw [← List.zipIdx_map_fst 0 fields, List.filter_map]
  simp only [included, List.map_map, Function.comp_def]

/-- Sorting keeps the stored fields of a kind. -/
theorem map_field_filter_sorted_perm (fields : List Field) (kind : Field → Bool) :
    (((sorted fields).filter fun e => kind e.field).map Entry.field).Perm
      (fields.filter fun f => f.included && kind f) := by
  have hperm : ((sorted fields).filter fun e => kind e.field).Perm
      ((included fields).filter fun e => kind e.field) :=
    (sortByName_perm _).filter _
  have hfilter := List.filter_map (f := Entry.field) (l := included fields) (p := kind)
  rw [map_field_included, List.filter_filter] at hfilter
  simp only [Bool.and_comm] at hfilter ⊢
  exact hfilter ▸ hperm.map Entry.field

/-- The booleans of a layout are the stored boolean fields of the list. -/
theorem length_booleans (fields : List Field) :
    (booleans fields).length = Field.booleanCount fields := by
  have hlength := (map_field_filter_sorted_perm fields fun f => f.type.isBool).length_eq
  rw [List.length_map] at hlength
  rw [Field.booleanCount, List.countP_eq_length_filter, ← hlength]
  rfl

end Entry

end FlatRecord
