import FlatRecord.Layout.Transfer
import FlatRecord.Proofs.Acceptance

/-!
# Placements and stored fields

The placements of a layout and the stored fields of its list are two views of one
set.  `Positions` goes from a placement to its field by its number, and back.  This
module adds that the way is one to one and that a name finds it too.

* `Entry.nodup_index_included` says that no two stored fields have one number.
* `get?_eq_some_iff` and `get?_eq_none_iff` say what a name finds, in terms of the
  placements.  The names differ, so the first placement of a name is the only one.
* `Transfer.ofPlacement_eq_flag_iff` says which placements are moved as flags.
-/

namespace FlatRecord

/-- The numbers of the stored fields are different. -/
theorem Entry.nodup_index_included (fields : List Field) :
    ((Entry.included fields).map Entry.index).Nodup := by
  have hindex : (Entry.included fields).map Entry.index =
      (fields.zipIdx.filter fun x => x.1.included).map Prod.snd := by
    simp only [Entry.included, List.map_map, Function.comp_def]
  have hsublist : ((fields.zipIdx.filter fun x => x.1.included).map Prod.snd).Sublist
      (fields.zipIdx.map Prod.snd) := List.filter_sublist.map Prod.snd
  rw [List.zipIdx_map_snd] at hsublist
  rw [hindex]
  exact hsublist.nodup (List.nodup_range' ..)

/-- A field is moved as a flag if it is a boolean that shares its byte, and then as
the flag of its bit. -/
theorem Transfer.ofPlacement_eq_flag_iff {packing : Packing} {p : Placement} {bit : Nat} :
    Transfer.ofPlacement packing p = .flag bit ↔
      bit = p.bit ∧ p.backing = .bool ∧ packing = .dense := by
  unfold Transfer.ofPlacement
  cases packing <;> cases p.backing <;> simp [eq_comm]

namespace Layout

variable {fields : List Field} {packing : Packing} {l : Layout}

/-- A name finds the placement that has it. -/
theorem get?_eq_some_iff (hl : l.WellFormed) {name : String} {p : Placement} :
    l.get? name = some p ↔ p ∈ l.placements ∧ p.name = name := by
  constructor
  · intro h
    exact ⟨List.mem_of_find?_eq_some h, by simpa using List.find?_some h⟩
  · rintro ⟨hp, rfl⟩
    have hfound : (l.get? p.name).isSome := List.find?_isSome.mpr ⟨p, hp, by simp⟩
    obtain ⟨q, hq⟩ := Option.isSome_iff_exists.mp hfound
    have hname : q.name = p.name := by simpa using List.find?_some hq
    rw [hq, List.inj_on_of_nodup_map hl.nodup_names (List.mem_of_find?_eq_some hq) hp hname]

theorem get?_eq_none_iff {name : String} :
    l.get? name = none ↔ ∀ p ∈ l.placements, p.name ≠ name := by
  simp [get?]

/-- The numbers of the placements are different. -/
theorem nodup_index (h : arrange fields packing = .ok l) :
    (l.placements.map Placement.index).Nodup :=
  (map_index_perm h).nodup_iff.mpr (Entry.nodup_index_included fields)

/-- A number belongs to a placement if a stored field stands there. -/
theorem mem_map_index_iff (h : arrange fields packing = .ok l) {i : Nat} :
    i ∈ l.placements.map Placement.index ↔ ∃ f, fields[i]? = some f ∧ f.included = true := by
  constructor
  · intro hi
    obtain ⟨p, hp, rfl⟩ := List.mem_map.mp hi
    obtain ⟨f, hf, hincluded, _⟩ := exists_field h hp
    exact ⟨f, hf, hincluded⟩
  · rintro ⟨f, hf, hincluded⟩
    obtain ⟨p, hp, hindex, _⟩ := exists_placement h hf hincluded
    exact List.mem_map.mpr ⟨p, hp, hindex⟩

/-- A name finds the placement of the stored field that has it. -/
theorem get?_eq_some_iff_field (h : arrange fields packing = .ok l) {name : String}
    {p : Placement} :
    l.get? name = some p ↔
      p ∈ l.placements ∧ ∃ f, fields[p.index]? = some f ∧ f.included = true ∧ f.name = name := by
  rw [get?_eq_some_iff (wellFormed_of_arrange h)]
  refine and_congr_right fun hp => ?_
  obtain ⟨f, hf, hincluded, hname, _⟩ := exists_field h hp
  constructor
  · rintro rfl
    exact ⟨f, hf, hincluded, hname⟩
  · rintro ⟨g, hg, _, rfl⟩
    obtain rfl : f = g := Option.some.inj (hf.symm.trans hg)
    exact hname.symm

/-- A name that no stored field has finds nothing. -/
theorem get?_eq_none_iff_field (h : arrange fields packing = .ok l) {name : String} :
    l.get? name = none ↔ ∀ f ∈ fields, f.included = true → f.name ≠ name := by
  rw [get?_eq_none_iff]
  constructor
  · intro hnone f hf hincluded
    obtain ⟨i, hi⟩ := List.mem_iff_getElem?.mp hf
    obtain ⟨p, hp, _, hname, _⟩ := exists_placement h hi hincluded
    exact hname ▸ hnone p hp
  · intro hnone p hp
    obtain ⟨f, hf, hincluded, hname, _⟩ := exists_field h hp
    exact hname ▸ hnone f (List.mem_of_getElem? hf) hincluded

/-- The placements of a layout stand for the stored fields one to one.  Their
numbers are different and those of the stored fields, each finds the field that it
places, and so does each name.  There is one transfer for each placement, and those
of booleans that share a byte are flags. -/
theorem placements_and_fields (h : arrange fields packing = .ok l) :
    (l.placements.map Placement.index).Nodup ∧
      (∀ i, i ∈ l.placements.map Placement.index ↔
        ∃ f, fields[i]? = some f ∧ f.included = true) ∧
      (∀ p ∈ l.placements, ∃ f, fields[p.index]? = some f ∧ f.included = true ∧
        f.name = p.name ∧ f.backing = .ok p.backing) ∧
      (l.placements.map Placement.name).Nodup ∧
      ((fields.filter Field.included).map Field.name).Nodup ∧
      (∀ name p, l.get? name = some p ↔ p ∈ l.placements ∧
        ∃ f, fields[p.index]? = some f ∧ f.included = true ∧ f.name = name) ∧
      (∀ name, l.get? name = none ↔ ∀ f ∈ fields, f.included = true → f.name ≠ name) ∧
      l.transfers.length = l.placements.length ∧
      ∀ (k : Nat) (p : Placement), l.placements[k]? = some p →
        ∀ bit, l.transfers[k]? = some (.flag bit) ↔
          bit = p.bit ∧ p.backing = .bool ∧ packing = .dense := by
  have hnames := (exists_arrange_iff.mp ⟨l, h⟩).2.1
  refine ⟨nodup_index h, fun i => mem_map_index_iff h, fun p => exists_field h,
    (wellFormed_of_arrange h).nodup_names, hnames, fun name p => get?_eq_some_iff_field h,
    fun name => get?_eq_none_iff_field h, length_transfers l, fun k p hp bit => ?_⟩
  rw [transfers, List.getElem?_map, hp, packing_of_arrange h, Option.map_some, Option.some.injEq]
  exact Transfer.ofPlacement_eq_flag_iff

/-- The flag `i` stands first of its kind in the list and last in the record. -/
theorem placements_and_fields_nineFlags :
    arrange nineFlags .dense = .ok nineFlagsLayout ∧
      (∃ p, nineFlagsLayout.get? "i" = some p ∧ p.index = 2 ∧
        nineFlagsLayout.placements[9]? = some p ∧ nineFlagsLayout.transfers[9]? = some (.flag 0)) ∧
      nineFlagsLayout.get? "note" = none := by
  obtain ⟨_, _, _, _, _, hsome, hnone, _, hflag⟩ := placements_and_fields arrange_nineFlags
  refine ⟨arrange_nineFlags, ⟨⟨"i", 2, 3, 0, .bool, 1⟩, ?_, rfl, rfl, ?_⟩, ?_⟩
  · exact (hsome _ _).mpr ⟨by decide, _, rfl, rfl, rfl⟩
  · exact (hflag 9 _ rfl 0).mpr ⟨rfl, rfl, rfl⟩
  · exact (hnone "note").mpr (by decide)

end Layout

end FlatRecord
