import FlatRecord.Proofs.Tiling

/-!
# The field of each placement

A placement carries the number that its field has in the list.  The number goes
through the sorting and the parting of the entries unchanged, so it still finds
the field, and no stored field is lost or placed twice.

* `Layout.exists_field` is the field of a placement: it stands at the number of
  the placement, has its name, and is stored as its backing.
* `Layout.map_index_perm` says that the numbers are those of the stored fields,
  and `Layout.exists_placement` finds the placement of a field.
* `Layout.exists_arrange` says when there is a layout at all: the stored names
  are not empty and all different, and each stored type has a backing.
-/

namespace FlatRecord

namespace Entry

variable {fields : List Field}

/-- An entry is a stored field at its number. -/
theorem mem_included_iff {e : Entry} :
    e ∈ included fields ↔ fields[e.index]? = some e.field ∧ e.field.included = true := by
  simp only [included, List.mem_map, List.mem_filter, Prod.exists]
  constructor
  · rintro ⟨f, i, ⟨hmem, hincluded⟩, rfl⟩
    exact ⟨List.mem_zipIdx_iff_getElem?.mp hmem, hincluded⟩
  · rintro ⟨hget, hincluded⟩
    exact ⟨e.field, e.index, ⟨List.mem_zipIdx_iff_getElem?.mpr hget, hincluded⟩, rfl⟩

theorem mem_sorted_iff {e : Entry} : e ∈ sorted fields ↔ e ∈ included fields :=
  (sortByName_perm _).mem_iff

/-- If all fields are stored, their numbers are all numbers. -/
theorem map_index_included (h : ∀ f ∈ fields, f.included = true) :
    (included fields).map Entry.index = List.range fields.length := by
  have hall : fields.zipIdx.filter (fun x => x.1.included) = fields.zipIdx := by
    refine List.filter_eq_self.mpr fun x hx => h x.1 ?_
    exact List.mem_of_getElem? (List.mem_zipIdx_iff_getElem?.mp hx)
  have hsnd : fields.zipIdx.map Prod.snd = List.range fields.length := by
    rw [List.zipIdx_map_snd, List.range_eq_range']
  rw [← hsnd]
  simp only [included, hall, List.map_map, Function.comp_def]

/-- Entries of different names pass the check of neighbours. -/
theorem firstRepeated?_eq_none {es : List Entry} (h : (es.map Entry.name).Nodup) :
    firstRepeated? es = none := by
  fun_induction firstRepeated? es with
  | case1 => rfl
  | case2 => rfl
  | case3 a b rest hab => simp [hab] at h
  | case4 a b rest hab ih => exact ih (List.nodup_cons.mp h).2

/-- The sorted entries stand for the stored fields. -/
theorem map_field_sorted_perm (fields : List Field) :
    ((sorted fields).map Entry.field).Perm (fields.filter Field.included) := by
  rw [← map_field_included]
  exact (sortByName_perm _).map Entry.field

theorem forall_sorted_iff {P : Field → Prop} :
    (∀ e ∈ sorted fields, P e.field) ↔ ∀ f ∈ fields.filter Field.included, P f := by
  simp only [← (map_field_sorted_perm fields).mem_iff, List.mem_map, forall_exists_index, and_imp,
    forall_apply_eq_imp_iff₂]

/-- The names of the sorted entries are those of the stored fields. -/
theorem map_name_sorted_perm (fields : List Field) :
    ((sorted fields).map Entry.name).Perm ((fields.filter Field.included).map Field.name) := by
  have hperm := (map_field_sorted_perm fields).map Field.name
  rwa [List.map_map] at hperm

/-- Names pass the check if none is empty and none is used twice. -/
theorem checkNames_sorted_eq_ok_iff :
    checkNames (sorted fields) = .ok () ↔
      (∀ f ∈ fields.filter Field.included, f.name ≠ "") ∧
        ((fields.filter Field.included).map Field.name).Nodup := by
  have hnamed : (∀ e ∈ sorted fields, e.name ≠ "") ↔
      ∀ f ∈ fields.filter Field.included, f.name ≠ "" :=
    forall_sorted_iff (P := fun f => f.name ≠ "")
  rw [checkNames_eq_ok_iff, hnamed, ← (map_name_sorted_perm fields).nodup_iff]
  refine and_congr_right fun _ => ⟨fun hnone => ?_, firstRepeated?_eq_none⟩
  exact List.pairwise_map.mpr (pairwise_name_ne (pairwise_sortByName _) hnone)

theorem exists_withBacking {es : List Entry} (h : ∀ e ∈ es, ∃ s, e.field.backing = .ok s) :
    ∃ scalars, withBacking es = .ok scalars := by
  induction es with
  | nil => exact ⟨[], rfl⟩
  | cons e es ih =>
    obtain ⟨s, hs⟩ := h e List.mem_cons_self
    obtain ⟨rest, hrest⟩ := ih fun e' he' => h e' (List.mem_cons_of_mem e he')
    exact ⟨(e, s) :: rest, withBacking_cons_eq_ok_iff.mpr ⟨s, rest, hs, hrest, rfl⟩⟩

end Entry

namespace Layout

variable {fields : List Field} {packing : Packing} {l : Layout}

/-! ## Numbers -/

/-- What a placement says of its field: the number, the name and the backing. -/
theorem map_placements_assemble (packing : Packing) (scalars : List (Entry × Scalar))
    (booleans : List Entry) :
    (assemble packing scalars booleans).placements.map (fun p => (p.index, p.name, p.backing)) =
      scalars.map (fun x => (x.1.index, x.1.name, x.2)) ++
        booleans.map fun e => (e.index, e.name, .bool) := by
  have hscalars (offset : Nat) :
      (placeScalars offset scalars).map (fun p => (p.index, p.name, p.backing)) =
        scalars.map fun x => (x.1.index, x.1.name, x.2) := by
    induction scalars generalizing offset with
    | nil => rfl
    | cons x scalars ih => simp [placeScalars, ih]
  rw [assemble, List.map_append, hscalars,
    map_mapIdx_flagAt_eq_map (fun e => (e.index, e.name, .bool)) fun _ _ => rfl]

/-- A placement stands for an entry that has its backing. -/
theorem exists_entry (h : arrange fields packing = .ok l) {p : Placement}
    (hp : p ∈ l.placements) :
    ∃ e ∈ Entry.included fields, e.index = p.index ∧ e.name = p.name ∧
      e.field.backing = .ok p.backing := by
  obtain ⟨_, scalars, hback, rfl⟩ := arrange_eq_ok_iff.mp h
  have hmem : (p.index, p.name, p.backing) ∈
      scalars.map (fun x => (x.1.index, x.1.name, x.2)) ++
        (Entry.booleans fields).map fun e => (e.index, e.name, .bool) := by
    rw [← map_placements_assemble packing]
    exact List.mem_map.mpr ⟨p, hp, rfl⟩
  rcases List.mem_append.mp hmem with hscalar | hboolean
  · obtain ⟨x, hx, heq⟩ := List.mem_map.mp hscalar
    simp only [Prod.mk.injEq] at heq
    have hother : x.1 ∈ Entry.others fields := by
      rw [← Entry.map_fst_of_withBacking hback]
      exact List.mem_map_of_mem hx
    refine ⟨x.1, Entry.mem_sorted_iff.mp (List.mem_filter.mp hother).1, heq.1, heq.2.1, ?_⟩
    rw [← heq.2.2]
    exact Entry.backing_of_mem_withBacking hback hx
  · obtain ⟨e, he, heq⟩ := List.mem_map.mp hboolean
    simp only [Prod.mk.injEq] at heq
    obtain ⟨hsorted, hbool⟩ := List.mem_filter.mp he
    refine ⟨e, Entry.mem_sorted_iff.mp hsorted, heq.1, heq.2.1, ?_⟩
    rw [← heq.2.2]
    exact Field.backing_of_isBool hbool

/-- The number of a placement finds its field in the list. -/
theorem exists_field (h : arrange fields packing = .ok l) {p : Placement}
    (hp : p ∈ l.placements) :
    ∃ f, fields[p.index]? = some f ∧ f.included = true ∧ f.name = p.name ∧
      f.backing = .ok p.backing := by
  obtain ⟨e, he, hindex, hname, hback⟩ := exists_entry h hp
  obtain ⟨hget, hincluded⟩ := Entry.mem_included_iff.mp he
  exact ⟨e.field, hindex ▸ hget, hincluded, hname, hback⟩

/-- The numbers of the placements are those of the stored fields. -/
theorem map_index_perm (h : arrange fields packing = .ok l) :
    (l.placements.map Placement.index).Perm ((Entry.included fields).map Entry.index) := by
  obtain ⟨_, scalars, hback, rfl⟩ := arrange_eq_ok_iff.mp h
  have hindex : (assemble packing scalars (Entry.booleans fields)).placements.map
        Placement.index =
      (Entry.others fields ++ Entry.booleans fields).map Entry.index := by
    have hfst := congrArg (List.map Prod.fst)
      (map_placements_assemble packing scalars (Entry.booleans fields))
    simp only [List.map_append, List.map_map, Function.comp_def] at hfst
    rw [List.map_append, ← Entry.map_fst_of_withBacking hback, List.map_map]
    exact hfst
  rw [hindex]
  have hsorted : (Entry.others fields ++ Entry.booleans fields).Perm (Entry.sorted fields) :=
    List.perm_append_comm.trans (List.filter_append_perm _ _)
  exact (hsorted.trans (Entry.sortByName_perm _)).map Entry.index

/-- Every stored field has a placement of its number. -/
theorem exists_placement (h : arrange fields packing = .ok l) {i : Nat} {f : Field}
    (hf : fields[i]? = some f) (hincluded : f.included = true) :
    ∃ p ∈ l.placements, p.index = i ∧ p.name = f.name ∧ f.backing = .ok p.backing := by
  have hentry : (⟨i, f⟩ : Entry) ∈ Entry.included fields :=
    Entry.mem_included_iff.mpr ⟨hf, hincluded⟩
  have hindex : i ∈ l.placements.map Placement.index :=
    (map_index_perm h).mem_iff.mpr (List.mem_map.mpr ⟨_, hentry, rfl⟩)
  obtain ⟨p, hp, rfl⟩ := List.mem_map.mp hindex
  obtain ⟨g, hg, _, hname, hback⟩ := exists_field h hp
  obtain rfl : f = g := Option.some.inj (hf.symm.trans hg)
  exact ⟨p, hp, rfl, hname.symm, hback⟩

/-! ## Lists that have a layout -/

/-- There is a layout if the stored names are not empty and differ, and each
stored type has a backing. -/
theorem exists_arrange (packing : Packing)
    (hempty : ∀ f ∈ fields, f.included = true → f.name ≠ "")
    (hnodup : ((fields.filter Field.included).map Field.name).Nodup)
    (hback : ∀ f ∈ fields, f.included = true → ∃ s, f.backing = .ok s) :
    ∃ l, arrange fields packing = .ok l := by
  have hcheck : Entry.checkNames (Entry.sorted fields) = .ok () := by
    refine Entry.checkNames_sorted_eq_ok_iff.mpr ⟨fun f hf => ?_, hnodup⟩
    exact hempty f (List.mem_filter.mp hf).1 (List.mem_filter.mp hf).2
  obtain ⟨scalars, hscalars⟩ : ∃ scalars,
      Entry.withBacking (Entry.others fields) = .ok scalars := by
    refine Entry.exists_withBacking fun e he => ?_
    have hsorted := Entry.mem_sorted_iff.mp (List.mem_filter.mp he).1
    obtain ⟨hget, hincluded⟩ := Entry.mem_included_iff.mp hsorted
    exact hback e.field (List.mem_of_getElem? hget) hincluded
  exact ⟨_, arrange_eq_ok_iff.mpr ⟨hcheck, scalars, hscalars, rfl⟩⟩

end Layout

end FlatRecord
