import FlatRecord.Proofs.Positions
import FlatRecord.Proofs.RoundTrip
import Mathlib.Data.List.Forall2

/-!
# How fields are declared

A list of fields says more than its layout needs: in which order the fields are
declared, which fields are left out, and which of the stored integers are
enumerations.  This module says that none of it matters, for the error of a
list that has no layout as well as for the bytes and records of one that has.

* `Layout.ofSorted` is the layout of entries that are sorted already.
  `Entry.Keeps` is a change of entries that it cannot see, and `ofSorted_map`
  says that the layout changes with them.
* Two such changes are used: `Entry.unnumbered` forgets where a field stands in
  its list, and `Entry.plain` forgets which integers are enumerations.
* Names are told apart before a type is looked at, so lists with the same stored
  fields agree on the names (`map_name_sorted_congr`), and on everything once
  the names are distinct (`map_unnumbered_sorted_congr`).
* The number of a field in its list is all that is left to differ, and a schema
  does not look at it (`Schema.write?_unnumbered`, `Schema.parse?_unnumbered`).
-/

namespace FlatRecord

/-! ## What a list declares -/

/-- The names and types of the fields that are stored, in the order of the list. -/
def Field.stored (fields : List Field) : List (String × FieldType) :=
  (fields.filter Field.included).map fun f => (f.name, f.type)

/-- The second type is the first, or the first is an enumeration and the second
is the same under another name, or the scalar that is stored for it. -/
inductive FieldType.Redeclares : FieldType → FieldType → Prop where
  | same (t : FieldType) : Redeclares t t
  | renamed (name name' : String) (underlying : Scalar) :
      Redeclares (.enumeration name underlying) (.enumeration name' underlying)
  | plain (name : String) (underlying : Scalar) :
      Redeclares (.enumeration name underlying) (.scalar underlying)

/-- The second field is the first with its type declared in another way. -/
structure Field.Redeclares (f g : Field) : Prop where
  name_eq : g.name = f.name
  included_eq : g.included = f.included
  type : f.type.Redeclares g.type

/-- The place of a field without its number in the list. -/
def Placement.unnumbered (p : Placement) : Placement :=
  { p with index := 0 }

namespace Layout

/-- The layout with every place changed in the same way. -/
def mapPlacements (change : Placement → Placement) (l : Layout) : Layout :=
  { l with placements := l.placements.map change }

theorem mapPlacements_id (l : Layout) : l.mapPlacements id = l := by
  simp [mapPlacements]

/-- What is left of a layout that does not tell where its fields stand in the
list that it is made from. -/
def unnumbered (l : Layout) : Layout :=
  l.mapPlacements Placement.unnumbered

@[simp] theorem totalSize_unnumbered (l : Layout) : l.unnumbered.totalSize = l.totalSize := rfl

@[simp] theorem placements_unnumbered (l : Layout) :
    l.unnumbered.placements = l.placements.map Placement.unnumbered := rfl

/-- The layout of entries that are sorted by name. -/
def ofSorted (packing : Packing) (entries : List Entry) : Except LayoutError Layout := do
  Entry.checkNames entries
  let scalars ← Entry.withBacking (entries.filter fun e => !e.field.type.isBool)
  pure (assemble packing scalars (entries.filter fun e => e.field.type.isBool))

theorem arrange_eq_ofSorted (fields : List Field) (packing : Packing) :
    arrange fields packing = ofSorted packing (Entry.sorted fields) :=
  arrange_eq fields packing

end Layout

/-! ## Changes that a layout follows -/

namespace Entry

/-- The first repeated name depends on the names only. -/
theorem map_name_firstRepeated?_congr {es es' : List Entry}
    (h : es.map Entry.name = es'.map Entry.name) :
    (firstRepeated? es).map Entry.name = (firstRepeated? es').map Entry.name := by
  induction es generalizing es' with
  | nil =>
    obtain rfl : es' = [] := by simpa using h.symm
    rfl
  | cons a es ih =>
    obtain ⟨a', es', rfl, ha, htail⟩ := List.map_eq_cons_iff.mp h.symm
    have hrest := ih htail.symm
    cases es with
    | nil =>
      obtain rfl : es' = [] := by simpa using htail
      rfl
    | cons b es =>
      obtain ⟨b', es', rfl, hb, -⟩ := List.map_eq_cons_iff.mp htail
      simp only [firstRepeated?, ha, hb]
      split
      · simp [ha]
      · exact hrest

/-- Entries of the same names are accepted together, and refused with the same
error. -/
theorem checkNames_congr {es es' : List Entry} (h : es.map Entry.name = es'.map Entry.name) :
    checkNames es = checkNames es' := by
  have hempty : (es.any fun e => e.name.isEmpty) = es'.any fun e => e.name.isEmpty := by
    simpa only [List.any_map, Function.comp_def] using
      congrArg (fun names : List String => names.any String.isEmpty) h
  have hrepeated := map_name_firstRepeated?_congr h
  simp only [checkNames, hempty]
  split
  · rfl
  · cases hes : firstRepeated? es with
    | none =>
      rw [hes] at hrepeated
      simp [Option.map_eq_none_iff.mp hrepeated.symm]
    | some e =>
      rw [hes] at hrepeated
      obtain ⟨e', he', hname⟩ := Option.map_eq_some_iff.mp hrepeated.symm
      simp [he', hname]

/-- A change of entries that keeps all that a layout is made from.  The places of
the entries change by `place`. -/
structure Keeps (change : Entry → Entry) (place : Placement → Placement) : Prop where
  name_eq : ∀ e, (change e).name = e.name
  isBool_eq : ∀ e, (change e).field.type.isBool = e.field.type.isBool
  backing_eq : ∀ e, (change e).field.backing = e.field.backing
  place_eq : ∀ e offset bit backing size,
    Placement.mk (change e).name (change e).index offset bit backing size =
      place ⟨e.name, e.index, offset, bit, backing, size⟩

namespace Keeps

variable {change : Entry → Entry} {place : Placement → Placement}

theorem map_name (h : Keeps change place) (es : List Entry) :
    (es.map change).map Entry.name = es.map Entry.name := by
  simp [h.name_eq]

theorem withBacking_map (h : Keeps change place) (es : List Entry) :
    withBacking (es.map change) = (withBacking es).map (List.map (Prod.map change id)) := by
  induction es with
  | nil => rfl
  | cons e es ih =>
    rw [List.map_cons, withBacking, withBacking, h.backing_eq, ih]
    cases e.field.backing with
    | error _ => rfl
    | ok s => cases withBacking es <;> rfl

theorem insertByName_map (h : Keeps change place) (e : Entry) (es : List Entry) :
    insertByName (change e) (es.map change) = (insertByName e es).map change := by
  induction es with
  | nil => rfl
  | cons x xs ih =>
    simp only [List.map_cons, insertByName, h.name_eq]
    split
    · rfl
    · rw [ih, List.map_cons]

theorem sortByName_map (h : Keeps change place) (es : List Entry) :
    sortByName (es.map change) = (sortByName es).map change := by
  induction es with
  | nil => rfl
  | cons e es ih => rw [List.map_cons, sortByName, sortByName, ih, h.insertByName_map]

theorem scalarSize_map (change : Entry → Entry) (scalars : List (Entry × Scalar)) :
    Layout.scalarSize (scalars.map (Prod.map change id)) = Layout.scalarSize scalars := by
  induction scalars with
  | nil => rfl
  | cons x scalars ih => simp [Layout.scalarSize, ih]

theorem placeScalars_map (h : Keeps change place) (offset : Nat)
    (scalars : List (Entry × Scalar)) :
    Layout.placeScalars offset (scalars.map (Prod.map change id)) =
      (Layout.placeScalars offset scalars).map place := by
  induction scalars generalizing offset with
  | nil => rfl
  | cons x scalars ih =>
    obtain ⟨e, s⟩ := x
    simp only [List.map_cons, Prod.map_apply, id, Layout.placeScalars, h.place_eq, ih]

theorem assemble_map (h : Keeps change place) (packing : Packing)
    (scalars : List (Entry × Scalar)) (booleans : List Entry) :
    Layout.assemble packing (scalars.map (Prod.map change id)) (booleans.map change) =
      (Layout.assemble packing scalars booleans).mapPlacements place := by
  have hflags : (booleans.map change).mapIdx (fun k e =>
        Layout.flagAt packing (Layout.scalarSize scalars) e k) =
      (booleans.mapIdx fun k e =>
        Layout.flagAt packing (Layout.scalarSize scalars) e k).map place := by
    apply List.ext_getElem
    · simp
    · intro k _ _
      simp only [List.getElem_map, List.getElem_mapIdx]
      exact h.place_eq _ _ _ _ _
  simp only [Layout.assemble, Layout.mapPlacements, scalarSize_map, h.placeScalars_map, hflags,
    List.length_map, List.map_append]

/-- A layout changes with its entries. -/
theorem ofSorted_map (h : Keeps change place) (packing : Packing) (es : List Entry) :
    Layout.ofSorted packing (es.map change) =
      (Layout.ofSorted packing es).map (Layout.mapPlacements place) := by
  have hnames : checkNames (es.map change) = checkNames es := checkNames_congr (h.map_name es)
  have hfilter (p : Bool → Bool) : (es.map change).filter (fun e => p e.field.type.isBool) =
      (es.filter fun e => p e.field.type.isBool).map change := by
    rw [List.filter_map]
    simp only [Function.comp_def, h.isBool_eq]
  unfold Layout.ofSorted
  rw [hnames, hfilter (fun b => !b), hfilter (fun b => b), h.withBacking_map]
  cases checkNames es with
  | error _ => rfl
  | ok _ =>
    cases withBacking (es.filter fun e => !e.field.type.isBool) with
    | error _ => rfl
    | ok scalars => exact congrArg Except.ok (h.assemble_map packing scalars _)

end Keeps

/-! ## Entries without their numbers -/

/-- An entry that does not tell where it stands in its list. -/
def unnumbered (e : Entry) : Entry :=
  { e with index := 0 }

theorem keeps_unnumbered : Keeps unnumbered Placement.unnumbered :=
  ⟨fun _ => rfl, fun _ => rfl, fun _ => rfl, fun _ _ _ _ _ => rfl⟩

/-- The name and the type of an entry. -/
def declared (e : Entry) : String × FieldType :=
  (e.name, e.field.type)

theorem map_declared_included (fields : List Field) :
    (included fields).map declared = Field.stored fields := by
  rw [Field.stored, ← map_field_included, List.map_map]
  rfl

/-- Without its number, a stored entry is its name and its type. -/
theorem unnumbered_eq {fields : List Field} {e : Entry} (he : e ∈ sorted fields) :
    e.unnumbered = ⟨0, { name := e.declared.1, type := e.declared.2 }⟩ := by
  have hincluded : e.field.included = true :=
    (mem_included_iff.mp (mem_sorted_iff.mp he)).2
  unfold unnumbered declared name
  rw [← hincluded]

section Reordered

variable {fs gs : List Field}

theorem map_declared_sorted_perm (h : (Field.stored fs).Perm (Field.stored gs)) :
    ((sorted fs).map declared).Perm ((sorted gs).map declared) := by
  have hsort (fields : List Field) :
      ((sorted fields).map declared).Perm (Field.stored fields) := by
    rw [← map_declared_included]
    exact (sortByName_perm _).map declared
  exact (hsort fs).trans (h.trans (hsort gs).symm)

theorem pairwise_map_declared_sorted (fields : List Field) :
    ((sorted fields).map declared).Pairwise fun x y => Name.le x.1 y.1 :=
  List.pairwise_map.mpr (pairwise_sortByName _)

/-- The sorted names do not depend on the order of the fields, however often a
name occurs. -/
theorem map_name_sorted_congr (h : (Field.stored fs).Perm (Field.stored gs)) :
    (sorted fs).map Entry.name = (sorted gs).map Entry.name := by
  have hperm : ((sorted fs).map Entry.name).Perm ((sorted gs).map Entry.name) := by
    have hfst := (map_declared_sorted_perm h).map Prod.fst
    rw [List.map_map, List.map_map] at hfst
    exact hfst
  have hpairwise (fields : List Field) :
      ((sorted fields).map Entry.name).Pairwise fun a b => Name.le a b = true :=
    List.pairwise_map.mpr (pairwise_sortByName _)
  exact hperm.eq_of_pairwise (fun a b _ _ => Name.le_antisymm) (hpairwise fs) (hpairwise gs)

/-- Nor do the sorted entries, once no name occurs twice. -/
theorem map_unnumbered_sorted_congr (h : (Field.stored fs).Perm (Field.stored gs))
    (hnodup : ((sorted fs).map Entry.name).Nodup) :
    (sorted fs).map unnumbered = (sorted gs).map unnumbered := by
  have hnames : (((sorted fs).map declared).map Prod.fst).Nodup := by
    rw [List.map_map]
    exact hnodup
  have hperm := map_declared_sorted_perm h
  have hdeclared : (sorted fs).map declared = (sorted gs).map declared := by
    refine hperm.eq_of_pairwise ?_ (pairwise_map_declared_sorted fs)
      (pairwise_map_declared_sorted gs)
    intro x y hx hy hxy hyx
    exact List.inj_on_of_nodup_map hnames hx (hperm.mem_iff.mpr hy) (Name.le_antisymm hxy hyx)
  have hbare (fields : List Field) : (sorted fields).map unnumbered =
      ((sorted fields).map declared).map fun x => ⟨0, { name := x.1, type := x.2 }⟩ := by
    rw [List.map_map]
    exact List.map_congr_left fun e he => unnumbered_eq he
  rw [hbare, hbare, hdeclared]

end Reordered

end Entry

namespace Layout

/-- Lists that store the same fields have the same layout up to the numbers of
the fields, or are refused with the same error. -/
theorem arrange_congr {fs gs : List Field} (h : (Field.stored fs).Perm (Field.stored gs))
    (packing : Packing) :
    (arrange fs packing).map unnumbered = (arrange gs packing).map unnumbered := by
  have hcheck : Entry.checkNames (Entry.sorted fs) = Entry.checkNames (Entry.sorted gs) :=
    Entry.checkNames_congr (Entry.map_name_sorted_congr h)
  simp only [arrange_eq_ofSorted]
  cases hfs : Entry.checkNames (Entry.sorted fs) with
  | error e =>
    have hgs := hcheck.symm.trans hfs
    simp only [ofSorted, hfs, hgs]
    rfl
  | ok _ =>
    have hsorted := Entry.map_unnumbered_sorted_congr h (Entry.nodup_names_of_checkNames hfs)
    have hmap := Entry.keeps_unnumbered.ofSorted_map packing
    exact (hmap _).symm.trans ((congrArg (ofSorted packing) hsorted).trans (hmap _))

end Layout

/-! ## Types declared in another way -/

namespace FieldType

/-- The type with an enumeration replaced by what is stored for it.  An
enumeration that cannot be stored keeps only what its error reports. -/
def plain : FieldType → FieldType
  | .enumeration _ underlying =>
    if underlying.isInteger then .scalar underlying else .enumeration "" underlying
  | t => t

theorem isBool_plain (t : FieldType) : t.plain.isBool = t.isBool := by
  cases t with
  | enumeration name underlying =>
    simp only [plain]
    cases underlying <;> rfl
  | _ => rfl

end FieldType

namespace Field

/-- The field with its type in plain form. -/
def plain (f : Field) : Field :=
  { f with type := f.type.plain }

theorem backing_plain (f : Field) : f.plain.backing = f.backing := by
  obtain ⟨name, type, included⟩ := f
  cases type with
  | enumeration n underlying =>
    cases hint : underlying.isInteger <;> simp [plain, FieldType.plain, backing, hint]
  | _ => rfl

/-- Fields that can be stored are told apart no more than their plain forms. -/
theorem Redeclares.plain_eq {f g : Field} (h : f.Redeclares g) {s : Scalar}
    (hs : f.backing = .ok s) : f.plain = g.plain := by
  obtain ⟨name, type, included⟩ := f
  obtain ⟨name', type', included'⟩ := g
  obtain ⟨rfl, rfl, htype⟩ := h
  cases htype with
  | same => rfl
  | renamed => rfl
  | plain n underlying =>
    cases hint : underlying.isInteger with
    | false => simp [backing, hint] at hs
    | true => simp [Field.plain, FieldType.plain, hint]

end Field

namespace Entry

/-- An entry with its type in plain form. -/
def plain (e : Entry) : Entry :=
  { e with field := e.field.plain }

theorem keeps_plain : Keeps plain id :=
  ⟨fun _ => rfl, fun e => e.field.type.isBool_plain, fun e => e.field.backing_plain,
    fun _ _ _ _ _ => rfl⟩

/-- Declaring types in another way changes no entry, if all that is stored has a
backing. -/
theorem map_plain_included_congr {fs gs : List Field}
    (h : List.Forall₂ Field.Redeclares fs gs)
    (hback : ∀ f ∈ fs, f.included → ∃ s, f.backing = .ok s) :
    (included fs).map plain = (included gs).map plain := by
  have hfrom (k : Nat) :
      (((fs.zipIdx k).filter fun x => x.1.included).map fun x => plain ⟨x.2, x.1⟩) =
        ((gs.zipIdx k).filter fun x => x.1.included).map fun x => plain ⟨x.2, x.1⟩ := by
    induction h generalizing k with
    | nil => rfl
    | @cons f g fs gs hfg hrest ih =>
      have htail := ih (fun f' hf' => hback f' (List.mem_cons_of_mem f hf')) (k + 1)
      cases hf : f.included with
      | false =>
        have hg : g.included = false := hfg.included_eq.trans hf
        simpa [List.zipIdx_cons, hf, hg] using htail
      | true =>
        have hg : g.included = true := hfg.included_eq.trans hf
        obtain ⟨s, hs⟩ := hback f List.mem_cons_self hf
        have hplain : plain ⟨k, f⟩ = plain ⟨k, g⟩ := by simp [plain, hfg.plain_eq hs]
        simpa [List.zipIdx_cons, hf, hg, hplain] using htail
  simpa only [included, List.map_map, Function.comp_def] using hfrom 0

end Entry

namespace Layout

/-- A layout stays the same when types are declared in another way. -/
theorem arrange_of_redeclares {fs gs : List Field} {packing : Packing} {l : Layout}
    (h : arrange fs packing = .ok l) (hgs : List.Forall₂ Field.Redeclares fs gs) :
    arrange gs packing = .ok l := by
  have hback : ∀ f ∈ fs, f.included = true → ∃ s, f.backing = .ok s := by
    intro f hf hincluded
    obtain ⟨i, hget⟩ := List.mem_iff_getElem?.mp hf
    obtain ⟨p, _, _, _, hbacking⟩ := exists_placement h hget hincluded
    exact ⟨p.backing, hbacking⟩
  have hincluded := Entry.map_plain_included_congr hgs hback
  have hplain (fields : List Field) : arrange fields packing =
      ofSorted packing (Entry.sortByName ((Entry.included fields).map Entry.plain)) := by
    rw [arrange_eq_ofSorted, Entry.keeps_plain.sortByName_map, Entry.keeps_plain.ofSorted_map]
    show ofSorted packing (Entry.sorted fields) =
      (ofSorted packing (Entry.sorted fields)).map (mapPlacements id)
    cases ofSorted packing (Entry.sorted fields) with
    | error e => rfl
    | ok l => exact congrArg Except.ok l.mapPlacements_id.symm
  rw [hplain, ← hincluded, ← hplain, h]

/-! ## Numbers are not looked at -/

variable {l : Layout} {buffer : Bytes} {offset : Nat}

/-- A write asks for values by place, and a caller that does not look at the
numbers cannot tell them apart. -/
theorem encode?_unnumbered {get : Placement → Except WriteError Value}
    (hget : ∀ p : Placement, get p.unnumbered = get p) :
    l.unnumbered.encode? get buffer offset = l.encode? get buffer offset := by
  have hchecked : checked (m := Id) (fun p => ExceptT.mk (pure (get p))) ∘
      Placement.unnumbered = checked fun p => ExceptT.mk (pure (get p)) := by
    funext p
    simp only [Function.comp_apply, checked, hget]
    rfl
  have hfetch : l.unnumbered.fetch (m := Id) (fun p => ExceptT.mk (pure (get p))) =
      l.fetch fun p => ExceptT.mk (pure (get p)) := by
    simp only [fetch_eq_mapM, placements_unnumbered, List.mapM_map, hchecked]
  have hstore (values : List Value) (window : Bytes) :
      l.unnumbered.storeAll? values window = l.storeAll? values window := by
    simp only [storeAll?, placements_unnumbered, List.zip_map_left, List.foldlM_map]
    rfl
  have hput (values : List Value) :
      l.unnumbered.put? values buffer offset = l.put? values buffer offset := by
    simp only [put?, hstore, totalSize_unnumbered]
  simp only [encode?, encodeM?, hfetch, hput]

theorem decode?_unnumbered :
    l.unnumbered.decode? buffer offset =
      (l.decode? buffer offset).map
        (Except.map (List.map (Prod.map Placement.unnumbered id))) := by
  have hload (window : Bytes) : l.unnumbered.loadAll? window = l.loadAll? window := by
    simp only [loadAll?, placements_unnumbered, List.mapM_map]
    rfl
  cases hwindow : buffer.slice? offset l.totalSize with
  | none => simp [decode?, hwindow, Except.map]
  | some window =>
    simp only [decode?, totalSize_unnumbered, hwindow, hload, placements_unnumbered,
      List.zip_map_left, Option.map_map]
    rfl

end Layout

namespace Schema

variable {s t : Schema} {r : FieldMap} {buffer : Bytes} {offset : Nat}

/-- Schemas whose layouts differ in numbers only write alike. -/
theorem write?_congr (h : s.layout.unnumbered = t.layout.unnumbered) :
    s.write? r buffer offset = t.write? r buffer offset := by
  have hget (p : Placement) : r.fetch p.unnumbered = r.fetch p := rfl
  unfold write?
  rw [← Layout.encode?_unnumbered hget, h, Layout.encode?_unnumbered hget]

theorem encode?_congr (h : s.layout.unnumbered = t.layout.unnumbered) :
    s.encode? r = t.encode? r := by
  have hsize := congrArg Layout.totalSize h
  simp only [Layout.totalSize_unnumbered] at hsize
  simp only [encode?, totalSize, hsize, write?_congr h]

/-- Nor do the numbers show in what is parsed. -/
theorem parse?_congr (h : s.layout.unnumbered = t.layout.unnumbered) :
    s.parse? buffer offset = t.parse? buffer offset := by
  have hfields (fields : List (Placement × Value)) :
      FieldMap.ofFields (fields.map (Prod.map Placement.unnumbered id)) =
        FieldMap.ofFields fields := by
    unfold FieldMap.ofFields
    rw [List.foldl_map]
    rfl
  have hparse (s : Schema) : s.parse? buffer offset =
      (s.layout.unnumbered.decode? buffer offset).map (Except.map FieldMap.ofFields) := by
    rw [Layout.decode?_unnumbered, parse?]
    cases s.layout.decode? buffer offset with
    | none => rfl
    | some result =>
      cases result with
      | error e => rfl
      | ok fields => simp [Except.map, hfields]
  rw [hparse, hparse, h]

end Schema

namespace Layout

/-- Results that agree without the numbers are one error, or layouts that agree. -/
theorem error_or_ok_of_map_unnumbered {x y : Except LayoutError Layout}
    (h : x.map unnumbered = y.map unnumbered) :
    (∃ e, x = .error e ∧ y = .error e) ∨
      ∃ l l', x = .ok l ∧ y = .ok l' ∧ l.unnumbered = l'.unnumbered := by
  cases x with
  | error e =>
    cases y with
    | error e' =>
      obtain rfl : e = e' := Except.error.inj h
      exact .inl ⟨e, rfl, rfl⟩
    | ok l' => exact nomatch h
  | ok l =>
    cases y with
    | error e' => exact nomatch h
    | ok l' => exact .inr ⟨l, l', rfl, rfl, Except.ok.inj h⟩

/-- Neither the order of the fields nor the fields that are left out matter.
Lists that store the same fields are refused with the same error, or have
layouts that differ in the numbers of the fields only, and these write and parse
alike.  Nor does it matter, for a list that has a layout, which of its integers
are enumerations and what these are called. -/
theorem arrange_declaration (packing : Packing) :
    (∀ fs gs, (Field.stored fs).Perm (Field.stored gs) →
      (∃ e, arrange fs packing = .error e ∧ arrange gs packing = .error e) ∨
      ∃ l l', arrange fs packing = .ok l ∧ arrange gs packing = .ok l' ∧
        l.unnumbered = l'.unnumbered ∧
        (∀ r, Schema.encode? ⟨l⟩ r = Schema.encode? ⟨l'⟩ r) ∧
        (∀ r buffer offset,
          Schema.write? ⟨l⟩ r buffer offset = Schema.write? ⟨l'⟩ r buffer offset) ∧
        ∀ buffer offset, Schema.parse? ⟨l⟩ buffer offset = Schema.parse? ⟨l'⟩ buffer offset) ∧
    ∀ fs gs l, arrange fs packing = .ok l → List.Forall₂ Field.Redeclares fs gs →
      arrange gs packing = .ok l := by
  constructor
  · intro fs gs hstored
    rcases error_or_ok_of_map_unnumbered (arrange_congr hstored packing) with
      herror | ⟨l, l', hfs, hgs, hl⟩
    · exact .inl herror
    · exact .inr ⟨l, l', hfs, hgs, hl, fun r => Schema.encode?_congr hl,
        fun r buffer offset => Schema.write?_congr hl,
        fun buffer offset => Schema.parse?_congr hl⟩
  · intro fs gs l
    exact arrange_of_redeclares

/-- An enumeration, a flag and a float. -/
def phaseFields : List Field :=
  [{ name := "phase", type := .enumeration "Phase" .u8 }, { name := "on", type := .scalar .bool },
    { name := "level", type := .scalar .f32 }]

/-- The same fields in another order, between two that are left out. -/
def phaseFieldsReordered : List Field :=
  [{ name := "note", type := .unsupported "String", included := false },
    { name := "level", type := .scalar .f32 }, { name := "phase", type := .enumeration "Phase" .u8 },
    { name := "on", type := .scalar .u16, included := false },
    { name := "on", type := .scalar .bool }]

/-- The same fields with the number of the phase declared as a number. -/
def phaseFieldsPlain : List Field :=
  [{ name := "phase", type := .scalar .u8 }, { name := "on", type := .scalar .bool },
    { name := "level", type := .scalar .f32 }]

def phaseLayout : Layout where
  packing := .dense
  totalSize := 6
  placements :=
    [{ name := "level", index := 2, offset := 0, bit := 0, backing := .f32, size := 4 },
      { name := "phase", index := 0, offset := 4, bit := 0, backing := .u8, size := 1 },
      { name := "on", index := 1, offset := 5, bit := 0, backing := .bool, size := 1 }]

theorem arrange_phaseFields : arrange phaseFields .dense = .ok phaseLayout := by
  decide

/-- The numbers of the fields differ, and nothing else. -/
theorem arrange_declaration_phase :
    (Field.stored phaseFields).Perm (Field.stored phaseFieldsReordered) ∧
      (∃ l, arrange phaseFieldsReordered .dense = .ok l ∧ l ≠ phaseLayout ∧
        ∀ buffer offset,
          Schema.parse? ⟨phaseLayout⟩ buffer offset = Schema.parse? ⟨l⟩ buffer offset) ∧
      List.Forall₂ Field.Redeclares phaseFields phaseFieldsPlain ∧
      arrange phaseFieldsPlain .dense = .ok phaseLayout := by
  obtain ⟨hreordered, hredeclared⟩ := arrange_declaration .dense
  have hstored : (Field.stored phaseFields).Perm (Field.stored phaseFieldsReordered) := by
    decide
  have hplain : List.Forall₂ Field.Redeclares phaseFields phaseFieldsPlain :=
    .cons ⟨rfl, rfl, .plain "Phase" .u8⟩
      (.cons ⟨rfl, rfl, .same _⟩ (.cons ⟨rfl, rfl, .same _⟩ .nil))
  refine ⟨hstored, ?_, hplain, hredeclared _ _ _ arrange_phaseFields hplain⟩
  rcases hreordered _ _ hstored with ⟨e, he, _⟩ | ⟨l, l', hl, hl', _, _, _, hparse⟩
  · exact nomatch arrange_phaseFields.symm.trans he
  · obtain rfl : phaseLayout = l := Except.ok.inj (arrange_phaseFields.symm.trans hl)
    refine ⟨l', hl', ?_, hparse⟩
    rintro rfl
    revert hl'
    decide

end Layout

end FlatRecord
