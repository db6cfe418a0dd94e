import FlatRecord.Proofs.Positions

/-!
# Which lists have a layout

The checks of a layout look at neighbours in a sorted list, and at the scalars
one after the other.  This module says what they find in terms of the list that
was given: an empty name, or else the least name that is used twice, or else the
field of least name whose type cannot be stored.

* `Field.Unstorable` is a type that cannot be stored, with its error, and
  `Field.Rejected` is a list that has no layout, with its error.  Both mention
  neither an order of the fields nor the fields that are left out.
* `Entry.least_of_firstRepeated?` is the reason why neighbours suffice: the first
  two that share a name share the least one that is used twice.
* `Entry.withBacking_eq_error_iff` says that the first error in ascending order is
  that of the least name.
-/

namespace FlatRecord

namespace Name

/-- The first of the names that have a property. -/
def Least (P : String → Prop) (x : String) : Prop :=
  P x ∧ ∀ y, P y → le x y = true

theorem Least.unique {P : String → Prop} {x y : String} (hx : Least P x) (hy : Least P y) :
    x = y :=
  le_antisymm (hx.2 y hy.1) (hy.2 x hx.1)

/-- The name stands at two places of a list or more. -/
def Repeated (names : List String) (name : String) : Prop :=
  2 ≤ names.count name

theorem Repeated.mem {names : List String} {name : String} (h : Repeated names name) :
    name ∈ names :=
  List.count_pos_iff.mp (Nat.lt_of_lt_of_le Nat.zero_lt_two h)

theorem repeated_cons_of_ne {names : List String} {x name : String} (hne : x ≠ name) :
    Repeated (x :: names) name ↔ Repeated names name := by
  rw [Repeated, Repeated, List.count_cons_of_ne hne]

theorem Repeated.cons {names : List String} {name : String} (h : Repeated names name) (x : String) :
    Repeated (x :: names) name :=
  Nat.le_trans h List.count_le_count_cons

theorem not_repeated_of_nodup {names : List String} (h : names.Nodup) (name : String) :
    ¬ Repeated names name :=
  fun hrep => absurd (List.nodup_iff_count_le_one.mp h name) (Nat.not_le_of_lt hrep)

end Name

/-! ## What can be wrong with fields -/

namespace Field

/-- The field has a type that cannot be stored, and this is its error. -/
inductive Unstorable (f : Field) : LayoutError → Prop where
  | unsupported {typeName : String} (htype : f.type = .unsupported typeName) :
      Unstorable f (.unstorable f.name typeName)
  | enumeration {name : String} {underlying : Scalar}
      (htype : f.type = .enumeration name underlying)
      (hunderlying : underlying ∉ [Scalar.i8, .u8, .i16, .u16, .i32, .u32, .i64, .u64]) :
      Unstorable f (.notInteger f.name underlying)

/-- The name belongs to a field that cannot be stored. -/
def NamesUnstorable (stored : List Field) (name : String) : Prop :=
  ∃ f ∈ stored, f.name = name ∧ ∃ e, f.Unstorable e

/-- The fields to be stored have no layout, and this is the error. -/
inductive Rejected (stored : List Field) : LayoutError → Prop where
  | emptyName (hempty : ∃ f ∈ stored, f.name = "") : Rejected stored .emptyName
  | repeatedName {name : String} (hnamed : ∀ f ∈ stored, f.name ≠ "")
      (hleast : Name.Least (Name.Repeated (stored.map Field.name)) name) :
      Rejected stored (.repeatedName name)
  | unstorable {f : Field} {e : LayoutError} (hnamed : ∀ f ∈ stored, f.name ≠ "")
      (hnodup : (stored.map Field.name).Nodup) (hf : f ∈ stored) (he : f.Unstorable e)
      (hleast : Name.Least (NamesUnstorable stored) f.name) : Rejected stored e

/-- A boolean can be stored. -/
theorem Unstorable.not_isBool {f : Field} {e : LayoutError} (h : f.Unstorable e) :
    f.type.isBool = false := by
  cases h with
  | unsupported htype => simp [FieldType.isBool, htype]
  | enumeration htype => simp [FieldType.isBool, htype]

/-- A field has no backing exactly if its type cannot be stored. -/
theorem backing_eq_error_iff {f : Field} {e : LayoutError} :
    f.backing = .error e ↔ f.Unstorable e := by
  have hinteger (s : Scalar) : s.isInteger = true ↔
      s ∈ [Scalar.i8, .u8, .i16, .u16, .i32, .u32, .i64, .u64] := by
    cases s <;> decide
  constructor
  · intro h
    unfold backing at h
    split at h
    · cases h
    · next htype =>
      split at h
      · cases h
      · next hnot =>
        obtain rfl := Except.error.inj h
        exact .enumeration htype (mt (hinteger _).mpr hnot)
    · next htype =>
      obtain rfl := Except.error.inj h
      exact .unsupported htype
  · intro h
    cases h with
    | unsupported htype => simp [backing, htype]
    | enumeration htype hunderlying =>
      simp [backing, htype, mt (hinteger _).mp hunderlying]

end Field

/-! ## What the checks find -/

namespace Entry

variable {es : List Entry}

/-- The name of the first two neighbours that share one is the least that is used
twice. -/
theorem least_of_firstRepeated? (hsorted : es.Pairwise fun a b => Name.le a.name b.name) {e : Entry}
    (h : firstRepeated? es = some e) :
    Name.Least (Name.Repeated (es.map Entry.name)) e.name := by
  fun_induction firstRepeated? es with
  | case1 => cases h
  | case2 => cases h
  | case3 a b rest hab =>
    obtain rfl := Option.some.inj h
    have hrepeated : Name.Repeated ((a :: b :: rest).map Entry.name) a.name := by
      simp [Name.Repeated, hab]
    refine ⟨hrepeated, fun y hy => ?_⟩
    obtain ⟨x, hx, rfl⟩ := List.mem_map.mp hy.mem
    rcases List.mem_cons.mp hx with rfl | hx
    · exact Name.le_refl _
    · exact (List.pairwise_cons.mp hsorted).1 x hx
  | case4 a b rest hab ih =>
    obtain ⟨hrepeated, hleast⟩ := ih (List.pairwise_cons.mp hsorted).2 h
    refine ⟨hrepeated.cons a.name, fun y hy => hleast y ?_⟩
    by_cases hay : a.name = y
    · subst hay
      rw [Name.Repeated, List.map_cons, List.count_cons_self] at hy
      have hmem : a.name ∈ (b :: rest).map Entry.name := List.count_pos_iff.mp (by omega)
      obtain ⟨x, hx, hname⟩ := List.mem_map.mp hmem
      exact absurd hname.symm (head_name_ne hsorted hab x hx)
    · exact (Name.repeated_cons_of_ne hay).mp hy

/-- The check of the names of sorted entries. -/
theorem checkNames_eq_error_iff (hsorted : es.Pairwise fun a b => Name.le a.name b.name)
    {err : LayoutError} :
    checkNames es = .error err ↔
      (err = .emptyName ∧ ∃ e ∈ es, e.name = "") ∨
      ((∀ e ∈ es, e.name ≠ "") ∧ ∃ name, err = .repeatedName name ∧
        Name.Least (Name.Repeated (es.map Entry.name)) name) := by
  by_cases hempty : ∃ e ∈ es, e.name = ""
  · have hany : (es.any fun e => e.name.isEmpty) = true := by
      obtain ⟨e, he, hname⟩ := hempty
      exact List.any_eq_true.mpr ⟨e, he, String.isEmpty_iff.mpr hname⟩
    have hcheck : checkNames es = .error .emptyName := if_pos hany
    rw [hcheck, Except.error.injEq]
    constructor
    · intro h
      exact .inl ⟨h.symm, hempty⟩
    · rintro (⟨rfl, _⟩ | ⟨hnamed, _⟩)
      · rfl
      · obtain ⟨e, he, hname⟩ := hempty
        exact absurd hname (hnamed e he)
  · have hnamed : ∀ e ∈ es, e.name ≠ "" := fun e he hname => hempty ⟨e, he, hname⟩
    have hany : ¬ (es.any fun e => e.name.isEmpty) = true := by
      intro hany
      obtain ⟨e, he, hname⟩ := List.any_eq_true.mp hany
      exact hnamed e he (String.isEmpty_iff.mp hname)
    rw [checkNames, if_neg hany]
    cases hrep : firstRepeated? es with
    | none =>
      have hnodup : (es.map Entry.name).Nodup :=
        List.pairwise_map.mpr (pairwise_name_ne hsorted hrep)
      constructor
      · intro h
        cases h
      · rintro (⟨_, he⟩ | ⟨_, name, _, hleast⟩)
        · exact absurd he hempty
        · exact absurd hleast.1 (Name.not_repeated_of_nodup hnodup name)
    | some e =>
      have hleast := least_of_firstRepeated? hsorted hrep
      constructor
      · intro h
        exact .inr ⟨hnamed, e.name, (Except.error.inj h).symm, hleast⟩
      · rintro (⟨_, he⟩ | ⟨_, name, rfl, hname⟩)
        · exact absurd he hempty
        · show Except.error (LayoutError.repeatedName e.name) = _
          rw [hleast.unique hname]

/-- Of entries in ascending order, the first that cannot be stored has the least
name of all that cannot. -/
theorem withBacking_eq_error_iff (hascending : es.Pairwise fun a b => Name.Before a.name b.name)
    {err : LayoutError} :
    withBacking es = .error err ↔ ∃ e ∈ es, e.field.Unstorable err ∧
      ∀ e' ∈ es, ∀ err', e'.field.Unstorable err' → Name.le e.name e'.name = true := by
  induction es with
  | nil => simp [withBacking]
  | cons a es ih =>
    obtain ⟨ha, hrest⟩ := List.pairwise_cons.mp hascending
    cases hback : a.field.backing with
    | error e =>
      have hunstorable : a.field.Unstorable e := Field.backing_eq_error_iff.mp hback
      have hresult : withBacking (a :: es) = .error e := by
        rw [withBacking, hback]
        rfl
      rw [hresult, Except.error.injEq]
      constructor
      · rintro rfl
        refine ⟨a, List.mem_cons_self, hunstorable, fun e' he' _ _ => ?_⟩
        rcases List.mem_cons.mp he' with rfl | he'
        · exact Name.le_refl _
        · exact (ha e' he').le
      · rintro ⟨x, hx, hxerr, hleast⟩
        rcases List.mem_cons.mp hx with rfl | hx
        · exact Except.error.inj (hback.symm.trans (Field.backing_eq_error_iff.mpr hxerr))
        · have hle := hleast a List.mem_cons_self e hunstorable
          exact absurd hle (Name.before_iff_not_le.mp (ha x hx))
    | ok s =>
      have hstorable (err' : LayoutError) : ¬ a.field.Unstorable err' := by
        rw [← Field.backing_eq_error_iff, hback]
        intro h
        cases h
      have hresult : withBacking (a :: es) = .error err ↔ withBacking es = .error err := by
        rw [withBacking, hback]
        cases withBacking es with
        | error e => rfl
        | ok rest =>
          constructor
          · intro h
            cases h
          · intro h
            cases h
      rw [hresult, ih hrest]
      simp [hstorable]

theorem exists_sorted_iff {fields : List Field} {P : Field → Prop} :
    (∃ e ∈ sorted fields, P e.field) ↔ ∃ f ∈ fields.filter Field.included, P f := by
  simp only [← (map_field_sorted_perm fields).mem_iff, List.mem_map, exists_exists_and_eq_and]

theorem checkNames_sorted_eq_error_iff {fields : List Field} {err : LayoutError} :
    checkNames (sorted fields) = .error err ↔
      (err = .emptyName ∧ ∃ f ∈ fields.filter Field.included, f.name = "") ∨
      ((∀ f ∈ fields.filter Field.included, f.name ≠ "") ∧ ∃ name, err = .repeatedName name ∧
        Name.Least (Name.Repeated ((fields.filter Field.included).map Field.name)) name) := by
  have hempty : (∃ e ∈ sorted fields, e.name = "") ↔
      ∃ f ∈ fields.filter Field.included, f.name = "" :=
    exists_sorted_iff (P := fun f => f.name = "")
  have hnamed : (∀ e ∈ sorted fields, e.name ≠ "") ↔
      ∀ f ∈ fields.filter Field.included, f.name ≠ "" :=
    forall_sorted_iff (P := fun f => f.name ≠ "")
  have hrepeated : Name.Repeated ((sorted fields).map Entry.name) =
      Name.Repeated ((fields.filter Field.included).map Field.name) := by
    funext name
    rw [Name.Repeated, (map_name_sorted_perm fields).count_eq]
    rfl
  have hsorted : (sorted fields).Pairwise fun a b => Name.le a.name b.name := pairwise_sortByName _
  rw [checkNames_eq_error_iff hsorted, hempty, hnamed, hrepeated]

end Entry

namespace Layout

variable {fields : List Field} {packing : Packing}

/-- There is no layout if a check of the names fails, or if they pass and a scalar
has no backing. -/
theorem arrange_eq_error_iff {err : LayoutError} :
    arrange fields packing = .error err ↔
      Entry.checkNames (Entry.sorted fields) = .error err ∨
        (Entry.checkNames (Entry.sorted fields) = .ok () ∧
          Entry.withBacking (Entry.others fields) = .error err) := by
  rw [arrange_eq]
  cases Entry.checkNames (Entry.sorted fields) with
  | error e => simp [bind, Except.bind]
  | ok _ =>
    cases Entry.withBacking (Entry.others fields) with
    | error e => simp [bind, Except.bind]
    | ok scalars => simp [bind, Except.bind, pure, Except.pure]

/-- The scalars are refused for the stored field of least name that cannot be
stored. -/
theorem withBacking_others_eq_error_iff {err : LayoutError}
    (hcheck : Entry.checkNames (Entry.sorted fields) = .ok ()) :
    Entry.withBacking (Entry.others fields) = .error err ↔
      ∃ f ∈ fields.filter Field.included, f.Unstorable err ∧
        Name.Least (Field.NamesUnstorable (fields.filter Field.included)) f.name := by
  have hascending : (Entry.others fields).Pairwise fun a b => Name.Before a.name b.name :=
    (Entry.pairwise_before_of_checkNames hcheck).filter _
  have hmem {f : Field} : f ∈ fields.filter Field.included ↔
      ∃ e ∈ Entry.sorted fields, e.field = f := by
    rw [← (Entry.map_field_sorted_perm fields).mem_iff, List.mem_map]
  have hother {e : Entry} {err : LayoutError} (he : e ∈ Entry.sorted fields)
      (herr : e.field.Unstorable err) : e ∈ Entry.others fields :=
    List.mem_filter.mpr ⟨he, by simp [herr.not_isBool]⟩
  rw [Entry.withBacking_eq_error_iff hascending]
  constructor
  · rintro ⟨e, he, herr, hleast⟩
    have hf := hmem.mpr ⟨e, (List.mem_filter.mp he).1, rfl⟩
    refine ⟨e.field, hf, herr, ⟨e.field, hf, rfl, err, herr⟩, ?_⟩
    rintro y ⟨g, hg, rfl, err', hgerr⟩
    obtain ⟨e', he', rfl⟩ := hmem.mp hg
    exact hleast e' (hother he' hgerr) err' hgerr
  · rintro ⟨f, hf, herr, _, hleast⟩
    obtain ⟨e, he, rfl⟩ := hmem.mp hf
    refine ⟨e, hother he herr, herr, fun e' he' err' herr' => ?_⟩
    have hg := hmem.mpr ⟨e', (List.mem_filter.mp he').1, rfl⟩
    exact hleast e'.name ⟨e'.field, hg, rfl, err', herr'⟩

/-- A list has no layout exactly if its stored fields are rejected. -/
theorem arrange_eq_error_iff_rejected {err : LayoutError} :
    arrange fields packing = .error err ↔
      Field.Rejected (fields.filter Field.included) err := by
  rw [arrange_eq_error_iff, Entry.checkNames_sorted_eq_error_iff]
  constructor
  · rintro ((⟨rfl, h⟩ | ⟨h, name, rfl, hleast⟩) | ⟨hcheck, hback⟩)
    · exact .emptyName h
    · exact .repeatedName h hleast
    · obtain ⟨hnamed, hnodup⟩ := Entry.checkNames_sorted_eq_ok_iff.mp hcheck
      obtain ⟨f, hf, herr, hleast⟩ := (withBacking_others_eq_error_iff hcheck).mp hback
      exact .unstorable hnamed hnodup hf herr hleast
  · intro h
    cases h with
    | emptyName h => exact .inl (.inl ⟨rfl, h⟩)
    | repeatedName hnamed hleast => exact .inl (.inr ⟨hnamed, _, rfl, hleast⟩)
    | unstorable hnamed hnodup hf herr hleast =>
      have hcheck := Entry.checkNames_sorted_eq_ok_iff.mpr ⟨hnamed, hnodup⟩
      exact .inr ⟨hcheck, (withBacking_others_eq_error_iff hcheck).mpr ⟨_, hf, herr, hleast⟩⟩

/-- A list has a layout exactly if its stored fields have names, different ones, and
types that can be stored. -/
theorem exists_arrange_iff :
    (∃ l, arrange fields packing = .ok l) ↔
      (∀ f ∈ fields.filter Field.included, f.name ≠ "") ∧
        ((fields.filter Field.included).map Field.name).Nodup ∧
        ∀ f ∈ fields.filter Field.included, ∀ e, ¬ f.Unstorable e := by
  constructor
  · rintro ⟨l, hl⟩
    obtain ⟨hcheck, _⟩ := arrange_eq_ok_iff.mp hl
    obtain ⟨hnamed, hnodup⟩ := Entry.checkNames_sorted_eq_ok_iff.mp hcheck
    refine ⟨hnamed, hnodup, fun f hf e he => ?_⟩
    obtain ⟨hmem, hincluded⟩ := List.mem_filter.mp hf
    obtain ⟨i, hi⟩ := List.mem_iff_getElem?.mp hmem
    obtain ⟨p, _, _, _, hback⟩ := exists_placement hl hi hincluded
    exact nomatch hback.symm.trans (Field.backing_eq_error_iff.mpr he)
  · rintro ⟨hnamed, hnodup, hstorable⟩
    have hmem {f : Field} (hf : f ∈ fields) (hincluded : f.included = true) :
        f ∈ fields.filter Field.included := List.mem_filter.mpr ⟨hf, hincluded⟩
    refine exists_arrange packing (fun f hf hincluded => hnamed f (hmem hf hincluded)) hnodup
      fun f hf hincluded => ?_
    cases hback : f.backing with
    | ok s => exact ⟨s, rfl⟩
    | error e =>
      exact absurd (Field.backing_eq_error_iff.mp hback)
        (hstorable f (hmem hf hincluded) e)

/-- When a list has no layout, and with which error: for an empty name among the
stored fields; or else for the least name that two of them share; or else for the
field of least name among those whose type cannot be stored.  Otherwise it has a
layout.  Fields that are left out change nothing of this. -/
theorem rejected_exactly (fields : List Field) (packing : Packing) :
    (∀ err, arrange fields packing = .error err ↔
      Field.Rejected (fields.filter Field.included) err) ∧
    ((∃ l, arrange fields packing = .ok l) ↔
      (∀ f ∈ fields.filter Field.included, f.name ≠ "") ∧
        ((fields.filter Field.included).map Field.name).Nodup ∧
        ∀ f ∈ fields.filter Field.included, ∀ e, ¬ f.Unstorable e) ∧
    ∀ others, others.filter Field.included = fields.filter Field.included →
      ∀ err, arrange others packing = .error err ↔ arrange fields packing = .error err := by
  refine ⟨fun err => arrange_eq_error_iff_rejected, exists_arrange_iff, ?_⟩
  intro others hothers err
  rw [arrange_eq_error_iff_rejected, arrange_eq_error_iff_rejected, hothers]

/-- Two names used twice, two types that cannot be stored, and an empty name that is
left out. -/
def draftFields : List Field :=
  [{ name := "", type := .unsupported "Note", included := false },
    { name := "tag", type := .unsupported "String" },
    { name := "kind", type := .enumeration "Kind" .bool },
    { name := "speed", type := .scalar .u16 }, { name := "on", type := .scalar .bool },
    { name := "speed", type := .scalar .f32 }, { name := "on", type := .scalar .u8 }]

/-- The least repeated name is reported, and once the names differ the least name of
the two types that cannot be stored.  The field that is left out can be dropped. -/
theorem rejected_exactly_draft :
    Field.Rejected (draftFields.filter Field.included) (.repeatedName "on") ∧
      Field.Rejected ((draftFields.take 5).filter Field.included) (.notInteger "kind" .bool) ∧
      (draftFields.drop 1).filter Field.included = draftFields.filter Field.included ∧
      arrange (draftFields.drop 1) .dense = .error (.repeatedName "on") := by
  obtain ⟨hrejected, _, hleft⟩ := rejected_exactly draftFields .dense
  obtain ⟨hfive, _⟩ := rejected_exactly (draftFields.take 5) .dense
  have hon : arrange draftFields .dense = .error (.repeatedName "on") := by decide
  have hkind : arrange (draftFields.take 5) .dense = .error (.notInteger "kind" .bool) := by decide
  have hdrop : (draftFields.drop 1).filter Field.included = draftFields.filter Field.included := by
    decide
  exact ⟨(hrejected _).mp hon, (hfive _).mp hkind, hdrop, (hleft _ hdrop _).mpr hon⟩

end Layout

end FlatRecord
