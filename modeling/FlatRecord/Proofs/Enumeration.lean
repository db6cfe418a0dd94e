import FlatRecord.Proofs.Cells

/-!
# Numbers and members

An enumeration reads every number of its type, and a number is stored for each
of its members.  This module says which member a number is read as, and which
members come back when they are stored and read.

* A number is that of a first variant (`IsFirst`) or has no variant (`Unnamed`).
  `ofRaw_eq_declared_iff` and `ofRaw_eq_unknown_iff` say that the reader tells
  the two apart, and `exists_isFirst_le` finds the first variant with the number
  of a given one.
* `Member.ComesBack` names the members that are read as themselves
  (`ofRaw_toRaw_eq_iff`).  A variant does not come back if one before it has its
  number.
* `forall_isFirst_iff` is the condition on the declaration: all variants come
  back if their numbers differ.  Nothing asks this of a declaration, and
  `secondForOne` is a variant of one in which they do not.
-/

namespace FlatRecord

namespace Enumeration

variable {e : Enumeration} {raw : Value.Of e.repr} {i : Fin e.variants.length}

/-! ## First variants and numbers without a variant -/

/-- Variant `i` has the number, and no variant before it has. -/
structure IsFirst (e : Enumeration) (raw : Value.Of e.repr) (i : Fin e.variants.length) :
    Prop where
  raw_eq : (e.variants.get i).raw = raw
  raw_ne_of_lt : ∀ j < i, (e.variants.get j).raw ≠ raw

/-- No variant has the number. -/
def Unnamed (e : Enumeration) (raw : Value.Of e.repr) : Prop :=
  ∀ i : Fin e.variants.length, (e.variants.get i).raw ≠ raw

namespace Member

theorem ofRaw_eq_declared_iff : ofRaw e raw = declared i ↔ e.IsFirst raw i := by
  have hfirst : (e.variants.findFinIdx? fun v => v.raw = raw) = some i ↔ e.IsFirst raw i := by
    rw [List.findFinIdx?_eq_some_iff]
    simp only [decide_eq_true_eq]
    constructor
    · intro h
      exact ⟨h.1, h.2⟩
    · intro h
      exact ⟨h.raw_eq, h.raw_ne_of_lt⟩
  rw [← hfirst, ofRaw]
  cases e.variants.findFinIdx? fun v => v.raw = raw with
  | none => simp
  | some j => simp

theorem ofRaw_eq_unknown_iff {number : Value.Of e.repr} :
    ofRaw e raw = unknown number ↔ number = raw ∧ e.Unnamed raw := by
  have hnone : (e.variants.findFinIdx? fun v => v.raw = raw) = none ↔ e.Unnamed raw := by
    rw [List.findFinIdx?_eq_none_iff]
    simp only [decide_eq_true_eq]
    constructor
    · intro h i
      exact h _ (List.getElem_mem i.isLt)
    · intro h v hv
      obtain ⟨i, hi, hget⟩ := List.getElem_of_mem hv
      exact hget ▸ h ⟨i, hi⟩
  rw [← hnone, ofRaw]
  cases e.variants.findFinIdx? fun v => v.raw = raw with
  | none => simp [eq_comm]
  | some j => simp

end Member

/-- Some variant is the first with the number of variant `i`, and it is not
behind `i`. -/
theorem exists_isFirst_le (i : Fin e.variants.length) :
    ∃ j ≤ i, e.IsFirst (e.variants.get i).raw j := by
  cases hread : Member.ofRaw e (e.variants.get i).raw with
  | declared j =>
    have hfirst := Member.ofRaw_eq_declared_iff.mp hread
    refine ⟨j, ?_, hfirst⟩
    apply Fin.not_lt.mp
    intro hlt
    exact hfirst.raw_ne_of_lt i hlt rfl
  | unknown number =>
    have hunnamed := (Member.ofRaw_eq_unknown_iff.mp hread).2
    exact absurd rfl (hunnamed i)

/-- Every variant is the first with its number if no two share one. -/
theorem forall_isFirst_iff :
    (∀ i, e.IsFirst (e.variants.get i).raw i) ↔ (e.variants.map Variant.raw).Nodup := by
  rw [List.nodup_iff_pairwise_ne, List.pairwise_map, List.pairwise_iff_getElem]
  constructor
  · intro hfirst j i hj hi hlt
    exact (hfirst ⟨i, hi⟩).raw_ne_of_lt ⟨j, hj⟩ hlt
  · intro hne i
    refine ⟨rfl, ?_⟩
    intro j hlt
    exact hne j i j.isLt i.isLt hlt

/-! ## Members that come back -/

namespace Member

/-- The member is read from its own number. -/
def ComesBack : e.Member → Prop
  | declared i => e.IsFirst (e.variants.get i).raw i
  | unknown raw => e.Unnamed raw

/-- A declared variant, or a member that was read from a number.  There are no
others in a program that leaves the making of unknown members to the reader. -/
def Arises (m : e.Member) : Prop :=
  (∃ i, m = declared i) ∨ ∃ raw, m = ofRaw e raw

theorem ofRaw_toRaw_eq_iff {m : e.Member} : ofRaw e m.toRaw = m ↔ m.ComesBack := by
  cases m with
  | declared i => exact ofRaw_eq_declared_iff
  | unknown raw =>
    show ofRaw e raw = unknown raw ↔ e.Unnamed raw
    rw [ofRaw_eq_unknown_iff]
    exact and_iff_right rfl

theorem ofValue?_toValue (m : e.Member) : ofValue? e m.toValue = some (ofRaw e m.toRaw) :=
  CellType.ofValue?_toValue (t := .enumeration e) m

/-- A value is stored again as it was, and not read at all if it has another
type. -/
theorem map_toValue_ofValue? (e : Enumeration) (v : Value) :
    (ofValue? e v).map toValue = if v.scalar = e.repr then some v else none := by
  by_cases hv : v.scalar = e.repr
  · obtain ⟨m, hread, hstored⟩ := CellType.exists_ofValue? (t := .enumeration e) hv
    have hm : ofValue? e v = some m := hread
    rw [if_pos hv, hm]
    exact congrArg some hstored
  · rw [if_neg hv, ofValue?, Value.as?, dif_neg hv]
    rfl

theorem ofValue?_eq_none_iff {v : Value} : ofValue? e v = none ↔ v.scalar ≠ e.repr := by
  rw [← Option.map_eq_none_iff (f := toValue), map_toValue_ofValue?]
  simp

end Member

/-- Reading sorts the numbers of the type: each is read as the first variant that
has it, or else as unknown, and none is lost.  A value is read exactly if it has the
type of the enumeration, and is then stored again as it was.  A member that is
stored and read settles at once, and the members that stay as they are are the
first variants and the unknown numbers that no variant has. -/
theorem ofRaw_classifies (e : Enumeration) :
    (∀ raw, (∀ i, Member.ofRaw e raw = .declared i ↔ e.IsFirst raw i) ∧
        (∀ number, Member.ofRaw e raw = .unknown number ↔ number = raw ∧ e.Unnamed raw) ∧
        (Member.ofRaw e raw).toRaw = raw) ∧
      (∀ v, (Member.ofValue? e v = none ↔ v.scalar ≠ e.repr) ∧
        (Member.ofValue? e v).map Member.toValue = if v.scalar = e.repr then some v else none) ∧
      ∀ m : e.Member,
        Member.ofRaw e (Member.ofRaw e m.toRaw).toRaw = Member.ofRaw e m.toRaw ∧
          (Member.ofRaw e m.toRaw = m ↔ m.ComesBack) := by
  refine ⟨?_, ?_, ?_⟩
  · intro raw
    exact ⟨fun _ => Member.ofRaw_eq_declared_iff, fun _ => Member.ofRaw_eq_unknown_iff,
      Member.toRaw_ofRaw e raw⟩
  · intro v
    exact ⟨Member.ofValue?_eq_none_iff, Member.map_toValue_ofValue? e v⟩
  · intro m
    rw [Member.toRaw_ofRaw]
    exact ⟨rfl, Member.ofRaw_toRaw_eq_iff⟩

/-! ## Variants that share a number -/

/-- A variant comes back as the first with its number, and a member that was read
comes back as itself.  So all members that arise come back exactly if the numbers
of the variants differ. -/
theorem ofValue?_toValue_of_arises (e : Enumeration) :
    (∀ i : Fin e.variants.length, ∃ j ≤ i, e.IsFirst (e.variants.get i).raw j ∧
        Member.ofValue? e (Member.declared i).toValue = some (.declared j)) ∧
      (∀ raw, Member.ofValue? e (Member.ofRaw e raw).toValue = some (Member.ofRaw e raw)) ∧
      ((∀ m : e.Member, m.Arises → Member.ofValue? e m.toValue = some m) ↔
        (e.variants.map Variant.raw).Nodup) := by
  have hdeclared : ∀ i : Fin e.variants.length, ∃ j ≤ i, e.IsFirst (e.variants.get i).raw j ∧
      Member.ofValue? e (Member.declared i).toValue = some (.declared j) := by
    intro i
    obtain ⟨j, hle, hfirst⟩ := exists_isFirst_le i
    refine ⟨j, hle, hfirst, ?_⟩
    rw [Member.ofValue?_toValue]
    exact congrArg some (Member.ofRaw_eq_declared_iff.mpr hfirst)
  have hread : ∀ raw,
      Member.ofValue? e (Member.ofRaw e raw).toValue = some (Member.ofRaw e raw) := by
    intro raw
    rw [Member.ofValue?_toValue, Member.toRaw_ofRaw]
  refine ⟨hdeclared, hread, ?_⟩
  rw [← forall_isFirst_iff]
  constructor
  · intro hall i
    have hback := hall (.declared i) (.inl ⟨i, rfl⟩)
    rw [Member.ofValue?_toValue] at hback
    exact Member.ofRaw_eq_declared_iff.mp (Option.some.inj hback)
  · intro hfirst m harises
    cases harises with
    | inl hm =>
      obtain ⟨i, rfl⟩ := hm
      rw [Member.ofValue?_toValue]
      exact congrArg some (Member.ofRaw_eq_declared_iff.mpr (hfirst i))
    | inr hm =>
      obtain ⟨raw, rfl⟩ := hm
      exact hread raw

/-- An enumeration of bytes with two names for the number 1. -/
def twoNamesForOne : Enumeration :=
  ofNumbers "Alias" .u8 [("A", 1), ("B", 1), ("C", 2)] rfl (by simp)

/-- Its variant B. -/
def secondForOne : twoNamesForOne.Member :=
  .declared ⟨1, by decide⟩

/-- The second name for 1 comes back as the first. -/
theorem not_comes_back_secondForOne :
    Member.ofValue? twoNamesForOne secondForOne.toValue = some (Member.first twoNamesForOne) ∧
      ¬ ∀ (e : Enumeration) (m : e.Member), m.Arises → Member.ofValue? e m.toValue = some m := by
  have hback : Member.ofValue? twoNamesForOne secondForOne.toValue =
      some (Member.first twoNamesForOne) := by decide
  refine ⟨hback, ?_⟩
  intro hall
  have hself := hall twoNamesForOne secondForOne (.inl ⟨_, rfl⟩)
  rw [hback] at hself
  exact absurd hself (by decide)

end Enumeration

end FlatRecord
