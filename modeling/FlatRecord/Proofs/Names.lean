import FlatRecord.Layout.Arrange
import Mathlib.Data.List.Perm.Basic

/-!
# Names are told apart

The order of names identifies no two of them (`Name.le_antisymm`); `Name.Before` is
its strict form.  Entries that are sorted by name and pass the check of neighbours
have pairwise distinct names (`Entry.pairwise_name_ne`).
`Entry.nodup_names_of_checkNames` and `Entry.pairwise_before_of_checkNames` state it
for the entries that a layout is made from.
-/

namespace FlatRecord

namespace Name

/-- Different names have different UTF-8 bytes. -/
theorem utf8_injective {a b : String} (h : utf8 a = utf8 b) : a = b := by
  apply String.toByteArray_inj.mp
  rw [← String.utf8Encode_toList, ← String.utf8Encode_toList]
  exact List.toByteArray_inj.mpr h

theorem le_antisymm {a b : String} (hab : le a b = true) (hba : le b a = true) : a = b := by
  have heq : Ord.compare (utf8 a) (utf8 b) = .eq := Std.OrientedCmp.isLE_antisymm hab hba
  exact utf8_injective (Std.LawfulEqOrd.eq_of_compare heq)

/-! ## The strict order -/

/-- The UTF-8 bytes of `a` are smaller than those of `b`. -/
def Before (a b : String) : Prop :=
  compare a b = .lt

instance (a b : String) : Decidable (Before a b) :=
  inferInstanceAs (Decidable (compare a b = .lt))

variable {a b : String}

/-- The order is total: `a` is before `b` unless `b` is at most `a`. -/
theorem before_iff_not_le : Before a b ↔ ¬ le b a = true := by
  have hswap : compare b a = (compare a b).swap := Std.OrientedOrd.eq_swap
  rw [Before, le, hswap]
  cases compare a b <;> decide

theorem le_refl (a : String) : le a a = true := by
  have hle := le_total a a
  rwa [Bool.or_self] at hle

theorem not_before_self (a : String) : ¬ Before a a := by
  rw [before_iff_not_le, not_not]
  exact le_refl a

theorem Before.le (h : Before a b) : le a b = true := by
  rw [Name.le, show compare a b = .lt from h]
  rfl

theorem Before.not_before (h : Before a b) : ¬ Before b a := by
  rw [before_iff_not_le, not_not]
  exact h.le

theorem before_of_le_of_ne (hle : Name.le a b = true) (hne : a ≠ b) : Before a b := by
  rw [before_iff_not_le]
  exact fun hba => hne (le_antisymm hle hba)

end Name

namespace Entry

/-- In sorted entries, an entry between two of one name shares it.  So if the first
name is not the second, it does not come again. -/
theorem head_name_ne {a b : Entry} {rest : List Entry}
    (hsorted : (a :: b :: rest).Pairwise fun a b => Name.le a.name b.name) (hab : a.name ≠ b.name) :
    ∀ x ∈ b :: rest, a.name ≠ x.name := by
  intro x hx hax
  obtain ⟨ha, hrest⟩ := List.pairwise_cons.mp hsorted
  have hle : Name.le a.name b.name = true := ha b List.mem_cons_self
  rcases List.mem_cons.mp hx with rfl | hx
  · exact hab hax
  · have hbx : Name.le b.name x.name = true := (List.pairwise_cons.mp hrest).1 x hx
    exact hab (Name.le_antisymm hle (hax ▸ hbx))

/-- Sorted entries of which no two neighbours share a name have pairwise
distinct names. -/
theorem pairwise_name_ne {es : List Entry}
    (hsorted : es.Pairwise fun a b => Name.le a.name b.name)
    (hnone : firstRepeated? es = none) : es.Pairwise fun a b => a.name ≠ b.name := by
  induction es with
  | nil => exact List.Pairwise.nil
  | cons a rest ih =>
    cases rest with
    | nil => exact List.pairwise_singleton _ _
    | cons b rest =>
      simp only [firstRepeated?] at hnone
      split at hnone
      · exact nomatch hnone
      · next hab =>
        have hrest := ih (List.pairwise_cons.mp hsorted).2 hnone
        exact List.pairwise_cons.mpr ⟨head_name_ne hsorted hab, hrest⟩

/-- Names that pass the check are not empty, and no two neighbours share one. -/
theorem checkNames_eq_ok_iff {es : List Entry} :
    checkNames es = .ok () ↔ (∀ e ∈ es, e.name ≠ "") ∧ firstRepeated? es = none := by
  simp only [checkNames]
  split
  · next hany =>
    obtain ⟨e, he, hempty⟩ := List.any_eq_true.mp hany
    constructor
    · exact fun h => nomatch h
    · exact fun h => absurd (String.isEmpty_iff.mp hempty) (h.1 e he)
  · next hany =>
    have hne : ∀ e ∈ es, e.name ≠ "" := fun e he hname => by
      exact hany (List.any_eq_true.mpr ⟨e, he, String.isEmpty_iff.mpr hname⟩)
    cases hrep : firstRepeated? es with
    | none => simpa using hne
    | some e => simp

/-- The names of checked entries are distinct. -/
theorem nodup_names_of_checkNames {es : List Entry} (h : checkNames (sortByName es) = .ok ()) :
    ((sortByName es).map Entry.name).Nodup :=
  List.pairwise_map.mpr
    (pairwise_name_ne (pairwise_sortByName es) (checkNames_eq_ok_iff.mp h).2)

/-- Checked entries are in strictly ascending order. -/
theorem pairwise_before_of_checkNames {es : List Entry} (h : checkNames (sortByName es) = .ok ()) :
    (sortByName es).Pairwise fun a b => Name.Before a.name b.name :=
  ((pairwise_sortByName es).and (List.pairwise_map.mp (nodup_names_of_checkNames h))).imp
    fun hab => Name.before_of_le_of_ne hab.1 hab.2

end Entry

end FlatRecord
