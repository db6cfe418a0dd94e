import FlatRecord.Record.Declared

/-!
# Cells and the values they hold

A field of a declared record holds a datum of its own type, and goes through the
values of its backing to be stored.  On the way back an enumeration reads a
number as the first variant that has it, so a datum need not come back as it
was.  It comes back in its canonical form.

* `CellType.canonical` is that form, and `ofValue?_toValue` says that it is what
  the stored value is read as.  `canonical_eq_of_isCanonical` says which data are
  their own.
* `Cells.Holds` is the meaning of a cell: it is what the value at its position is
  read as.  `holds_set` and `holds_set_of_ne` are the laws of a store, and
  `eq_of_holds` says that cells are known from the values that they hold.
-/

namespace FlatRecord

/-! ## Members of enumerations -/

namespace Enumeration.Member

variable {e : Enumeration}

/-- No number is lost. -/
theorem toRaw_ofRaw (e : Enumeration) (raw : Value.Of e.repr) : (ofRaw e raw).toRaw = raw := by
  unfold ofRaw
  split
  · next i hi =>
    have hraw := (List.findFinIdx?_eq_some_iff.mp hi).1
    exact of_decide_eq_true hraw
  · rfl

/-- A member that was read from a number, or the first variant that has its
number. -/
def IsCanonical (m : e.Member) : Prop :=
  (∃ raw, m = ofRaw e raw) ∨
    ∃ i : Fin e.variants.length, m = declared i ∧ ∀ j < i, toRaw (declared j) ≠ toRaw m

/-- The number of a variant is read as the variant, if none before has it. -/
theorem ofRaw_toRaw_of_first {i : Fin e.variants.length}
    (hfirst : ∀ j < i, toRaw (declared j) ≠ toRaw (declared i)) :
    ofRaw e (toRaw (declared i)) = declared i := by
  unfold ofRaw
  have hfind : (e.variants.findFinIdx? fun v => v.raw = toRaw (declared i)) = some i := by
    refine List.findFinIdx?_eq_some_iff.mpr ⟨decide_eq_true rfl, fun j hj => ?_⟩
    exact fun heq => hfirst j hj (of_decide_eq_true heq)
  rw [hfind]

theorem ofRaw_toRaw_of_isCanonical {m : e.Member} (h : m.IsCanonical) :
    ofRaw e m.toRaw = m := by
  rcases h with ⟨raw, rfl⟩ | ⟨i, rfl, hfirst⟩
  · rw [toRaw_ofRaw]
  · exact ofRaw_toRaw_of_first hfirst

end Enumeration.Member

/-! ## Cells -/

namespace CellType

/-- What a datum is read as after it was stored. -/
def canonical : (t : CellType) → t.Carrier → t.Carrier
  | scalar _, v => v
  | enumeration e, m => Enumeration.Member.ofRaw e (Enumeration.Member.toRaw m)

/-- Every scalar is canonical. -/
def IsCanonical : (t : CellType) → t.Carrier → Prop
  | scalar _, _ => True
  | enumeration _, m => Enumeration.Member.IsCanonical m

variable {t : CellType}

theorem canonical_eq_of_isCanonical {c : t.Carrier} (h : t.IsCanonical c) :
    t.canonical c = c := by
  cases t with
  | scalar s => rfl
  | enumeration e => exact Enumeration.Member.ofRaw_toRaw_of_isCanonical h

/-- A datum is stored as a value of the backing. -/
theorem scalar_toValue (c : t.Carrier) : (t.toValue c).scalar = t.backing := by
  cases t with
  | scalar s => exact Subtype.property c
  | enumeration e => exact Subtype.property (Enumeration.Member.toRaw c)

theorem as?_val {s : Scalar} (v : Value.Of s) : v.val.as? s = some v :=
  dif_pos v.property

theorem ofValue?_toValue (c : t.Carrier) : t.ofValue? (t.toValue c) = some (t.canonical c) := by
  cases t with
  | scalar s => exact as?_val c
  | enumeration e =>
    show ((Enumeration.Member.toRaw c).val.as? e.repr).map _ = _
    rw [as?_val]
    rfl

/-- Every value of the backing is read, and stored again as the same value. -/
theorem exists_ofValue? {v : Value} (hv : v.scalar = t.backing) :
    ∃ c, t.ofValue? v = some c ∧ t.toValue c = v := by
  cases t with
  | scalar s => exact ⟨⟨v, hv⟩, dif_pos hv, rfl⟩
  | enumeration e =>
    obtain ⟨raw, rfl⟩ : ∃ raw : Value.Of e.repr, raw.val = v := ⟨⟨v, hv⟩, rfl⟩
    refine ⟨Enumeration.Member.ofRaw e raw, ?_, ?_⟩
    · show (raw.val.as? e.repr).map _ = _
      rw [as?_val]
      rfl
    · exact congrArg Subtype.val (Enumeration.Member.toRaw_ofRaw e raw)

/-- The declared type of a cell is stored as its backing. -/
theorem backing_declared (name : String) (t : CellType) :
    Field.backing { name := name, type := t.declared } = .ok t.backing := by
  cases t with
  | scalar s => rfl
  | enumeration e => exact if_pos e.repr_isInteger

end CellType

namespace Cells

/-- Every cell in its canonical form. -/
def canonical : (ts : List CellType) → Cells ts → Cells ts
  | [], cs => cs
  | t :: ts, (c, cs) => (t.canonical c, canonical ts cs)

/-- Every cell is in its canonical form. -/
def IsCanonical : (ts : List CellType) → Cells ts → Prop
  | [], _ => True
  | t :: ts, (c, cs) => t.IsCanonical c ∧ IsCanonical ts cs

/-- The cell at position `i` is what `v` is read as. -/
def Holds : (ts : List CellType) → Cells ts → Nat → Value → Prop
  | [], _, _, _ => False
  | t :: _, (c, _), 0, v => t.ofValue? v = some c
  | _ :: ts, (_, cs), i + 1, v => Holds ts cs i v

theorem canonical_eq_of_isCanonical {ts : List CellType} {cs : Cells ts}
    (h : IsCanonical ts cs) : canonical ts cs = cs := by
  induction ts with
  | nil => rfl
  | cons t ts ih =>
    exact Prod.ext (CellType.canonical_eq_of_isCanonical h.1) (ih h.2)

/-- Every position has a value of the backing of its type. -/
theorem exists_get? {ts : List CellType} (cs : Cells ts) {i : Nat} {t : CellType}
    (ht : ts[i]? = some t) : ∃ v, get? ts cs i = some v ∧ v.scalar = t.backing := by
  induction ts generalizing i with
  | nil => simp at ht
  | cons t' ts ih =>
    cases i with
    | zero =>
      obtain rfl : t' = t := by simpa using ht
      exact ⟨_, rfl, CellType.scalar_toValue cs.1⟩
    | succ i => exact ih cs.2 (by simpa using ht)

@[simp] theorem length_values (ts : List CellType) (cs : Cells ts) :
    (values ts cs).length = ts.length := by
  induction ts with
  | nil => rfl
  | cons t ts ih => exact congrArg Nat.succ (ih cs.2)

theorem getElem?_values (ts : List CellType) (cs : Cells ts) (i : Nat) :
    (values ts cs)[i]? = get? ts cs i := by
  induction ts generalizing i with
  | nil => simp [values, get?]
  | cons t ts ih =>
    cases i with
    | zero => rfl
    | succ i => exact ih cs.2 i

/-! ## Stores -/

section Holds

variable {ts : List CellType} {cs : Cells ts} {i j : Nat} {t : CellType} {v w : Value}

/-- A value that can be read is stored. -/
theorem holds_set (cs : Cells ts) (ht : ts[i]? = some t) {c : t.Carrier}
    (hc : t.ofValue? v = some c) : Holds ts (set ts cs i v) i v := by
  induction ts generalizing i with
  | nil => simp at ht
  | cons t' ts ih =>
    cases i with
    | zero =>
      obtain rfl : t' = t := by simpa using ht
      show t'.ofValue? v = some ((t'.ofValue? v).getD cs.1)
      rw [hc]
      rfl
    | succ i => exact ih cs.2 (by simpa using ht)

/-- A store leaves all other cells alone. -/
theorem holds_set_of_ne (hij : i ≠ j) (h : Holds ts cs j w) :
    Holds ts (set ts cs i v) j w := by
  induction ts generalizing i j with
  | nil => exact h
  | cons t ts ih =>
    cases i with
    | zero =>
      cases j with
      | zero => exact absurd rfl hij
      | succ j => exact h
    | succ i =>
      cases j with
      | zero => exact h
      | succ j => exact ih (fun heq => hij (congrArg Nat.succ heq)) h

/-- Where a value of the backing is held, it is read. -/
theorem get?_of_holds (ht : ts[i]? = some t) (hv : v.scalar = t.backing)
    (h : Holds ts cs i v) : get? ts cs i = some v := by
  induction ts generalizing i with
  | nil => simp at ht
  | cons t' ts ih =>
    cases i with
    | zero =>
      obtain rfl : t' = t := by simpa using ht
      obtain ⟨c, hc, hvalue⟩ := CellType.exists_ofValue? hv
      obtain rfl : c = cs.1 := Option.some.inj (hc.symm.trans h)
      exact congrArg some hvalue
    | succ i => exact ih (by simpa using ht) h

/-- The canonical form holds the values that are read from the cells. -/
theorem holds_canonical (h : get? ts cs i = some v) : Holds ts (canonical ts cs) i v := by
  induction ts generalizing i with
  | nil => simp [get?] at h
  | cons t ts ih =>
    cases i with
    | zero =>
      obtain rfl : t.toValue cs.1 = v := Option.some.inj h
      exact CellType.ofValue?_toValue cs.1
    | succ i => exact ih h

/-- Cells that hold the same values are the same. -/
theorem eq_of_holds {cs cs' : Cells ts}
    (h : ∀ i < ts.length, ∃ v, Holds ts cs i v ∧ Holds ts cs' i v) : cs = cs' := by
  induction ts with
  | nil => rfl
  | cons t ts ih =>
    obtain ⟨v, hv, hv'⟩ := h 0 (Nat.zero_lt_succ _)
    have hhead : cs.1 = cs'.1 := Option.some.inj (Eq.trans (Eq.symm hv) hv')
    have htail : cs.2 = cs'.2 := ih fun i hi => h (i + 1) (Nat.succ_lt_succ hi)
    exact Prod.ext hhead htail

/-- Stores at different positions leave each of the values that they store. -/
theorem holds_foldl_set {α : Type} {index : α → Nat} {value : α → Value} {xs : List α}
    (hnodup : (xs.map index).Nodup)
    (hread : ∀ x ∈ xs, ∃ t c, ts[index x]? = some t ∧ t.ofValue? (value x) = some c) {x : α}
    (hx : x ∈ xs) :
    Holds ts (xs.foldl (fun cs x => set ts cs (index x) (value x)) cs) (index x) (value x) := by
  -- A value that is held stays, as long as its position does not come again.
  have hstays {xs : List α} {cs : Cells ts} (hnot : ∀ y ∈ xs, index y ≠ index x)
      (h : Holds ts cs (index x) (value x)) :
      Holds ts (xs.foldl (fun cs x => set ts cs (index x) (value x)) cs) (index x) (value x) := by
    induction xs generalizing cs with
    | nil => exact h
    | cons y xs ih =>
      exact ih (fun z hz => hnot z (List.mem_cons_of_mem y hz))
        (holds_set_of_ne (hnot y List.mem_cons_self) h)
  induction xs generalizing cs with
  | nil => exact absurd hx List.not_mem_nil
  | cons y xs ih =>
    obtain ⟨hfirst, hrest⟩ := List.nodup_cons.mp hnodup
    rw [List.foldl_cons]
    rcases List.mem_cons.mp hx with rfl | hx
    · obtain ⟨t, c, ht, hc⟩ := hread x List.mem_cons_self
      refine hstays (fun z hz heq => ?_) (holds_set cs ht hc)
      exact hfirst (List.mem_map.mpr ⟨z, hz, heq⟩)
    · exact ih hrest (fun z hz => hread z (List.mem_cons_of_mem y hz)) hx

end Holds

end Cells

end FlatRecord
