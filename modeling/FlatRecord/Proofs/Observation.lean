import FlatRecord.Proofs.RoundTrip

/-!
# What a read sees

A read hands out one value for each placement, and each value comes from the
bits that the placement owns and from nothing else.  So two windows, wherever
they lie, give the same values exactly if they agree on the owned bits.

* `Layout.handedOut` is what a read hands out, found by a caller that notes it.
  `handedOut_eq` says what that is, and `decodeM?_eq` that every caller is handed
  the same.
* `Placement.SeenAlike` is the agreement of two windows on a field.  A boolean
  with a byte of its own only shows whether the byte is 0.
* `Placement.read_eq_read_iff` goes through the three ways of storing a field: by
  its bit, by a byte that is 0 or not, and by the bytes of its value, which
  `ofBits_toNat_inj` says are all needed.
-/

namespace FlatRecord

open Bytes

/-! ## One field in two windows -/

namespace Placement

/-- Two windows agree on the bits that the field owns.  On a boolean with a byte of
its own they agree if both bytes are 0 or neither is. -/
def SeenAlike (packing : Packing) (p : Placement) (a b : Bytes) : Prop :=
  if packing = .loose ∧ p.isBool = true then a[p.offset]? = some 0 ↔ b[p.offset]? = some 0
  else ∀ i j, p.Owns packing i j → a.bitAt? i j = b.bitAt? i j

variable {packing : Packing} {p : Placement} {a b : Bytes}

/-- A flag shows its bit. -/
theorem read_eq_read_iff_of_isFlag (hf : p.IsFlag packing) (ha : p.Within a.length)
    (hb : p.Within b.length) :
    p.read packing a = p.read packing b ↔ p.SeenAlike packing a b := by
  obtain ⟨v, hv⟩ := Option.isSome_iff_exists.mp ha.isSome_bitAt?
  obtain ⟨w, hw⟩ := Option.isSome_iff_exists.mp hb.isSome_bitAt?
  have hdense : ¬ (packing = .loose ∧ p.isBool = true) := fun h => nomatch hf.1.symm.trans h.1
  rw [read_of_isFlag hf hv, read_of_isFlag hf hw, SeenAlike, if_neg hdense, Value.bool.injEq]
  constructor
  · rintro rfl i j hown
    obtain ⟨rfl, rfl⟩ := (owns_of_isFlag hf).mp hown
    rw [hv, hw]
  · intro h
    have hbits := h _ _ ((owns_of_isFlag hf).mpr ⟨rfl, rfl⟩)
    rw [hv, hw] at hbits
    exact Option.some.inj hbits

/-- A boolean with a byte of its own shows whether the byte is 0. -/
theorem read_eq_read_iff_of_bool (hloose : packing = .loose) (hbool : p.backing = .bool)
    (ha : p.Within a.length) (hb : p.Within b.length) :
    p.read packing a = p.read packing b ↔ p.SeenAlike packing a b := by
  have hf : ¬ p.IsFlag packing := hloose ▸ not_isFlag_of_loose
  obtain ⟨x, hx, hxread⟩ := exists_read_of_bool hf hbool ha
  obtain ⟨y, hy, hyread⟩ := exists_read_of_bool hf hbool hb
  have hown : packing = .loose ∧ p.isBool = true := ⟨hloose, beq_iff_eq.mpr hbool⟩
  rw [hxread, hyread, ofBits_bool_toNat, ofBits_bool_toNat, SeenAlike, if_pos hown, hx, hy,
    Value.bool.injEq, Option.some.injEq, Option.some.injEq]
  by_cases hx0 : x = 0 <;> by_cases hy0 : y = 0 <;> simp [bne, hx0, hy0]

/-- Any other field shows all bits of its bytes. -/
theorem read_eq_read_iff_of_ne_bool (hbool : p.backing ≠ .bool) (ha : p.Within a.length)
    (hb : p.Within b.length) :
    p.read packing a = p.read packing b ↔ p.SeenAlike packing a b := by
  have hf : ¬ p.IsFlag packing := not_isFlag_of_backing_ne hbool
  have hother : ¬ (packing = .loose ∧ p.isBool = true) := fun h => hbool (beq_iff_eq.mp h.2)
  obtain ⟨data, hdata⟩ := exists_slice? ha.inside
  obtain ⟨data', hdata'⟩ := exists_slice? hb.inside
  have hlen := (length_of_slice? hdata).trans ha.size_eq
  have hlen' := (length_of_slice? hdata').trans ha.size_eq
  rw [read_of_slice? hf ha.size_eq hdata, read_of_slice? hf ha.size_eq hdata',
    ofBits_toNat_inj hbool hlen hlen',
    slice_eq_iff hdata hdata', SeenAlike, if_neg hother]
  simp only [owns_of_not_isFlag hf]
  constructor
  · rintro h i j ⟨hlo, hhi, hj⟩
    have hbit := h (i - p.offset) j (by omega) hj
    rwa [Nat.add_sub_cancel' hlo] at hbit
  · intro h i j hi hj
    exact h _ j ⟨by omega, by omega, hj⟩

/-- A field has the same value in two windows exactly if they agree on it. -/
theorem read_eq_read_iff (packing : Packing) (ha : p.Within a.length) (hb : p.Within b.length) :
    p.read packing a = p.read packing b ↔ p.SeenAlike packing a b := by
  by_cases hbool : p.backing = .bool
  · by_cases hf : p.IsFlag packing
    · exact read_eq_read_iff_of_isFlag hf ha hb
    · exact read_eq_read_iff_of_bool (eq_loose_of_not_isFlag hbool hf) hbool ha hb
  · exact read_eq_read_iff_of_ne_bool hbool ha hb

end Placement

namespace Layout

variable {l : Layout} {buffer window : Bytes} {offset : Nat}

/-! ## What a read hands out -/

/-- A caller that notes what it is handed. -/
def note (p : Placement) (v : Value) : StateM (List (Placement × Value)) Unit :=
  modify fun noted => noted ++ [(p, v)]

/-- What a read hands out, in order. -/
def handedOut (l : Layout) (buffer : Bytes) (offset : Nat) : List (Placement × Value) :=
  ((l.decodeM? note buffer offset).run []).2

/-- A read hands out what the window holds, to any caller. -/
theorem decodeM?_eq (hl : l.WellFormed) (hwindow : buffer.slice? offset l.totalSize = some window)
    {m : Type → Type} [Monad m] (set : Placement → Value → m Unit) :
    l.decodeM? set buffer offset = (do
      (l.readAll window).forM fun (p, v) => set p v
      pure (some (.ok ()))) := by
  unfold decodeM?
  rw [decode?_eq hl hwindow]

theorem forM_note_run (fields noted : List (Placement × Value)) :
    (fields.forM fun (p, v) => note p v).run noted = ((), noted ++ fields) := by
  induction fields generalizing noted with
  | nil => exact congrArg (Prod.mk ()) (List.append_nil noted).symm
  | cons f fields ih =>
    show (fields.forM fun (p, v) => note p v).run (noted ++ [f]) = _
    rw [ih, List.append_assoc, List.singleton_append]

theorem handedOut_eq (hl : l.WellFormed)
    (hwindow : buffer.slice? offset l.totalSize = some window) :
    l.handedOut buffer offset = l.readAll window := by
  unfold handedOut
  rw [decodeM?_eq hl hwindow, StateT.run_bind, forM_note_run]
  rfl

/-- What a read hands out for two windows is the same exactly if they agree on
each field. -/
theorem readAll_eq_readAll_iff (hl : l.WellFormed) {window' : Bytes}
    (hw : window.length = l.totalSize) (hw' : window'.length = l.totalSize) :
    l.readAll window = l.readAll window' ↔
      ∀ p ∈ l.placements, p.SeenAlike l.packing window window' := by
  unfold readAll
  rw [List.map_inj_left]
  refine forall₂_congr fun p hp => ?_
  rw [Prod.mk.injEq, eq_self, true_and]
  exact Placement.read_eq_read_iff l.packing (hw ▸ hl.within p hp) (hw' ▸ hl.within p hp)

/-- A read of a window that the buffer has hands out one value for each placement,
in order and of the type stored there, to any caller.  Two reads hand out the
same exactly if their windows agree on what the placements own.  So neither the
spare bits nor the bytes around the window nor its place are seen, and every
owned bit is. -/
theorem decodeM?_observes {fields : List Field} {packing : Packing}
    (h : arrange fields packing = .ok l) :
    (∀ (buffer : Bytes) offset, offset + l.totalSize ≤ buffer.length →
      ∃ values, l.Fits values ∧ l.handedOut buffer offset = l.placements.zip values ∧
        ∀ {m : Type → Type} [Monad m] (set : Placement → Value → m Unit),
          l.decodeM? set buffer offset = (do
            (l.placements.zip values).forM fun (p, v) => set p v
            pure (some (.ok ())))) ∧
      ∀ (buffer buffer' : Bytes) offset offset' window window',
        buffer.slice? offset l.totalSize = some window →
        buffer'.slice? offset' l.totalSize = some window' →
        (l.handedOut buffer offset = l.handedOut buffer' offset' ↔
          ∀ p ∈ l.placements, p.SeenAlike packing window window') := by
  have hl := wellFormed_of_arrange h
  obtain rfl := packing_of_arrange h
  constructor
  · intro buffer offset hfit
    obtain ⟨window, hwindow⟩ := exists_slice? hfit
    have hw : window.length = l.totalSize := length_of_slice? hwindow
    have hzip : l.readAll window =
        l.placements.zip (l.placements.map (Placement.read l.packing window)) :=
      List.map_prod_left_eq_zip ..
    refine ⟨_, fits_map fun p hp => ?_, (handedOut_eq hl hwindow).trans hzip, fun set => ?_⟩
    · exact Placement.scalar_read (hw ▸ hl.within p hp)
    · rw [← hzip]
      exact decodeM?_eq hl hwindow set
  · intro buffer buffer' offset offset' window window' hwindow hwindow'
    rw [handedOut_eq hl hwindow, handedOut_eq hl hwindow']
    exact readAll_eq_readAll_iff hl (length_of_slice? hwindow) (length_of_slice? hwindow')

/-- The seven bits above the ninth flag are not seen, and the flag is. -/
theorem decodeM?_observes_nineFlags :
    arrange nineFlags .dense = .ok nineFlagsLayout ∧
      nineFlagsLayout.handedOut [2, 1, 0x80, 0x01] 0 =
        nineFlagsLayout.handedOut [0xaa, 2, 1, 0x80, 0xff, 0xaa] 1 ∧
      ¬ ∀ p ∈ nineFlagsLayout.placements, p.SeenAlike .dense [2, 1, 0x80, 0x01]
        [2, 1, 0x80, 0xfe] := by
  obtain ⟨_, hiff⟩ := decodeM?_observes arrange_nineFlags
  have hl := wellFormed_of_arrange arrange_nineFlags
  refine ⟨arrange_nineFlags, (hiff _ _ _ _ [2, 1, 0x80, 0x01] [2, 1, 0x80, 0xff]
    (by decide) (by decide)).mpr fun p hp => ?_, fun hall => ?_⟩
  · have hbits : ∀ i < 4, ∀ j < 8, ¬ nineFlagsLayout.IsSpare i j →
        Bytes.bitAt? [2, 1, 0x80, 0x01] i j = Bytes.bitAt? [2, 1, 0x80, 0xff] i j := by decide
    rw [Placement.SeenAlike, if_neg fun hloose => nomatch hloose.1]
    intro i j hown
    obtain ⟨hi, hj⟩ := hl.lt_of_owns hp hown
    exact hbits i hi j hj fun hspare => (hl.unowned_iff i j hi hj).mpr hspare p hp hown
  · have hsame := (hiff [2, 1, 0x80, 0x01] [2, 1, 0x80, 0xfe] 0 0 _ _ rfl rfl).mpr hall
    revert hsame
    decide

end Layout

end FlatRecord
