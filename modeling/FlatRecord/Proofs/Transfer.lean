import FlatRecord.Layout.Transfer
import FlatRecord.Proofs.Bits
import FlatRecord.Proofs.Tiling

/-!
# One field in a window

What storing and loading a single field does to the bits of a window.

* A flag goes through a single bit, every other field through the bytes of its
  value: `ofPlacement_of_isFlag`, `store?_of_not_isFlag` and
  `load?_of_not_isFlag`.  No later proof looks at the kinds of transfers.
* `exists_store?` is the frame law of a store: it succeeds inside the window,
  changes owned bits only, and leaves `Placement.storedBit` there.
* `Placement.read` is the value of a field in a window, as a total function.
  Loading inside the window answers it, and it has the stored type.
-/

namespace FlatRecord

open Bytes

namespace Transfer

variable {packing : Packing} {p : Placement}

theorem ofPlacement_of_isFlag (h : p.IsFlag packing) : ofPlacement packing p = .flag p.bit := by
  rcases h with ⟨rfl, hbool⟩
  have hback : p.backing = .bool := beq_iff_eq.mp hbool
  unfold ofPlacement
  rw [hback]

/-- A field that is no flag is stored as the bytes of its value. -/
theorem store?_of_not_isFlag (h : ¬ p.IsFlag packing) (window : Bytes) (offset : Nat) (v : Value) :
    (ofPlacement packing p).store? window offset v = window.withValue? offset v := by
  unfold ofPlacement
  split
  · next hback => exact absurd ⟨rfl, beq_iff_eq.mpr hback⟩ h
  · rfl
  · rfl
  · rfl
  · rfl

/-- A field that is no flag is loaded from the bytes of its type. -/
theorem load?_of_not_isFlag (h : ¬ p.IsFlag packing) (window : Bytes) (offset : Nat) :
    (ofPlacement packing p).load? window offset = window.valueAt? offset p.backing := by
  unfold ofPlacement
  split
  · next hback => exact absurd ⟨rfl, beq_iff_eq.mpr hback⟩ h
  · next hback => rw [hback]; rfl
  · next hback => rw [hback]; rfl
  · next hback => rw [hback]; rfl
  · rfl

end Transfer

namespace Placement

variable {packing : Packing} {p : Placement} {window : Bytes} {v : Value}

/-- A value of the type of a flag is a boolean. -/
theorem exists_bool_of_isFlag (hf : p.IsFlag packing) (hv : v.scalar = p.backing) :
    ∃ b, v = .bool b := by
  have hback : p.backing = .bool := beq_iff_eq.mp hf.2
  rw [hback] at hv
  cases v with
  | bool b => exact ⟨b, rfl⟩
  | _ => exact nomatch hv

/-! ## Storing -/

/-- The bit of a field that lies in a window is there. -/
theorem Within.isSome_bitAt? (h : p.Within window.length) :
    (window.bitAt? p.offset p.bit).isSome :=
  bitAt?_isSome_iff.mpr ⟨h.offset_lt, h.bit_lt⟩

/-- What storing `v` leaves in bit `j` of byte `i`, an owned one, where `old`
was: a flag is added to the old bit, and the bytes of any other field are those
of the value. -/
def storedBit (packing : Packing) (p : Placement) (v : Value) (i j : Nat)
    (old : Option Bool) : Option Bool :=
  if p.IsFlag packing then old.map fun b => b || v == .bool true
  else (ofValue v).bitAt? (i - p.offset) j

theorem storedBit_of_isFlag (hf : p.IsFlag packing) (v : Value) (i j : Nat) (old : Option Bool) :
    p.storedBit packing v i j old = old.map fun b => b || v == .bool true := by
  rw [storedBit, if_pos hf]

theorem storedBit_of_not_isFlag (hf : ¬ p.IsFlag packing) (v : Value) (i j : Nat)
    (old : Option Bool) :
    p.storedBit packing v i j old = (ofValue v).bitAt? (i - p.offset) j := by
  rw [storedBit, if_neg hf]

/-- Storing a flag adds it to its bit. -/
theorem exists_store?_of_isFlag (hf : p.IsFlag packing) (hin : p.Within window.length)
    (hv : v.scalar = p.backing) :
    ∃ result, (Transfer.ofPlacement packing p).store? window p.offset v = some result ∧
      result.length = window.length ∧
      ∀ i j, result.bitAt? i j =
        if p.Owns packing i j then p.storedBit packing v i j (window.bitAt? i j)
        else window.bitAt? i j := by
  obtain ⟨b, rfl⟩ := exists_bool_of_isFlag hf hv
  simp only [Transfer.ofPlacement_of_isFlag hf, owns_of_isFlag hf, storedBit_of_isFlag hf]
  cases b with
  | false =>
    refine ⟨window, rfl, rfl, fun i j => ?_⟩
    have hsame : (window.bitAt? i j).map (fun b => b || Value.bool false == .bool true) =
        window.bitAt? i j := by
      cases window.bitAt? i j with
      | none => rfl
      | some b => cases b <;> rfl
    rw [hsame, ite_self]
  | true =>
    obtain ⟨result, hresult⟩ : ∃ result, window.withBit? p.offset p.bit = some result :=
      exists_withBit? hin.offset_lt hin.bit_lt
    refine ⟨result, hresult, length_of_withBit? hresult, fun i j => ?_⟩
    rw [bitAt?_of_withBit? hresult]
    by_cases hown : i = p.offset ∧ j = p.bit
    · rw [if_pos hown, if_pos hown]
      rcases hown with ⟨rfl, rfl⟩
      obtain ⟨old, hold⟩ := Option.isSome_iff_exists.mp hin.isSome_bitAt?
      rw [hold]
      cases old <;> rfl
    · rw [if_neg hown, if_neg hown]

/-- Storing any other field replaces its bytes. -/
theorem exists_store?_of_not_isFlag (hf : ¬ p.IsFlag packing) (hin : p.Within window.length)
    (hv : v.scalar = p.backing) :
    ∃ result, (Transfer.ofPlacement packing p).store? window p.offset v = some result ∧
      result.length = window.length ∧
      ∀ i j, result.bitAt? i j =
        if p.Owns packing i j then p.storedBit packing v i j (window.bitAt? i j)
        else window.bitAt? i j := by
  have hend := hin.inside
  have hlen : (ofValue v).length = p.size := by rw [length_ofValue, hv, hin.size_eq]
  obtain ⟨result, hresult⟩ : ∃ result, window.splice? p.offset (ofValue v) = some result :=
    exists_splice? (by omega)
  refine ⟨result, ?_, length_of_splice?_eq_some hresult, fun i j => ?_⟩
  · rw [Transfer.store?_of_not_isFlag hf, withValue?, hresult]
  · by_cases hown : p.Owns packing i j
    · rw [if_pos hown, storedBit_of_not_isFlag hf]
      have hbyte := hin.byte_mem hown
      have hi : i - p.offset < (ofValue v).length := by omega
      rw [← bitAt?_of_splice? hresult hi, Nat.add_sub_cancel' hbyte.1]
    · rw [if_neg hown]
      rw [owns_of_not_isFlag hf] at hown
      by_cases hj : j < 8
      · exact bitAt?_of_splice?_of_outside hresult (by omega) j
      · rw [bitAt?_eq_none_of_eight_le _ _ (by omega), bitAt?_eq_none_of_eight_le _ _ (by omega)]

/-- A store inside the window succeeds and changes owned bits only. -/
theorem exists_store? (packing : Packing) (hin : p.Within window.length)
    (hv : v.scalar = p.backing) :
    ∃ result, (Transfer.ofPlacement packing p).store? window p.offset v = some result ∧
      result.length = window.length ∧
      ∀ i j, result.bitAt? i j =
        if p.Owns packing i j then p.storedBit packing v i j (window.bitAt? i j)
        else window.bitAt? i j := by
  by_cases hf : p.IsFlag packing
  · exact exists_store?_of_isFlag hf hin hv
  · exact exists_store?_of_not_isFlag hf hin hv

/-! ## Loading -/

/-- The value of the field in a window. -/
def read (packing : Packing) (window : Bytes) (p : Placement) : Value :=
  ((Transfer.ofPlacement packing p).load? window p.offset).getD (Value.zero p.backing)

theorem load?_eq_read (hin : p.Within window.length) :
    (Transfer.ofPlacement packing p).load? window p.offset = some (p.read packing window) := by
  have hsome : ((Transfer.ofPlacement packing p).load? window p.offset).isSome := by
    by_cases hf : p.IsFlag packing
    · rw [Transfer.ofPlacement_of_isFlag hf]
      show ((window.bitAt? p.offset p.bit).map Value.bool).isSome
      rw [Option.isSome_map]
      exact hin.isSome_bitAt?
    · obtain ⟨data, hdata⟩ := exists_slice? hin.inside
      rw [Transfer.load?_of_not_isFlag hf, valueAt?, ← hin.size_eq, hdata]
      rfl
  obtain ⟨v, hv⟩ := Option.isSome_iff_exists.mp hsome
  rw [read, hv]
  rfl

theorem read_of_isFlag (hf : p.IsFlag packing) {b : Bool}
    (hb : window.bitAt? p.offset p.bit = some b) : p.read packing window = .bool b := by
  rw [read, Transfer.ofPlacement_of_isFlag hf]
  show ((window.bitAt? p.offset p.bit).map Value.bool).getD _ = _
  rw [hb]
  rfl

theorem read_of_slice? (hf : ¬ p.IsFlag packing) (hsize : p.size = p.backing.size)
    {data : Bytes} (hdata : window.slice? p.offset p.size = some data) :
    p.read packing window = Value.ofBits p.backing (toNat data) := by
  rw [read, Transfer.load?_of_not_isFlag hf, valueAt?, ← hsize, hdata]
  rfl

/-- A boolean that is no flag is read from its byte. -/
theorem exists_read_of_bool (hf : ¬ p.IsFlag packing) (hbool : p.backing = .bool)
    (hin : p.Within window.length) :
    ∃ b, window[p.offset]? = some b ∧ p.read packing window = Value.ofBits .bool (toNat [b]) := by
  have hsize : p.size = 1 := hin.size_of_bool hbool
  obtain ⟨data, hdata⟩ := exists_slice? hin.inside
  obtain ⟨b, rfl⟩ := List.length_eq_one_iff.mp ((length_of_slice? hdata).trans hsize)
  have hget := getElem?_of_slice? hdata 0
  rw [if_pos (by omega), Nat.add_zero] at hget
  exact ⟨b, hget.symm, hbool ▸ read_of_slice? hf hin.size_eq hdata⟩

/-- What is read has the type that is stored. -/
theorem scalar_read (hin : p.Within window.length) :
    (p.read packing window).scalar = p.backing := by
  by_cases hf : p.IsFlag packing
  · obtain ⟨b, hb⟩ := Option.isSome_iff_exists.mp hin.isSome_bitAt?
    rw [read_of_isFlag hf hb]
    exact (beq_iff_eq.mp hf.2).symm
  · obtain ⟨data, hdata⟩ := exists_slice? hin.inside
    rw [read_of_slice? hf hin.size_eq hdata, Value.scalar_ofBits]

end Placement

end FlatRecord
