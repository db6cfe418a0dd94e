import FlatRecord.Bytes

/-!
# Order of names

Names are ordered by their UTF-8 bytes, compared as unsigned numbers from the
first byte on; a proper start of a name comes before it.  No two spellings are
identified: names are equal only if they are the same characters.
-/

namespace FlatRecord.Name

/-- The UTF-8 bytes of a name. -/
def utf8 (name : String) : Bytes :=
  name.toList.flatMap String.utf8EncodeChar

/-- Where `a` stands to `b`. -/
def compare (a b : String) : Ordering :=
  Ord.compare (utf8 a) (utf8 b)

/-- Whether `a` may stand before `b`. -/
def le (a b : String) : Bool :=
  (compare a b).isLE

theorem le_total (a b : String) : (le a b || le b a) = true := by
  have h : Ord.compare (utf8 a) (utf8 b) = (Ord.compare (utf8 b) (utf8 a)).swap :=
    Std.OrientedOrd.eq_swap
  simp only [le, compare, h]
  cases Ord.compare (utf8 b) (utf8 a) <;> rfl

theorem le_trans {a b c : String} (hab : le a b = true) (hbc : le b c = true) :
    le a c = true :=
  Std.TransOrd.isLE_trans hab hbc

end FlatRecord.Name
