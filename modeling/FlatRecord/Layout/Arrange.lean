import FlatRecord.Layout.Basic
import FlatRecord.Name

/-!
# Placing fields

The stored fields are sorted by name.  Those that are no booleans come first
and follow each other without gaps.  The booleans follow, one to a byte or eight
to a byte, lowest bit first.

The names are checked before any type: first for an empty one, then for one
that is used twice.  Of several types that cannot be stored, the one that comes
first by name is reported.

`sortByName_perm` and `pairwise_sortByName` say that sorting by name loses no
entry and sorts.
-/

namespace FlatRecord

/-- A field together with its position in the list that it comes from. -/
structure Entry where
  index : Nat
  field : Field
deriving DecidableEq, Repr

namespace Entry

def name (e : Entry) : String :=
  e.field.name

/-- The fields that are stored, in the order of the list. -/
def included (fields : List Field) : List Entry :=
  (fields.zipIdx.filter fun (f, _) => f.included).map fun (f, i) => ⟨i, f⟩

/-! ## Order by name -/

/-- `e` put into a sorted list, in front of those of the same name. -/
def insertByName (e : Entry) : List Entry → List Entry
  | [] => [e]
  | x :: xs => if Name.le e.name x.name then e :: x :: xs else x :: insertByName e xs

/-- The entries by name; those of one name keep their order. -/
def sortByName : List Entry → List Entry
  | [] => []
  | e :: es => insertByName e (sortByName es)

theorem insertByName_perm (e : Entry) (es : List Entry) :
    (insertByName e es).Perm (e :: es) := by
  induction es with
  | nil => exact List.Perm.refl _
  | cons x xs ih =>
    simp only [insertByName]
    split
    · exact List.Perm.refl _
    · exact (ih.cons x).trans (List.Perm.swap e x xs)

theorem sortByName_perm (es : List Entry) : (sortByName es).Perm es := by
  induction es with
  | nil => exact List.Perm.refl _
  | cons e es ih => exact (insertByName_perm e _).trans (ih.cons e)

theorem pairwise_insertByName {e : Entry} {es : List Entry}
    (h : es.Pairwise fun a b => Name.le a.name b.name) :
    (insertByName e es).Pairwise fun a b => Name.le a.name b.name := by
  induction es with
  | nil => exact List.pairwise_singleton _ _
  | cons x xs ih =>
    have hx := List.pairwise_cons.mp h
    simp only [insertByName]
    split
    · next hle =>
      refine List.pairwise_cons.mpr ⟨fun b hb => ?_, h⟩
      rcases List.mem_cons.mp hb with rfl | hb
      · exact hle
      · exact Name.le_trans hle (hx.1 b hb)
    · next hle =>
      refine List.pairwise_cons.mpr ⟨fun b hb => ?_, ih hx.2⟩
      rcases List.mem_cons.mp ((insertByName_perm e xs).mem_iff.mp hb) with rfl | hb
      · have := Name.le_total b.name x.name
        simpa [hle] using this
      · exact hx.1 b hb

theorem pairwise_sortByName (es : List Entry) :
    (sortByName es).Pairwise fun a b => Name.le a.name b.name := by
  induction es with
  | nil => exact List.Pairwise.nil
  | cons e es ih => exact pairwise_insertByName ih

/-! ## Checks -/

/-- The first of two neighbours that have one name. -/
def firstRepeated? : List Entry → Option Entry
  | [] => none
  | [_] => none
  | a :: b :: rest => if a.name = b.name then some a else firstRepeated? (b :: rest)

/-- Refuses an empty name, and two neighbours of one name. -/
def checkNames (entries : List Entry) : Except LayoutError Unit :=
  if entries.any fun e => e.name.isEmpty then
    .error .emptyName
  else
    match firstRepeated? entries with
    | some e => .error (.repeatedName e.name)
    | none => .ok ()

/-- Each entry with its backing, or the error of the first that has none. -/
def withBacking : List Entry → Except LayoutError (List (Entry × Scalar))
  | [] => .ok []
  | e :: es => do
    let s ← e.field.backing
    let rest ← withBacking es
    pure ((e, s) :: rest)

end Entry

namespace Layout

/-! ## Scalars -/

/-- The places of entries that follow each other from `offset` on. -/
def placeScalars (offset : Nat) : List (Entry × Scalar) → List Placement
  | [] => []
  | (e, s) :: rest =>
    { name := e.name, index := e.index, offset := offset, bit := 0, backing := s,
      size := s.size } ::
      placeScalars (offset + s.size) rest

@[simp] theorem length_placeScalars (offset : Nat) (scalars : List (Entry × Scalar)) :
    (placeScalars offset scalars).length = scalars.length := by
  induction scalars generalizing offset with
  | nil => rfl
  | cons _ _ ih => simp [placeScalars, ih]

/-- The bytes that the entries take together. -/
def scalarSize : List (Entry × Scalar) → Nat
  | [] => 0
  | (_, s) :: scalars => s.size + scalarSize scalars

/-! ## Booleans -/

/-- The place of the next boolean. -/
structure Cursor where
  byte : Nat
  bit : Nat
deriving DecidableEq, Repr

namespace Cursor

/-- The place after this one. -/
def next (packing : Packing) (c : Cursor) : Cursor :=
  match packing with
  | .loose => ⟨c.byte + 1, 0⟩
  | .dense => if c.bit + 1 = 8 then ⟨c.byte + 1, 0⟩ else ⟨c.byte, c.bit + 1⟩

/-- The bytes up to the cursor, one that is partly used included. -/
def bytesUsed (c : Cursor) : Nat :=
  if c.bit = 0 then c.byte else c.byte + 1

end Cursor

/-- The places of booleans from a cursor on, and the cursor after the last. -/
def placeBooleans (packing : Packing) (c : Cursor) : List Entry → List Placement × Cursor
  | [] => ([], c)
  | e :: es =>
    let (rest, last) := placeBooleans packing (c.next packing) es
    ({ name := e.name, index := e.index, offset := c.byte, bit := c.bit, backing := .bool,
       size := 1 } ::
      rest, last)

/-! ## The layout of a list of fields -/

/-- The layout of the included fields of a list. -/
def arrange (fields : List Field) (packing : Packing) : Except LayoutError Layout := do
  let entries := Entry.sortByName (Entry.included fields)
  Entry.checkNames entries
  let (booleans, others) := entries.partition fun e => e.field.type.isBool
  let scalars ← Entry.withBacking others
  let (flags, last) := placeBooleans packing ⟨scalarSize scalars, 0⟩ booleans
  pure
    { packing := packing
      totalSize := last.bytesUsed
      placements := placeScalars 0 scalars ++ flags }

end Layout

end FlatRecord
