import FlatRecord.Layout.Basic

/-!
# Encoding and decoding

A record is written into the window of `totalSize` bytes that starts at an
offset, and read from there.  Writing has three steps that do not overlap: the
values are fetched and checked, then the window is checked, and only then are
bytes changed.  A write that fails therefore changes nothing.

The accesses to the window are the checked ones of `Bytes`.  The answer `none`
means that one of them fell outside the window, or named a bit above 7.
-/

namespace FlatRecord

/-- How one field moves between its value and the window. -/
inductive Transfer where
  /-- An integer of one byte. -/
  | byte (signed : Bool)
  /-- A scalar of several bytes. -/
  | scalar (s : Scalar)
  /-- A boolean that takes a byte: 1 or 0 when written, not 0 when read. -/
  | boolean
  /-- A boolean in this bit of its byte.  Writing sets the bit or leaves it. -/
  | flag (bit : Nat)
deriving DecidableEq, Repr

namespace Transfer

/-- The transfer for a field at its place. -/
def ofPlacement (packing : Packing) (p : Placement) : Transfer :=
  match p.backing, packing with
  | .bool, .dense => flag p.bit
  | .bool, .loose => boolean
  | .i8, _ => byte true
  | .u8, _ => byte false
  | s, _ => scalar s

/-- The window after the value `v` is stored at `offset`. -/
def store? (t : Transfer) (window : Bytes) (offset : Nat) (v : Value) : Option Bytes :=
  match t, v with
  | flag bit, .bool true => window.withBit? offset bit
  | flag _, _ => some window
  | _, v => window.withValue? offset v

/-- The value stored at `offset`. -/
def load? (t : Transfer) (window : Bytes) (offset : Nat) : Option Value :=
  match t with
  | flag bit => (window.bitAt? offset bit).map Value.bool
  | boolean => window.valueAt? offset .bool
  | byte true => window.valueAt? offset .i8
  | byte false => window.valueAt? offset .u8
  | scalar s => window.valueAt? offset s

end Transfer

/-- What a write answers, and the buffer that it leaves. -/
structure Written (ε : Type) where
  result : Except ε Unit
  buffer : Bytes

namespace Layout

/-- The transfers, one for each placement and in the same order. -/
def transfers (l : Layout) : List Transfer :=
  l.placements.map (Transfer.ofPlacement l.packing)

@[simp] theorem length_transfers (l : Layout) : l.transfers.length = l.placements.length :=
  List.length_map _

/-! ## Writing -/

/-- The values of the placed fields, in order, as `get` gives them.  Fetching
stops at the first error, or at the first value that is not of the type stored. -/
def fetch {m : Type → Type} [Monad m] (l : Layout)
    (get : Placement → ExceptT WriteError m Value) : ExceptT WriteError m (List Value) :=
  l.placements.mapM fun p => do
    let v ← get p
    if v.scalar = p.backing then pure v
    else throw (.wrongType p.name p.backing v.scalar)

/-- The window after the values of the placed fields are stored, in order. -/
def storeAll? (l : Layout) (values : List Value) (window : Bytes) : Option Bytes :=
  (l.placements.zip values).foldlM
    (fun window (p, v) => (Transfer.ofPlacement l.packing p).store? window p.offset v) window

/-- Stores fetched values in the window at `offset`, if the buffer has it. -/
def put? (l : Layout) (values : List Value) (buffer : Bytes) (offset : Nat) :
    Option (Written WriteError) :=
  match buffer.slice? offset l.totalSize with
  | none =>
    some ⟨.error (.tooShort l.totalSize (buffer.length - offset)), buffer⟩
  | some window => do
    let window ← l.storeAll? values window
    let buffer ← buffer.splice? offset window
    pure ⟨.ok (), buffer⟩

/-- Writes the record whose values `get` gives to the window at `offset`. -/
def encodeM? {m : Type → Type} [Monad m] (l : Layout)
    (get : Placement → ExceptT WriteError m Value) (buffer : Bytes) (offset : Nat) :
    m (Option (Written WriteError)) := do
  match ← (l.fetch get).run with
  | .error e => pure (some ⟨.error e, buffer⟩)
  | .ok values => pure (l.put? values buffer offset)

/-- Writes the record whose values the function `get` gives. -/
def encode? (l : Layout) (get : Placement → Except WriteError Value) (buffer : Bytes)
    (offset : Nat) : Option (Written WriteError) :=
  Id.run (l.encodeM? (fun p => ExceptT.mk (pure (get p))) buffer offset)

/-! ## Reading -/

/-- The values of the placed fields, in order. -/
def loadAll? (l : Layout) (window : Bytes) : Option (List Value) :=
  l.placements.mapM fun p => (Transfer.ofPlacement l.packing p).load? window p.offset

/-- The placed fields with their values in the window at `offset`, in order. -/
def decode? (l : Layout) (buffer : Bytes) (offset : Nat) :
    Option (Except ReadError (List (Placement × Value))) :=
  match buffer.slice? offset l.totalSize with
  | none => some (.error (.tooShort l.totalSize (buffer.length - offset)))
  | some window => (l.loadAll? window).map fun values => .ok (l.placements.zip values)

/-- Hands each placed field and its value to `set`, in order. -/
def decodeM? {m : Type → Type} [Monad m] (l : Layout) (set : Placement → Value → m Unit)
    (buffer : Bytes) (offset : Nat) : m (Option (Except ReadError Unit)) := do
  match l.decode? buffer offset with
  | none => pure none
  | some (.error e) => pure (some (.error e))
  | some (.ok fields) =>
    fields.forM fun (p, v) => set p v
    pure (some (.ok ()))

end Layout

end FlatRecord
