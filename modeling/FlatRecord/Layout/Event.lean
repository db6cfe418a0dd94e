import FlatRecord.Layout.Basic

/-!
# Events

What laying out fields leaves in a log.  An event is what happened; its level,
its message and its named details are read off it.
-/

namespace FlatRecord

/-- How much an event matters. -/
inductive Level where
  | trace | debug | warn
deriving DecidableEq, Repr

def Level.name : Level → String
  | trace => "TRACE"
  | debug => "DEBUG"
  | warn => "WARN"

/-- The part of the library that an event comes from. -/
inductive Component where
  | layout | record
deriving DecidableEq, Repr

/-- What happened. -/
inductive Event where
  /-- A list of fields has a layout. -/
  | arranged (layout : Layout)
  /-- A field has got its place. -/
  | placed (placement : Placement)
  /-- A list of fields has no layout. -/
  | refused (error : LayoutError)
  /-- A record type has got its codec. -/
  | madeCodec (record : String) (totalBytes : Nat)
deriving DecidableEq, Repr

namespace Event

def level : Event → Level
  | arranged _ | madeCodec .. => .debug
  | placed _ => .trace
  | refused _ => .warn

def component : Event → Component
  | arranged _ | placed _ | refused _ => .layout
  | madeCodec .. => .record

def message : Event → String
  | arranged _ => "compiled layout"
  | placed _ => "placed field"
  | refused _ => "rejected schema"
  | madeCodec .. => "compiled packer"

/-- The named details, as text. -/
def details : Event → List (String × String)
  | arranged l =>
    [("fields", l.placements.length.repr), ("total_size", l.totalSize.repr),
      ("mode", l.packing.name)]
  | placed p =>
    [("name", p.name), ("offset", p.offset.repr), ("bit", p.bit.repr), ("backing", p.backing.name)]
  | refused e => [("err", e.message)]
  | madeCodec record totalBytes =>
    [("record", record), ("total_bytes", totalBytes.repr)]

/-- The events of laying out fields: the layout, then each field in order, or the
refusal. -/
def ofArranging : Except LayoutError Layout → List Event
  | .ok l => arranged l :: l.placements.map placed
  | .error e => [refused e]

end Event

end FlatRecord
