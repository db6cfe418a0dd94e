import FlatRecord.Value

/-!
# Enumerations

An enumeration names some of the numbers of an integer type.  A number that it
does not name is still a member, the unknown one with that number, so that no
stored number is lost.

Two variants may have the same number.  That number then stands for the one
declared first, and the other cannot be told from it once it is stored.
-/

namespace FlatRecord

/-- A named number of an enumeration that is stored in `repr`. -/
structure Variant (repr : Scalar) where
  name : String
  raw : Value.Of repr
deriving DecidableEq

/-- A declared enumeration. -/
structure Enumeration where
  name : String
  /-- The type in which members are stored. -/
  repr : Scalar
  variants : List (Variant repr)
  repr_isInteger : repr.isInteger = true
  variants_ne_nil : variants ≠ []

namespace Enumeration

/-- The enumeration whose variants have these names and numbers. -/
def ofNumbers (name : String) (repr : Scalar) (variants : List (String × Int))
    (hrepr : repr.isInteger = true) (hvariants : variants ≠ []) : Enumeration where
  name := name
  repr := repr
  variants := variants.map fun (n, raw) => ⟨n, Value.Of.ofInt repr raw⟩
  repr_isInteger := hrepr
  variants_ne_nil := by simpa using hvariants

/-- A member: a declared variant, or a number without a name. -/
inductive Member (e : Enumeration) where
  | declared (variant : Fin e.variants.length)
  | unknown (raw : Value.Of e.repr)
deriving DecidableEq

variable {e : Enumeration}

/-- The declared variants in order. -/
def declaredMembers (e : Enumeration) : List e.Member :=
  (List.finRange e.variants.length).map Member.declared

namespace Member

/-- The first variant. -/
def first (e : Enumeration) : e.Member :=
  .declared ⟨0, List.length_pos_iff.mpr e.variants_ne_nil⟩

instance : Inhabited e.Member := ⟨first e⟩

/-- The number of a member. -/
def toRaw : e.Member → Value.Of e.repr
  | declared i => e.variants[i].raw
  | unknown raw => raw

/-- The member with a number: the first variant that has it, if any. -/
def ofRaw (e : Enumeration) (raw : Value.Of e.repr) : e.Member :=
  match e.variants.findFinIdx? fun v => v.raw = raw with
  | some i => declared i
  | none => unknown raw

/-- A member as a stored value. -/
def toValue (m : e.Member) : Value :=
  m.toRaw.val

/-- The member stored as a value, if the value has the type of the enumeration. -/
def ofValue? (e : Enumeration) (v : Value) : Option e.Member :=
  (v.as? e.repr).map (ofRaw e)

/-- Equality of members.  Variants that share a number are different. -/
def same (a b : e.Member) : Bool :=
  a = b

/-- A member as shown to a reader: the name of a variant, or the bare number. -/
def display : e.Member → String
  | declared i => e.variants[i].name
  | unknown raw =>
    let number := raw.val.toInt.repr
    s!"Unknown(UnknownRepr({number}))"

end Member

end Enumeration

end FlatRecord
