/-!
# Outputs

An output takes bytes up to a capacity, if it has one. A write that does not fit is taken in part
and then fails; a write of no bytes never fails.
-/

namespace Avro

/-- **An output** with what it has taken. -/
structure Output where
  /-- The bytes taken so far. -/
  written : List UInt8
  /-- The number of bytes it takes in all; `none` for no limit. -/
  capacity : Option Nat
  deriving DecidableEq, Repr, Inhabited

namespace Output

/-- An output that has taken nothing. -/
def empty (capacity : Option Nat) : Output := ⟨[], capacity⟩

/-- The bytes of a write that an output takes. -/
def taken (o : Output) (bytes : List UInt8) : List UInt8 :=
  match o.capacity with
  | none => bytes
  | some capacity => bytes.take (capacity - o.written.length)

/-- The text of a write that did not fit. -/
def full : String := "disk full"

/-- **Writes bytes**: the output afterwards, and whether all of them were taken. -/
def write (o : Output) (bytes : List UInt8) : Bool × Output :=
  let taken := o.taken bytes
  (taken.length = bytes.length, { o with written := o.written ++ taken })

end Output

end Avro
