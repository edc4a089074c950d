import Avro.Sink.Basic

/-!
# Slots

A slot is a typed place that always holds a value: a number, a text, bytes, a list or map of slots
of one kind, or a record of slots. It is the sink for data whose reader knows beforehand what it
wants, and it needs no schema. Delivering replaces what the slot holds; a further item comes after
those before it; the entry of a key starts afresh whenever the key is opened, so the last occurrence
of a repeated key wins.

The kind of a slot never changes. A fixed slot takes only byte strings of the length it holds.
-/

namespace Avro

/-- **A typed place with its content.** -/
inductive Slot
  /-- A truth value. -/
  | boolean (b : Bool)
  /-- A 32-bit integer. -/
  | int (n : Int32)
  /-- A 64-bit integer. -/
  | long (n : Int64)
  /-- A single precision number. -/
  | float (x : Binary32)
  /-- A double precision number. -/
  | double (x : Binary64)
  /-- A text. -/
  | string (s : String)
  /-- A byte string of any length. -/
  | bytes (b : List UInt8)
  /-- A byte string of one length. -/
  | fixed (b : List UInt8)
  /-- Slots of one kind, the latest first; `blank` is what a further one starts as. -/
  | array (blank : Slot) (latest : List Slot)
  /-- Slots of one kind by key; `blank` is what an entry starts as. -/
  | map (blank : Slot) (entries : List (String × Slot))
  /-- Slots by position, under a name. -/
  | record (name : String) (fields : List Slot)
  deriving Repr, Inhabited

namespace Slot

/-- A fixed slot of a size, filled with zeros. -/
def zeros (size : Nat) : Slot := fixed (List.replicate size 0)

/-- The name used in messages. -/
def kind : Slot → String
  | boolean _ => "boolean"
  | int _ => "int"
  | long _ => "long"
  | float _ => "float"
  | double _ => "double"
  | string _ => "string"
  | bytes _ => "bytes"
  | fixed _ => "fixed"
  | array .. => "array"
  | map .. => "map"
  | record name _ => name

open Sink (accept refuse)

/-- Replaces the content by a scalar of the slot's kind. -/
def set (x : Scalar) (slot : Slot) : EStateM.Result SinkError Slot Unit :=
  match slot, x with
  | boolean _, .boolean b => accept () (boolean b)
  | int _, .int n => accept () (int n)
  | long _, .long n => accept () (long n)
  | float _, .float x => accept () (float x)
  | double _, .double x => accept () (double x)
  | string _, .string s => accept () (string s)
  | bytes _, .bytes b => accept () (bytes b)
  | fixed held, .bytes b =>
    if b.length = held.length then accept () (fixed b)
    else refuse (.fixedSize held.length b.length) slot
  | slot, x => refuse (.unsupported x.operation slot.kind) slot

/-- Opens a part. -/
def enter (part : Opening) (slot : Slot) : EStateM.Result SinkError Slot (Slot → Slot) :=
  match slot, part with
  | array blank latest, .item => accept (fun child => array blank (child :: latest)) blank
  | map blank entries, .entry key =>
    accept (fun child => map blank (Entries.insert key child entries)) blank
  | record name fields, .field index =>
    match fields[index]? with
    | some field => accept (fun child => record name (fields.set index child)) field
    | none => refuse (.invalidIndex (Int64.ofNat index) name) slot
  | slot, part => refuse (.unsupported part.operation slot.kind) slot

/-- **The sink of slots.** -/
def sink : Sink Slot :=
  { Sink.refusing kind with set := set, enter := enter }

end Slot

end Avro
