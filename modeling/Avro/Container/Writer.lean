import Avro.Container.Error
import Avro.Container.Header

/-!
# Writing container files

A writer writes the header when it is opened and buffers the bytes of the values appended to it. A
block is written when it is full, or earlier when it is flushed: the number of its records, the
number of its bytes, the bytes and the marker. A block that an output does not take completely stays
in the buffer.

A value counts as appended once it has been encoded. That the block it fills cannot be written does
not take it back.
-/

namespace Avro

/-- **A container file that is being written.** -/
structure Writer where
  /-- Where the file goes. -/
  output : Output
  /-- The schema of the records. -/
  schema : Schema
  /-- The marker that ends every block. -/
  sync : List UInt8
  /-- The records of a full block; 0 counts as 1. -/
  recordsPerBlock : Nat
  /-- The bytes of the records that are not written yet. -/
  block : List UInt8
  /-- The number of those records. -/
  pending : Nat

namespace Writer

/-- The records of a full block by default. -/
def defaultRecordsPerBlock : Nat := 100

/-- **Opens a file**: writes its header. The output is returned in any case. -/
def start (output : Output) (s : Schema) (sync : List UInt8) (recordsPerBlock : Nat) :
    Except ContainerError Writer × Output :=
  match (Header.schema.encode (Header.value s sync)).writeTo output with
  | (.error e, output) => (.error (.encode e), output)
  | (.ok (), output) => (.ok ⟨output, s, sync, recordsPerBlock, [], 0⟩, output)

/-- The bytes of the block at hand. -/
def blockBytes (w : Writer) : List UInt8 :=
  Wire.integer w.pending ++ Wire.integer w.block.length ++ w.block ++ w.sync

/-- Writes the block at hand, if it has records. -/
def writeBlock (w : Writer) : Except ContainerError Unit × Writer :=
  if w.pending = 0 then (.ok (), w)
  else
    match w.output.write w.blockBytes with
    | (true, output) => (.ok (), { w with output, block := [], pending := 0 })
    | (false, output) => (.error (.device Output.full), { w with output })

/-- **Appends a value.** A value that cannot be encoded leaves no trace. -/
def append (w : Writer) (v : Value) : Except ContainerError Unit × Writer :=
  let draft := w.schema.encode v
  match draft.fault with
  | some e => (.error (.encode e), w)
  | none =>
    let w := { w with block := w.block ++ draft.bytes, pending := w.pending + 1 }
    if max 1 w.recordsPerBlock ≤ w.pending then w.writeBlock else (.ok (), w)

/-- **Writes what is buffered** as a block. -/
def flush (w : Writer) : Except ContainerError Unit × Writer := w.writeBlock

/-- **Closes the file**: writes what is buffered and gives the output back. -/
def close (w : Writer) : Except ContainerError Output :=
  match w.flush with
  | (.ok (), w) => .ok w.output
  | (.error e, _) => .error e

end Writer

end Avro
