import Avro.Compile.Layout
import Avro.Container.Error
import Avro.Container.Header
import Avro.Machine.Basic
import Avro.Schema.Parser
import Avro.Sink.Builder

/-!
# Reading container files

A reader opens a file by running the header program, compiles the program from the schema in the
header to its own schema, and then runs it once per record. Records come in blocks: a count, a size
that is not used, so many records, and the file's marker. A block without records is passed over.

Reading on after an error is possible with `Reader.readInto` and goes on where the error left the
stream; `Reader.next` ends after the first error. As for runs of programs, `none` means that the
steps of a run were used up.
-/

namespace Avro

/-- **An open container file.** -/
structure Reader where
  /-- The bytes to come. -/
  input : Input
  /-- The schema the records were written with. -/
  writerSchema : Schema
  /-- The schema they are read with. -/
  readerSchema : Schema
  /-- The metadata of the header. -/
  metadata : List (String × List UInt8)
  /-- The program that reads a record. -/
  program : Program
  /-- The limit on the levels of a run. -/
  maxDepth : Nat
  /-- The marker that ends every block. -/
  sync : List UInt8
  /-- The records left in the block at hand. -/
  remaining : Nat
  /-- The blocks begun. -/
  blocks : Nat
  /-- Whether iteration has met an error. -/
  failed : Bool

namespace Reader

/-- The reader of a file whose header has been read, with its own schema or the file's. -/
def ofHeader (header : Header) (input : Input) (reader : Option Schema) (maxDepth : Nat) :
    Except ContainerError Reader := do
  let codec :=
    match Entries.find? Header.codecKey header.metadata with
    | none => "null"
    | some bytes => (Wire.textOfBytes? bytes).getD "?"
  if codec ≠ "null" then throw (.unsupportedCodec codec)
  let bytes ←
    match Entries.find? Header.schemaKey header.metadata with
    | none => throw .missingSchema
    | some bytes => pure bytes
  let source ←
    match Wire.textOfBytes? bytes with
    | none => throw (.decode .invalidUtf8)
    | some source => pure source
  let writerSchema ← (Schema.parse source).mapError .schema
  let readerSchema := reader.getD writerSchema
  let program ← (compile writerSchema readerSchema).mapError .compile
  return { input, writerSchema, readerSchema, metadata := header.metadata, program, maxDepth
           sync := header.sync, remaining := 0, blocks := 0, failed := false }

/-- **Opens a file.** The magic bytes are looked at before anything else that went wrong with the
header. -/
def start (input : Input) (reader : Option Schema) (maxDepth steps : Nat) :
    Option (Except ContainerError Reader) :=
  match compile Header.schema Header.schema with
  | .error e => some (.error (.compile e))
  | .ok program =>
    (program.run Slot.sink maxDepth steps input Header.slot).map fun o =>
      let header := Header.ofSlot o.state
      if header.magic ≠ Header.magicBytes then .error .badMagic
      else
        match o.result with
        | .error e => .error (.execution e)
        | .ok () => ofHeader header o.input reader maxDepth

/-- Checks the marker at the end of a block. -/
def checkSync (r : Reader) : Except ContainerError Unit × Reader :=
  match Wire.take 16 r.input with
  | .error e input => (.error (.decode e), { r with input })
  | .ok marker input =>
    if marker = r.sync then (.ok (), { r with input })
    else (.error (.syncMismatch r.blocks), { r with input })

/-- The count and the size at the beginning of a block. -/
def blockFrame : Read Int64 := do
  let count ← Wire.readLong
  let _ ← Wire.readLong
  return count

/-- **Looks for a record**, beginning further blocks while the block at hand has none left; `fuel`
bounds their number. The result says whether there is one. -/
def seekRecord : (fuel : Nat) → Reader → Except ContainerError Bool × Reader
  | 0, r => (.ok false, r)
  | fuel + 1, r =>
    if r.remaining ≠ 0 then (.ok true, r)
    else
      match r.input.rest, r.input.ending with
      | [], .endOfInput => (.ok false, r)
      | [], .failure reason => (.error (.device reason), r)
      | _ :: _, _ =>
        match blockFrame r.input with
        | .error e input => (.error (.decode e), { r with input })
        | .ok count input =>
          if count.toInt < 0 then (.error (.decode (.negativeLength count)), { r with input })
          else
            let r := { r with input, blocks := r.blocks + 1, remaining := count.toInt.toNat }
            if r.remaining ≠ 0 then (.ok true, r)
            else
              match r.checkSync with
              | (.error e, r) => (.error e, r)
              | (.ok (), r) => seekRecord fuel r

/-- **Reads the next record** into a sink. The result says whether there was one. -/
def readInto {σ : Type} (r : Reader) (k : Sink σ) (steps : Nat) (state : σ) :
    Option (Except ContainerError Bool × Reader × σ) :=
  match r.seekRecord (r.input.rest.length + 1) with
  | (.error e, r) => some (.error e, r, state)
  | (.ok false, r) => some (.ok false, r, state)
  | (.ok true, r) =>
    (r.program.run k r.maxDepth steps r.input state).map fun o =>
      let r := { r with input := o.input }
      match o.result with
      | .error e => (.error (.execution e), r, o.state)
      | .ok () =>
        let r := { r with remaining := r.remaining - 1 }
        if r.remaining ≠ 0 then (.ok true, r, o.state)
        else
          match r.checkSync with
          | (.error e, r) => (.error e, r, o.state)
          | (.ok (), r) => (.ok true, r, o.state)

/-- Reads the next record as a value of the reader's schema, if there is one. -/
def readValue (r : Reader) (steps : Nat) : Option (Except ContainerError (Option Value) × Reader) :=
  let start := Builder.fresh r.readerSchema r.readerSchema.root
  (r.readInto (Builder.sink r.readerSchema) steps start).map fun
    | (.error e, r, _) => (.error e, r)
    | (.ok false, r, _) => (.ok none, r)
    | (.ok true, r, built) =>
      match built.value? r.readerSchema with
      | .error e => (.error (.sink e), r)
      | .ok v => (.ok (some v), r)

/-- **The next value of the iteration over a file**, which ends with the file or after the first
error. -/
def next (r : Reader) (steps : Nat) : Option (Except ContainerError (Option Value) × Reader) :=
  if r.failed then some (.ok none, r)
  else
    (r.readValue steps).map fun
      | (.error e, r) => (.error e, { r with failed := true })
      | (.ok v, r) => (.ok v, r)

end Reader

end Avro
