import Avro.Compile.Error
import Avro.Encode
import Avro.Machine.Error
import Avro.Schema.Error

/-!
# Container errors

What can go wrong with a container file: its header, its blocks, or the schemas, programs, values
and streams involved.
-/

namespace Avro

/-- **What goes wrong with a container file.** -/
inductive ContainerError
  /-- The file does not begin with the magic bytes. -/
  | badMagic
  /-- The blocks are compressed in an unknown way. -/
  | unsupportedCodec (codec : String)
  /-- The header does not hold a schema. -/
  | missingSchema
  /-- A block does not end with the file's marker; blocks are counted from 1. -/
  | syncMismatch (block : Nat)
  /-- The schema in the header is no schema. -/
  | schema (e : SchemaError)
  /-- The file cannot be read with the reader's schema. -/
  | compile (e : CompileError)
  /-- A record or the header cannot be decoded. -/
  | execution (e : ExecutionError)
  /-- A block's frame cannot be decoded. -/
  | decode (e : DecodeError)
  /-- A value cannot be encoded. -/
  | encode (e : EncodeError)
  /-- A record was not delivered completely. -/
  | sink (e : SinkError)
  /-- The stream failed. -/
  | device (reason : String)
  deriving DecidableEq, Repr, Inhabited

/-- The message. -/
def ContainerError.message : ContainerError → String
  | badMagic => "not an object container file"
  | unsupportedCodec codec => s!"unsupported codec `{codec}`"
  | missingSchema => "header has no `avro.schema` entry"
  | syncMismatch block => s!"sync marker mismatch after block {block}"
  | schema e => s!"invalid embedded schema: {e.message}"
  | compile e => e.message
  | execution e => e.message
  | decode e => e.message
  | encode e => e.message
  | sink e => e.message
  | device reason => reason

end Avro
