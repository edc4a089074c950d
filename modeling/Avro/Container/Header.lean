import Avro.Schema.Basic
import Avro.Sink.Slot
import Avro.Text.Span

/-!
# Container headers

A container file begins with a record of a schema of its own: four magic bytes, metadata, and the
sixteen bytes of the marker that ends every block. The metadata holds the text of the schema that
the records were written with, and the name of the codec.
-/

namespace Avro

/-- **The header of a container file.** -/
structure Header where
  /-- The first four bytes. -/
  magic : List UInt8
  /-- The metadata, sorted by key. -/
  metadata : List (String × List UInt8)
  /-- The marker that ends every block. -/
  sync : List UInt8
  deriving DecidableEq, Repr, Inhabited

namespace Header

/-- The magic bytes. -/
def magicBytes : List UInt8 := [79, 98, 106, 1]

/-- The metadata key of the schema. -/
def schemaKey : String := "avro.schema"

/-- The metadata key of the codec. -/
def codecKey : String := "avro.codec"

/-- The namespace of the header's types. -/
def space : String := "org.apache.avro.file"

/-- A field of the header. -/
def field (name : String) (type : TypeExpr) : Field := ⟨name, type, [], none, none⟩

/-- **The schema of headers.** -/
def schema : Schema where
  root := .named ⟨"Header", space⟩
  definitions :=
    [.record
      { name := ⟨"Header", space⟩
        aliases := []
        fields :=
          [field "magic" (.named ⟨"Magic", space⟩), field "meta" (.map (.primitive .bytes)),
           field "sync" (.named ⟨"Sync", space⟩)]
        doc := none },
     .fixed ⟨⟨"Magic", space⟩, [], 4⟩,
     .fixed ⟨⟨"Sync", space⟩, [], 16⟩]
  source := ""

/-- The slot into which a header is read. -/
def slot : Slot :=
  .record (FullName.mk "Header" space).text [.zeros 4, .map (.bytes []) [], .zeros 16]

/-- The bytes that a slot holds. -/
def bytesOf : Slot → List UInt8
  | .bytes b | .fixed b => b
  | _ => []

/-- The header that a slot holds, read completely or not. -/
def ofSlot : Slot → Header
  | .record _ [magic, .map _ entries, sync] =>
    ⟨bytesOf magic, entries.map fun entry => (entry.1, bytesOf entry.2), bytesOf sync⟩
  | _ => ⟨[], [], []⟩

/-- The header of a file of records of a schema, as a value of the schema of headers. -/
def value (s : Schema) (sync : List UInt8) : Value :=
  .record
    [("magic", .fixed magicBytes),
     ("meta", .map (Entries.ofList
       [(codecKey, .bytes (utf8 "null")), (schemaKey, .bytes (utf8 s.source))])),
     ("sync", .fixed sync)]

end Header

end Avro
