import Avro.Container.Header
import Avro.Proofs.Value.Encoding

/-!
# The bytes of a header

The header that a writer puts in front of a file is a value of the schema of
headers, and so its bytes are known: the magic bytes, the metadata as a map in
one block, and the marker (`Header.encode_value`).
-/

namespace Avro

namespace Header

/-- The record of headers. -/
def record : RecordType where
  name := ⟨"Header", space⟩
  aliases := []
  fields := [field "magic" (.named ⟨"Magic", space⟩),
    field "meta" (.map (.primitive .bytes)),
    field "sync" (.named ⟨"Sync", space⟩)]
  doc := none

theorem definition?_header :
    schema.definition? ⟨"Header", space⟩ = some (.record record) := rfl

theorem definition?_magic : schema.definition? ⟨"Magic", space⟩
    = some (.fixed ⟨⟨"Magic", space⟩, [], 4⟩) := rfl

theorem definition?_sync : schema.definition? ⟨"Sync", space⟩
    = some (.fixed ⟨⟨"Sync", space⟩, [], 16⟩) := rfl

/-- The metadata that a writer writes. -/
def written (s : Schema) : List (String × Value) :=
  [(codecKey, .bytes (utf8 "null")), (schemaKey, .bytes (utf8 s.source))]

/-- The two entries are sorted. -/
theorem ofList_written (s : Schema) :
    Entries.ofList (written s) = written s := by
  refine Entries.ofList_eq (Entries.sorted_cons.mpr ⟨fun x hx => ?_,
    Entries.sorted_cons.mpr ⟨fun _ hx => absurd hx List.not_mem_nil, ?_⟩⟩)
  · rw [List.mem_singleton.mp hx]
    show codecKey < schemaKey
    decide
  · exact List.Pairwise.nil

end Header

/-- **The bytes of a header**: the magic bytes, a map of two entries in one
block, and the marker. -/
def Schema.headerBytes (s : Schema) (sync : List UInt8) : List UInt8 :=
  Header.magicBytes
    ++ (Wire.integer 2
      ++ (Wire.string Header.codecKey ++ Wire.bytes (utf8 "null"))
      ++ (Wire.string Header.schemaKey ++ Wire.bytes (utf8 s.source))
      ++ Wire.integer 0)
    ++ sync

/-- The value of a header has its metadata in order. -/
theorem Header.value_eq (s : Schema) (sync : List UInt8) :
    value s sync = .record [("magic", .fixed magicBytes),
      ("meta", .map (written s)), ("sync", .fixed sync)] := by
  rw [← ofList_written s]
  rfl

/-- **The header of a file is encoded as these bytes.** -/
theorem Header.encode_value (s : Schema) {sync : List UInt8}
    (hsync : sync.length = 16) :
    schema.encode (value s sync) = .ok (s.headerBytes sync) := by
  obtain ⟨hmagic, hmagicBytes⟩ :=
    Value.written_fixed (b := magicBytes) definition?_magic rfl
  obtain ⟨hmarker, hmarkerBytes⟩ :=
    Value.written_fixed (b := sync) definition?_sync hsync
  have hentries : ∀ x ∈ written s, x.2.Encodes schema (.primitive .bytes) := by
    intro x hx
    rcases List.mem_cons.mp hx with rfl | hx
    · exact (Value.Encodes.of_eq rfl).1
    · rw [List.mem_singleton.mp hx]
      exact (Value.Encodes.of_eq rfl).1
  obtain ⟨hmeta, hmetaBytes⟩ := Value.written_map hentries
  have hfields : ∀ x ∈ [("magic", Value.fixed magicBytes),
        ("meta", .map (written s)), ("sync", .fixed sync)].zip record.fields,
      x.1.2.Encodes schema x.2.type := by
    intro x hx
    simp only [record, field, List.zip_cons_cons, List.zip_nil_right,
      List.mem_cons, List.not_mem_nil, or_false] at hx
    rcases hx with rfl | rfl | rfl
    · exact hmagic
    · exact hmeta
    · exact hmarker
  obtain ⟨hheader, hbytes⟩ :=
    Value.written_record definition?_header rfl (by decide) hfields
  rw [value_eq]
  show Value.draft schema _ (.named ⟨"Header", space⟩) = _
  rw [hheader, hbytes]
  refine congrArg Draft.ok ?_
  simp only [record, field, List.zip_cons_cons, List.zip_nil_right,
    List.flatMap_cons, List.flatMap_nil, List.append_nil, Value.writtenField,
    hmagicBytes, hmetaBytes, hmarkerBytes, ← List.append_assoc]
  -- The map has entries, so its block is not left out.
  show magicBytes ++ ((Wire.integer 2 ++ ((written s).flatMap
    (Value.writtenEntry schema (.primitive .bytes)))) ++ Wire.integer 0)
    ++ sync = _
  unfold Schema.headerBytes written
  rw [List.flatMap_cons, List.flatMap_cons, List.flatMap_nil, List.append_nil,
    ← List.append_assoc (Wire.integer 2)]
  rfl

end Avro
