import Mathlib
import Avro.Proofs.Plan.Alike

/-!
# Schemas of one canonical form

Schemas that were read have one canonical form if and only if they are alike:
they have one root, and what their definitions say apart from other names,
defaults and documentation is the same, whatever the order of the definitions
(`Schema.canonicalForm_eq_iff`). That alike schemas have one form is shown
here; the converse is that forms tell schemas apart.

With one form, schemas are compiled for any reader to one program or fail for
one reason. The one thing that a form does not tell is a type of the null
namespace that has the name of a primitive type, which must not be there.
-/

namespace Avro

namespace Schema

variable {s s' : Schema}

/-- A schema is clear if no definition of the null namespace has the name of a
primitive type. A name of another namespace is written with a dot. -/
theorem clear_iff :
    s.Clear ↔ ∀ d ∈ s.definitions, ∀ p : Primitive, d.name ≠ ⟨p.name, ""⟩ := by
  have hplain : ∀ p : Primitive, '.' ∉ p.name.toList := by
    intro p
    cases p <;> decide
  have hwritten : ∀ (n : FullName) (p : Primitive),
      n.text = p.name ↔ n = ⟨p.name, ""⟩ := by
    intro n p
    constructor
    · intro h
      obtain ⟨name, space⟩ := n
      unfold FullName.text at h
      by_cases hspace : space.isEmpty = true
      · rw [if_pos hspace] at h
        rw [String.isEmpty_iff.mp hspace, show name = p.name from h]
      · rw [if_neg hspace] at h
        exact absurd (h ▸ by simp) (hplain p)
    · rintro rfl
      rfl
  exact forall₂_congr fun d _ => forall_congr' fun p =>
    not_congr (hwritten d.name p)

/-! ## Forms of alike schemas -/

/-- The forms of fields do not depend on what is stripped. -/
theorem canonicalFields_stripped
    (onName : FullName → List FullName → Canonical × List FullName) :
    ∀ (fields : List Field) (seen : List FullName),
      canonicalFields onName (fields.map Field.stripped) seen
        = canonicalFields onName fields seen
  | [], _ => rfl
  | field :: rest, seen => by
    simp only [List.map_cons, canonicalFields,
      canonicalFields_stripped onName rest]
    rfl

/-- **The form of a name** is one for alike schemas. -/
theorem Alike.canonicalName (h : s.Alike s') : ∀ budget : Nat,
    s.canonicalName budget = s'.canonicalName budget
  | 0 => rfl
  | budget + 1 => by
    funext name seen
    rw [Schema.canonicalName, Schema.canonicalName, h.canonicalName budget]
    cases h.at name with
    | none hd hd' => rw [hd, hd']
    | record hd hd' hname hfields =>
      rw [hd, hd']
      dsimp only
      -- Fields are alike once they are stripped, and a form leaves out the same.
      rw [← canonicalFields_stripped _ _ (name :: seen), hfields,
        canonicalFields_stripped]
    | enum hd hd' hname hsymbols =>
      rw [hd, hd']
      dsimp only
      rw [hsymbols]
    | fixed hd hd' hname hsize =>
      rw [hd, hd']
      dsimp only
      rw [hsize]

/-- Alike schemas define the same names. -/
theorem Alike.names_perm (h : s.Alike s') (hs : s.Complete)
    (hs' : s'.Complete) :
    (s.definitions.map (·.name)).Perm (s'.definitions.map (·.name)) := by
  have hdefined : ∀ (t : Schema) (name : FullName),
      name ∈ t.definitions.map (·.name) ↔ (t.definition? name).isSome := by
    intro t name
    simp [definition?]
  refine (List.perm_ext_iff_of_nodup hs.nodup hs'.nodup).mpr fun name => ?_
  rw [hdefined, hdefined, ← Option.isSome_map (f := Definition.stripped),
    h.definition name, Option.isSome_map]

/-- **Alike schemas have one canonical form.** -/
theorem Alike.canonicalForm (h : s.Alike s') (hs : s.Complete)
    (hs' : s'.Complete) : s.canonicalForm = s'.canonicalForm := by
  have hlength : s.definitions.length = s'.definitions.length := by
    simpa using (h.names_perm hs hs').length_eq
  unfold Schema.canonicalForm canonical
  rw [h.root, hlength, h.canonicalName]

/-! ## What a form determines -/

/-- **What a canonical form determines**: schemas that were read have one form
if and only if they are alike, and then any reader's schema is compiled with
them to one program, or fails with one error. -/
theorem canonicalForm_eq_iff {text text' : String} (h : parse text = .ok s)
    (h' : parse text' = .ok s') (hclear : s.Clear) (hclear' : s'.Clear) :
    (s.canonicalForm = s'.canonicalForm ↔ s.Alike s')
      ∧ (s.canonicalForm = s'.canonicalForm →
        ∀ reader : Schema, compile s reader = compile s' reader) := by
  have hcomplete := parse_complete h
  have hcomplete' := parse_complete h'
  have hiff : s.canonicalForm = s'.canonicalForm ↔ s.Alike s' :=
    ⟨alike_of_canonicalForm (parse_wellFormed h) (parse_wellFormed h')
      hcomplete hcomplete' hclear hclear',
      fun halike => halike.canonicalForm hcomplete hcomplete'⟩
  exact ⟨hiff, fun hform _ =>
    compile_eq_of_alike (hiff.mp hform) hcomplete hcomplete'⟩

end Schema

/-! ## Two documents of one form

The first document defines a type where it is met first, the second where it
is met last, so their definitions are in different orders. -/

namespace Rearranged

/-- The first document, with a default, an alias and documentation. -/
def wordyText : String :=
  "\x7b\"type\":\"record\",\"name\":\"n.R\",\"doc\":\"d\"," ++
    "\"fields\":[\x7b\"name\":\"a\",\"default\":\"x\",\"type\":" ++
    "\x7b\"type\":\"fixed\",\"name\":\"F\",\"size\":1\x7d\x7d," ++
    "\x7b\"name\":\"b\",\"type\":\x7b\"type\":\"enum\",\"name\":\"E\"," ++
    "\"aliases\":[\"D\"],\"symbols\":[\"x\"]\x7d\x7d," ++
    "\x7b\"name\":\"c\",\"type\":\"F\"\x7d]\x7d"

/-- The second document. -/
def terseText : String :=
  "\x7b\"type\":\"record\",\"name\":\"n.R\",\"fields\":[" ++
    "\x7b\"name\":\"a\",\"type\":\"F\"\x7d," ++
    "\x7b\"name\":\"b\",\"type\":\x7b\"type\":\"enum\",\"name\":\"E\"," ++
    "\"symbols\":[\"x\"]\x7d\x7d,\x7b\"name\":\"c\",\"type\":" ++
    "\x7b\"type\":\"fixed\",\"name\":\"F\",\"size\":1\x7d\x7d]\x7d"

/-- The first schema. -/
def wordy : Schema where
  root := .named ⟨"R", "n"⟩
  definitions :=
    [.record ⟨⟨"R", "n"⟩, [],
      [⟨"a", .named ⟨"F", "n"⟩, [], some (.string "x"), none⟩,
        ⟨"b", .named ⟨"E", "n"⟩, [], none, none⟩,
        ⟨"c", .named ⟨"F", "n"⟩, [], none, none⟩], some "d"⟩,
      .fixed ⟨⟨"F", "n"⟩, [], 1⟩,
      .enum ⟨⟨"E", "n"⟩, [⟨"D", "n"⟩], ["x"], none, none⟩]
  source := wordyText

/-- The second schema. -/
def terse : Schema where
  root := .named ⟨"R", "n"⟩
  definitions :=
    [.record ⟨⟨"R", "n"⟩, [],
      [⟨"a", .named ⟨"F", "n"⟩, [], none, none⟩,
        ⟨"b", .named ⟨"E", "n"⟩, [], none, none⟩,
        ⟨"c", .named ⟨"F", "n"⟩, [], none, none⟩], none⟩,
      .enum ⟨⟨"E", "n"⟩, [], ["x"], none, none⟩,
      .fixed ⟨⟨"F", "n"⟩, [], 1⟩]
  source := terseText

theorem parse_wordyText : Schema.parse wordyText = .ok wordy := by
  have hchars : wordyText.toList = _ :=
    toList_append_eq (toList_append_eq (toList_append_eq (toList_append_eq
      (toList_append_eq String.toList_ofList String.toList_ofList)
      String.toList_ofList) String.toList_ofList) String.toList_ofList)
      String.toList_ofList
  rw [Schema.parse, Json.parse, hchars]
  cbv

theorem parse_terseText : Schema.parse terseText = .ok terse := by
  have hchars : terseText.toList = _ :=
    toList_append_eq (toList_append_eq (toList_append_eq (toList_append_eq
      String.toList_ofList String.toList_ofList) String.toList_ofList)
      String.toList_ofList) String.toList_ofList
  rw [Schema.parse, Json.parse, hchars]
  cbv

theorem clear_wordy : wordy.Clear := by
  refine Schema.clear_iff.mpr ?_
  simp only [wordy, List.forall_mem_cons]
  refine ⟨fun p => ?_, fun p => ?_, fun p => ?_,
    fun _ h => absurd h List.not_mem_nil⟩ <;> cases p <;> decide

theorem clear_terse : terse.Clear := by
  refine Schema.clear_iff.mpr ?_
  simp only [terse, List.forall_mem_cons]
  refine ⟨fun p => ?_, fun p => ?_, fun p => ?_,
    fun _ h => absurd h List.not_mem_nil⟩ <;> cases p <;> decide

/-- What the two write is one form. -/
theorem canonical_wordy : wordy.canonical = terse.canonical := by
  cbv

end Rearranged

/-- The two documents have one form, so they are compiled in the same way. -/
theorem Schema.canonicalForm_eq_iff_rearranged :
    Schema.parse Rearranged.wordyText = .ok Rearranged.wordy
    ∧ Schema.parse Rearranged.terseText = .ok Rearranged.terse
    ∧ Rearranged.wordy.Clear ∧ Rearranged.terse.Clear
    ∧ Rearranged.wordy.canonicalForm = Rearranged.terse.canonicalForm
    ∧ Rearranged.wordy.Alike Rearranged.terse
    ∧ ∀ reader : Schema,
      compile Rearranged.wordy reader = compile Rearranged.terse reader := by
  have hform : Rearranged.wordy.canonicalForm = Rearranged.terse.canonicalForm :=
    congrArg Canonical.text Rearranged.canonical_wordy
  obtain ⟨hiff, hcompile⟩ := Schema.canonicalForm_eq_iff
    Rearranged.parse_wordyText Rearranged.parse_terseText
    Rearranged.clear_wordy Rearranged.clear_terse
  exact ⟨Rearranged.parse_wordyText, Rearranged.parse_terseText,
    Rearranged.clear_wordy, Rearranged.clear_terse, hform, hiff.mp hform,
    hcompile hform⟩

end Avro
