import Avro.Proofs.Plan.Compilation
import Avro.Proofs.Schema.Parsing

/-!
# Names of methods

The name of a method is a source, an arrow and a target: the writer's record,
and the reader's record or the mark of what is dropped. Full names are not
restricted to letters and digits, so an arrow may be a part of a name, and a
record may have the name of the mark.

Names without arrows are told apart by the first arrow
(`PlainNames.namesTellApart`), and this is as far as it goes: `methodName_eq_iff`
gives the pairs of demands that have one name.
-/

namespace Avro

/-! ## Arrows in texts -/

/-- A text has an arrow in it. -/
def HasArrow (text : String) : Prop := ['-', '>'] <:+: text.toList

instance (text : String) : Decidable (HasArrow text) :=
  inferInstanceAs (Decidable (['-', '>'] <:+: text.toList))

/-- **Where two texts with an arrow agree**: at the same arrow, or at arrows of
which one comes before the other. -/
theorem append_arrow_eq {a b c d : List Char}
    (h : a ++ '-' :: '>' :: b = c ++ '-' :: '>' :: d) :
    (a = c ∧ b = d)
      ∨ (∃ x, c = a ++ '-' :: '>' :: x ∧ b = x ++ '-' :: '>' :: d)
      ∨ ∃ x, a = c ++ '-' :: '>' :: x ∧ d = x ++ '-' :: '>' :: b := by
  induction a generalizing c with
  | nil =>
    match c with
    | [] =>
      refine .inl ⟨rfl, ?_⟩
      simpa using h
    | [x] => simp at h
    | x :: y :: c =>
      obtain ⟨hx, htail⟩ := List.cons.inj h
      obtain ⟨hy, hb⟩ := List.cons.inj htail
      exact .inr (.inl ⟨c, by rw [← hx, ← hy]; rfl, hb⟩)
  | cons x a ih =>
    match c with
    | [] =>
      match a with
      | [] => simp at h
      | y :: a =>
        obtain ⟨hx, htail⟩ := List.cons.inj h
        obtain ⟨hy, hd⟩ := List.cons.inj htail
        exact .inr (.inr ⟨a, by rw [hx, hy]; rfl, hd.symm⟩)
    | y :: c =>
      obtain ⟨hxy, htail⟩ := List.cons.inj h
      rw [hxy]
      rcases ih htail with ⟨hac, hbd⟩ | ⟨z, hc, hb⟩ | ⟨z, ha, hd⟩
      · exact .inl ⟨by rw [hac], hbd⟩
      · exact .inr (.inl ⟨z, by rw [hc]; rfl, hb⟩)
      · exact .inr (.inr ⟨z, by rw [ha]; rfl, hd⟩)

/-- The same of strings. -/
theorem arrow_eq {a b c d : String} (h : a ++ "->" ++ b = c ++ "->" ++ d) :
    (a = c ∧ b = d)
      ∨ (∃ x, c = a ++ "->" ++ x ∧ b = x ++ "->" ++ d)
      ∨ ∃ x, a = c ++ "->" ++ x ∧ d = x ++ "->" ++ b := by
  have hlists : a.toList ++ '-' :: '>' :: b.toList
      = c.toList ++ '-' :: '>' :: d.toList := by
    have hlists := congrArg String.toList h
    simpa using hlists
  have hstring : ∀ {s t : String} {x u : List Char},
      s.toList = u ++ '-' :: '>' :: x → u = t.toList →
        s = t ++ "->" ++ String.ofList x := by
    rintro s t x u hs rfl
    refine String.toList_inj.mp ?_
    simpa using hs
  have hmiddle : ∀ {s t : String} {x : List Char},
      s.toList = x ++ '-' :: '>' :: t.toList →
        s = String.ofList x ++ "->" ++ t := by
    intro s t x hs
    refine String.toList_inj.mp ?_
    simpa using hs
  rcases append_arrow_eq hlists with ⟨hac, hbd⟩ | ⟨x, hc, hb⟩ | ⟨x, ha, hd⟩
  · exact .inl ⟨String.toList_inj.mp hac, String.toList_inj.mp hbd⟩
  · exact .inr (.inl ⟨String.ofList x, hstring hc rfl, hmiddle hb⟩)
  · exact .inr (.inr ⟨String.ofList x, hstring ha rfl, hmiddle hd⟩)

/-- An arrow in the middle of a text. -/
theorem hasArrow_append (a b : String) : HasArrow (a ++ "->" ++ b) :=
  ⟨a.toList, b.toList, by simp⟩

/-! ## Demands of one name -/

namespace Demand

/-- What the name of a method says of its source. -/
def source : Demand → String
  | deliver w _ | discard w => w.text

/-- What the name of a method says of its target. -/
def target : Demand → String
  | deliver _ r => r.text
  | discard _ => "_"

theorem methodName_eq (d : Demand) :
    d.methodName = "record:" ++ (d.source ++ "->" ++ d.target) := by
  have happ : ∀ a b : String, s!"record:{a}->{b}"
      = "record:" ++ (a ++ "->" ++ b) := by
    intro a b
    refine String.toList_inj.mp ?_
    simp [toString]
  cases d with
  | deliver w r => exact happ w.text r.text
  | discard w =>
    refine String.toList_inj.mp ?_
    simp [methodName, source, target, toString]

/-- **Demands whose methods have one name**: they agree in source and target,
or the arrow of the one is inside the source or target of the other. -/
theorem methodName_eq_iff {d d' : Demand} :
    d.methodName = d'.methodName
      ↔ (d.source = d'.source ∧ d.target = d'.target)
        ∨ (∃ x, d'.source = d.source ++ "->" ++ x
          ∧ d.target = x ++ "->" ++ d'.target)
        ∨ ∃ x, d.source = d'.source ++ "->" ++ x
          ∧ d'.target = x ++ "->" ++ d.target := by
  rw [methodName_eq, methodName_eq]
  constructor
  · intro h
    exact arrow_eq ((String.append_right_inj _).mp h)
  · rintro (⟨hs, ht⟩ | ⟨x, hs, ht⟩ | ⟨x, hs, ht⟩)
    · rw [hs, ht]
    · rw [hs, ht]
      simp [String.append_assoc]
    · rw [hs, ht]
      simp [String.append_assoc]

end Demand

variable {writer reader : Schema}

/-- **Demands that agree in source and target** are the same, unless one of
them delivers into a record that has the name of the mark. -/
theorem Demand.OfRecords.eq_of_source_target (hwriter : writer.WellFormed)
    (hreader : reader.WellFormed) {d d' : Demand}
    (hd : d.OfRecords writer reader) (hd' : d'.OfRecords writer reader)
    (hs : d.source = d'.source) (ht : d.target = d'.target) :
    d = d' ∨ ∃ w r, r.text = "_"
      ∧ (d = .deliver w r ∧ d' = .discard w
        ∨ d = .discard w ∧ d' = .deliver w r) := by
  have hsame : ∀ {w w' : FullName}, writer.HasRecord w →
      writer.HasRecord w' → w.text = w'.text → w = w' :=
    fun ⟨_, hw⟩ ⟨_, hw'⟩ => hwriter.text_inj hwriter hw hw'
  cases d with
  | deliver w r =>
    cases d' with
    | deliver w' r' =>
      obtain ⟨hw, _, hr⟩ := hd
      obtain ⟨hw', _, hr'⟩ := hd'
      left
      rw [hsame hw hw' hs, hreader.text_inj hreader hr hr' ht]
    | discard w' =>
      rw [hsame hd.1 hd' hs]
      exact .inr ⟨w', r, ht, .inl ⟨rfl, rfl⟩⟩
  | discard w =>
    cases d' with
    | deliver w' r' =>
      rw [hsame hd hd'.1 hs]
      exact .inr ⟨w', r', ht.symm, .inr ⟨rfl, rfl⟩⟩
    | discard w' => rw [hsame hd hd' hs]; exact .inl rfl

variable (writer reader) in
/-- **The names of records are plain**: none of the writer's has an arrow in
it, and none of the reader's is the mark. -/
structure PlainNames : Prop where
  /-- The writer's records. -/
  writer : ∀ name, writer.HasRecord name → ¬ HasArrow name.text
  /-- The reader's records. -/
  reader : ∀ name, reader.HasRecord name → name.text ≠ "_"

/-- The names of definitions are enough. -/
theorem PlainNames.of_definitions
    (hwriter : ∀ d ∈ writer.definitions, ¬ HasArrow d.name.text)
    (hreader : ∀ d ∈ reader.definitions, d.name.text ≠ "_") :
    PlainNames writer reader where
  writer := by
    rintro name ⟨r, hr⟩
    rw [← Schema.definition?_name hr]
    exact hwriter _ (List.mem_of_find?_eq_some hr)
  reader := by
    rintro name ⟨r, hr⟩
    rw [← Schema.definition?_name hr]
    exact hreader _ (List.mem_of_find?_eq_some hr)

/-- No source has an arrow in it if names are plain. -/
theorem PlainNames.source (h : PlainNames writer reader) {d : Demand}
    (hd : d.OfRecords writer reader) : ¬ HasArrow d.source := by
  cases d with
  | deliver w r => exact h.writer w hd.1
  | discard w => exact h.writer w hd

/-- **Plain names tell demands apart.** -/
theorem PlainNames.namesTellApart (h : PlainNames writer reader)
    (hwriter : writer.WellFormed) (hreader : reader.WellFormed) :
    NamesTellApart (Demand.OfRecords writer reader) := by
  intro d d' hd hd' heq
  rcases Demand.methodName_eq_iff.mp heq with
    ⟨hs, ht⟩ | ⟨x, hs, -⟩ | ⟨x, hs, -⟩
  · rcases hd.eq_of_source_target hwriter hreader hd' hs ht with
      rfl | ⟨w, r, hmark, ⟨rfl, rfl⟩ | ⟨rfl, rfl⟩⟩
    · rfl
    · exact absurd hmark (h.reader r hd.2)
    · exact absurd hmark (h.reader r hd'.2)
  · exact absurd (hs ▸ hasArrow_append d.source x) (h.source hd')
  · exact absurd (hs ▸ hasArrow_append d'.source x) (h.source hd)

end Avro
