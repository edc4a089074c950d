import Avro.Proofs.Decoding.Basic

/-!
# Loops that follow each other

A loop over blocks does the same number of rounds on every state, since its
headers are read from the input alone. Two loops whose rounds follow each
other on related states therefore do so as a whole (`Running.Follows.blocks`).

The case of interest is a loop on a sink and the loop that collects what it
delivers (`Decoding.blocks_follow`).
-/

namespace Avro

namespace Running

variable {σ τ α β : Type}

section

variable (Rel Err : σ → τ → Prop)

/-- Results that agree on the input, on states that are related. -/
def Related : EStateM.Result ExecutionCause (Input × σ) α →
    EStateM.Result ExecutionCause (Input × τ) α → Prop
  | .ok a s, .ok b t => a = b ∧ s.1 = t.1 ∧ Rel s.2 t.2
  | .error cause s, .error cause' t =>
    cause = cause' ∧ s.1 = t.1 ∧ Err s.2 t.2
  | _, _ => False

/-- **A computation follows another one**: from related states they agree on
the input and end in related states. -/
def Follows (m : Running σ α) (m' : Running τ α) : Prop :=
  ∀ input s t, Rel s t → Related Rel Err (m (input, s)) (m' (input, t))

end

namespace Follows

variable {Rel Err : σ → τ → Prop}

theorem pure (a : α) :
    Follows Rel Err (Pure.pure a : Running σ α) (Pure.pure a) :=
  fun _ _ _ h => ⟨rfl, rfl, h⟩

theorem throw (hErr : ∀ s t, Rel s t → Err s t) (cause : ExecutionCause) :
    Follows Rel Err (throw cause : Running σ α) (throw cause) :=
  fun _ s t h => ⟨rfl, rfl, hErr s t h⟩

theorem reading (hErr : ∀ s t, Rel s t → Err s t) (m : Read α) :
    Follows Rel Err (Running.reading m : Running σ α)
      (Running.reading m) := by
  intro input s t h
  unfold Running.reading
  cases m input with
  | ok a left => exact ⟨rfl, rfl, h⟩
  | error e left => exact ⟨rfl, rfl, hErr s t h⟩

theorem bind {m : Running σ α} {m' : Running τ α} {f : α → Running σ β}
    {f' : α → Running τ β} (hm : Follows Rel Err m m')
    (hf : ∀ a, Follows Rel Err (f a) (f' a)) :
    Follows Rel Err (m >>= f) (m' >>= f') := by
  intro input s t h
  have hr := hm input s t h
  cases hs : m (input, s) with
  | ok a s' =>
    cases ht : m' (input, t) with
    | ok b t' =>
      rw [hs, ht] at hr
      obtain ⟨rfl, hinput, hrel⟩ := hr
      obtain ⟨left, s'⟩ := s'
      obtain ⟨left', t'⟩ := t'
      obtain rfl : left = left' := hinput
      rw [bind_ok hs, bind_ok ht]
      exact hf a left s' t' hrel
    | error cause t' => rw [hs, ht] at hr; exact absurd hr id
  | error cause s' =>
    cases ht : m' (input, t) with
    | ok b t' => rw [hs, ht] at hr; exact absurd hr id
    | error cause' t' =>
      rw [hs, ht] at hr
      rw [bind_error hs, bind_error ht]
      exact hr

theorem ite {c : Prop} [Decidable c] {m n : Running σ α}
    {m' n' : Running τ α} (hm : Follows Rel Err m m')
    (hn : Follows Rel Err n n') :
    Follows Rel Err (if c then m else n) (if c then m' else n') := by
  split
  · exact hm
  · exact hn

theorem rounds {round : Running σ Unit} {round' : Running τ Unit}
    (h : Follows Rel Err round round') :
    ∀ count, Follows Rel Err (Running.rounds round count)
      (Running.rounds round' count)
  | 0 => pure ()
  | count + 1 => bind h (fun _ => rounds h count)

theorem blockCount (hErr : ∀ s t, Rel s t → Err s t) :
    Follows Rel Err Running.blockCount Running.blockCount :=
  bind (reading hErr _) (fun _ =>
    ite (bind (reading hErr _) (fun _ => pure _)) (pure _))

theorem blocksWithin (hErr : ∀ s t, Rel s t → Err s t)
    {round : Running σ Unit} {round' : Running τ Unit}
    (h : Follows Rel Err round round') :
    ∀ more, Follows Rel Err (Running.blocksWithin round more)
      (Running.blocksWithin round' more)
  | 0 => throw hErr _
  | more + 1 =>
    bind (blockCount hErr) (fun count =>
      ite (pure ())
        (bind (rounds h count) (fun _ => blocksWithin hErr h more)))

/-- **Loops whose rounds follow each other** follow each other. -/
theorem blocks (hErr : ∀ s t, Rel s t → Err s t) {round : Running σ Unit}
    {round' : Running τ Unit} (h : Follows Rel Err round round') :
    Follows Rel Err (Running.blocks round) (Running.blocks round') :=
  fun input s t hrel =>
    blocksWithin hErr h (input.rest.length + 1) input s t hrel

end Follows

end Running

namespace Decoding

variable {σ α : Type} {limit levels : Nat}

/-- **A loop on a sink and the loop that collects its items.** What is said of
a round, from a sink that holds some items, is said of the loop. -/
theorem blocks_follow (round : Running σ Unit) (item : Decoding α)
    (Rel : σ → List α → Prop) (Err : σ → Prop)
    (hErr : ∀ s items, Rel s items → Err s)
    (hround : ∀ input s items, Rel s items →
      Gives (deeper limit item levels input)
        (fun a left => ∃ s', round (input, s) = .ok () (left, s')
          ∧ Rel s' (a :: items))
        (fun cause left => ∃ s', round (input, s) = .error cause (left, s')
          ∧ Err s'))
    (input : Input) {s : σ} (hs : Rel s []) :
    Gives (blocks limit item levels input)
      (fun items left => ∃ s',
        Running.blocks round (input, s) = .ok () (left, s')
          ∧ Rel s' items.reverse)
      (fun cause left => ∃ s',
        Running.blocks round (input, s) = .error cause (left, s')
          ∧ Err s') := by
  have hfollows : Running.Follows Rel (fun s _ => Err s) round
      (collecting (deeper limit item levels)) := by
    intro input s items hrel
    have h := hround input s items hrel
    unfold collecting
    dsimp only
    cases hr : deeper limit item levels input with
    | ok a left =>
      rw [hr] at h
      obtain ⟨s', hs', hrel'⟩ := h
      rw [hs']
      exact ⟨rfl, rfl, hrel'⟩
    | error cause left =>
      rw [hr] at h
      obtain ⟨s', hs', herr⟩ := h
      rw [hs']
      exact ⟨rfl, rfl, herr⟩
  have h := hfollows.blocks hErr input s [] hs
  unfold blocks
  cases hc : Running.blocks (collecting (deeper limit item levels))
      (input, []) with
  | ok u t =>
    rw [hc] at h
    cases hr : Running.blocks round (input, s) with
    | error cause s' => rw [hr] at h; exact absurd h id
    | ok u' s' =>
      rw [hr] at h
      obtain ⟨_, hinput, hrel⟩ := h
      refine ⟨s'.2, ?_, ?_⟩
      · rw [← hinput]
      · rw [List.reverse_reverse]
        exact hrel
  | error cause t =>
    rw [hc] at h
    cases hr : Running.blocks round (input, s) with
    | ok u' s' => rw [hr] at h; exact absurd h id
    | error cause' s' =>
      rw [hr] at h
      obtain ⟨rfl, hinput, herr⟩ := h
      exact ⟨s'.2, by rw [← hinput], herr⟩

end Decoding

end Avro
