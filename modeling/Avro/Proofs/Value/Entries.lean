import Avro.Entries
import Mathlib.Data.String.Basic

/-!
# Entries stay sorted

Inserting keeps entries sorted by key (`Entries.sorted_insert`), so entries
read one by one are sorted in the end, whatever their order was
(`Entries.sorted_ofList`), and none comes from elsewhere
(`Entries.mem_of_mem_ofList`). Entries that are sorted already are read as
they are (`Entries.ofList_eq`), of a repeated key the last value is found
(`Entries.find?_ofList`), and never are there more entries than were read
(`Entries.length_ofList_le`). Where no key is repeated, the order in which
entries are read does not matter (`Entries.ofList_eq_of_perm`).
-/

namespace Avro

namespace Entries

variable {α : Type}

/-- Entries are sorted by key, and no key is there twice. -/
def Sorted (entries : List (String × α)) : Prop :=
  (entries.map (·.1)).Pairwise (· < ·)

theorem sorted_cons {key : String} {value : α}
    {entries : List (String × α)} :
    Sorted ((key, value) :: entries)
      ↔ (∀ x ∈ entries, key < x.1) ∧ Sorted entries := by
  unfold Sorted
  rw [List.map_cons, List.pairwise_cons, List.forall_mem_map]

/-- An entry after an insertion is the one inserted or was there before. -/
theorem mem_of_mem_insert {key : String} {value : α} {x : String × α} :
    ∀ {entries : List (String × α)}, x ∈ insert key value entries →
      x = (key, value) ∨ x ∈ entries
  | [], h => .inl (List.mem_singleton.mp h)
  | (k, v) :: rest, h => by
    rw [insert] at h
    split at h
    · exact List.mem_cons.mp h
    · split at h
      · rcases List.mem_cons.mp h with h | h
        · exact .inl h
        · exact .inr (List.mem_cons_of_mem _ h)
      · rcases List.mem_cons.mp h with h | h
        · exact .inr (h ▸ List.mem_cons_self)
        · rcases mem_of_mem_insert h with h | h
          · exact .inl h
          · exact .inr (List.mem_cons_of_mem _ h)

/-- **An insertion keeps entries sorted.** -/
theorem sorted_insert (key : String) (value : α) :
    ∀ {entries : List (String × α)}, Sorted entries →
      Sorted (insert key value entries)
  | [], _ => List.pairwise_singleton _ _
  | (k, v) :: rest, h => by
    obtain ⟨hk, hrest⟩ := sorted_cons.mp h
    rw [insert]
    split
    · rename_i hlt
      refine sorted_cons.mpr ⟨fun x hx => ?_, h⟩
      rcases List.mem_cons.mp hx with rfl | hx
      · exact hlt
      · exact lt_trans hlt (hk x hx)
    · rename_i hlt
      split
      · rename_i hsame
        exact sorted_cons.mpr ⟨fun x hx => hsame ▸ hk x hx, hrest⟩
      · rename_i hne
        have hgt : k < key := by
          rcases lt_trichotomy key k with h | h | h
          · exact absurd h hlt
          · exact absurd h hne
          · exact h
        refine sorted_cons.mpr ⟨fun x hx => ?_, sorted_insert key value hrest⟩
        rcases mem_of_mem_insert hx with rfl | hx
        · exact hgt
        · exact hk x hx

/-- Entries read one by one into sorted entries. -/
theorem sorted_foldl :
    ∀ (pairs : List (String × α)) {entries : List (String × α)},
      Sorted entries →
      Sorted (pairs.foldl (fun entries pair =>
        insert pair.1 pair.2 entries) entries)
  | [], _, h => h
  | pair :: rest, _, h => sorted_foldl rest (sorted_insert pair.1 pair.2 h)

/-- **Entries read one by one are sorted.** -/
theorem sorted_ofList (pairs : List (String × α)) : Sorted (ofList pairs) :=
  sorted_foldl pairs List.Pairwise.nil

theorem mem_of_mem_foldl {x : String × α} (pairs : List (String × α)) :
    ∀ {entries : List (String × α)},
      x ∈ pairs.foldl (fun entries pair =>
        insert pair.1 pair.2 entries) entries → x ∈ pairs ∨ x ∈ entries := by
  induction pairs with
  | nil => exact .inr
  | cons pair rest ih =>
    intro entries h
    rcases ih h with h | h
    · exact .inl (List.mem_cons_of_mem _ h)
    · rcases mem_of_mem_insert h with rfl | h
      · exact .inl List.mem_cons_self
      · exact .inr h

/-- Entries read one by one are among those read. -/
theorem mem_of_mem_ofList {pairs : List (String × α)} {x : String × α}
    (h : x ∈ ofList pairs) : x ∈ pairs := by
  rcases mem_of_mem_foldl pairs h with h | h
  · exact h
  · exact absurd h List.not_mem_nil

/-- A greatest key is inserted at the end. -/
theorem insert_of_lt {key : String} {value : α} :
    ∀ {entries : List (String × α)}, (∀ x ∈ entries, x.1 < key) →
      insert key value entries = entries ++ [(key, value)]
  | [], _ => rfl
  | (k, v) :: rest, h => by
    have hk : k < key := h (k, v) List.mem_cons_self
    rw [insert, if_neg (not_lt_of_gt hk), if_neg (ne_of_gt hk),
      insert_of_lt fun x hx => h x (List.mem_cons_of_mem _ hx)]
    rfl

theorem foldl_eq_append :
    ∀ (pairs : List (String × α)) {entries : List (String × α)},
      Sorted (entries ++ pairs) →
      pairs.foldl (fun entries pair => insert pair.1 pair.2 entries) entries
        = entries ++ pairs
  | [], entries, _ => (List.append_nil entries).symm
  | (key, value) :: rest, entries, h => by
    have hlast : ∀ x ∈ entries, x.1 < key := by
      intro x hx
      unfold Sorted at h
      rw [List.map_append, List.map_cons, List.pairwise_append] at h
      exact h.2.2 x.1 (List.mem_map.mpr ⟨x, hx, rfl⟩) key List.mem_cons_self
    rw [List.foldl_cons, insert_of_lt hlast, foldl_eq_append rest]
    · rw [List.append_assoc]
      rfl
    · rw [List.append_assoc]
      exact h

/-- **Sorted entries are read as they are.** -/
theorem ofList_eq {pairs : List (String × α)} (h : Sorted pairs) :
    ofList pairs = pairs :=
  foldl_eq_append pairs h

/-- What is found in one list of entries or in another one behind it. -/
theorem find?_append (key : String) :
    ∀ pairs others : List (String × α),
      find? key (pairs ++ others)
        = (find? key pairs).or (find? key others)
  | [], _ => rfl
  | (k, v) :: rest, others => by
    rw [List.cons_append, find?, find?, find?_append key rest others]
    split <;> rfl

/-- What is found after entries are read one by one. -/
theorem find?_foldl (key : String) :
    ∀ (pairs : List (String × α)) (entries : List (String × α)),
      find? key (pairs.foldl (fun entries pair =>
        insert pair.1 pair.2 entries) entries)
        = (find? key pairs.reverse).or (find? key entries)
  | [], _ => rfl
  | (k, v) :: rest, entries => by
    rw [List.foldl_cons, find?_foldl key rest, List.reverse_cons, find?_append]
    by_cases hk : k = key
    · rw [hk, find?_insert_self, find?, if_pos rfl]
      cases find? key rest.reverse <;> rfl
    · rw [find?_insert_of_ne (Ne.symm hk), find?, if_neg hk, find?_nil,
        Option.or_none]

/-- **Of a repeated key the last value is found.** -/
theorem find?_ofList (key : String) (pairs : List (String × α)) :
    find? key (ofList pairs) = find? key pairs.reverse := by
  rw [ofList, find?_foldl, find?_nil, Option.or_none]

/-- Only entries that are there are found. -/
theorem mem_of_find? {key : String} {value : α} :
    ∀ {pairs : List (String × α)}, find? key pairs = some value →
      (key, value) ∈ pairs
  | [], h => absurd h (by simp)
  | (k, v) :: rest, h => by
    rw [find?] at h
    split at h
    · rename_i hk
      obtain rfl := Option.some.inj h
      rw [hk]
      exact List.mem_cons_self
    · exact List.mem_cons_of_mem _ (mem_of_find? h)

/-- The value of a key that stands in a list without repeated keys. -/
theorem find?_of_mem {key : String} {value : α} :
    ∀ {pairs : List (String × α)}, (pairs.map (·.1)).Nodup →
      (key, value) ∈ pairs → find? key pairs = some value
  | [], _, h => absurd h List.not_mem_nil
  | (k, v) :: rest, hnodup, h => by
    obtain ⟨hk, hnodup⟩ := List.nodup_cons.mp hnodup
    rw [find?]
    rcases List.mem_cons.mp h with h | h
    · obtain ⟨rfl, rfl⟩ := Prod.mk.inj h
      rw [if_pos rfl]
    · rw [if_neg, find?_of_mem hnodup h]
      rintro rfl
      exact hk (List.mem_map.mpr ⟨_, h, rfl⟩)

/-! ## How many entries are kept -/

section

variable {β : Type} (written : String × α → List β)

/-- An insertion adds no more than the entry. -/
theorem length_insert_le (key : String) (value : α) :
    ∀ entries : List (String × α),
      ((insert key value entries).flatMap written).length
        ≤ (entries.flatMap written).length + (written (key, value)).length
  | [] => by
    rw [insert, List.flatMap_cons, List.flatMap_nil, List.append_nil]
    exact Nat.le_add_left _ _
  | (k, v) :: rest => by
    rw [insert, List.flatMap_cons, List.length_append]
    split
    · rw [List.flatMap_cons, List.flatMap_cons, List.length_append,
        List.length_append, Nat.add_comm]
    · split
      · rw [List.flatMap_cons, List.length_append]
        omega
      · have := length_insert_le key value rest
        rw [List.flatMap_cons, List.length_append]
        omega

theorem length_foldl_le :
    ∀ pairs entries : List (String × α),
      ((pairs.foldl (fun entries pair => insert pair.1 pair.2 entries)
          entries).flatMap written).length
        ≤ (entries.flatMap written).length + (pairs.flatMap written).length
  | [], _ => Nat.le_refl _
  | (key, value) :: rest, entries => by
    have hinsert := length_insert_le written key value entries
    rw [List.foldl_cons, List.flatMap_cons, List.length_append]
    refine (length_foldl_le rest (insert key value entries)).trans ?_
    omega

/-- **Entries that are kept** are no longer than those that are read, however
they are written. -/
theorem length_flatMap_ofList_le (pairs : List (String × α)) :
    ((ofList pairs).flatMap written).length
      ≤ (pairs.flatMap written).length := by
  have h := length_foldl_le written pairs []
  rwa [List.flatMap_nil, List.length_nil, Nat.zero_add] at h

end

theorem length_ofList_le (pairs : List (String × α)) :
    (ofList pairs).length ≤ pairs.length := by
  have h := length_flatMap_ofList_le (fun x => [x]) pairs
  rwa [List.flatMap_singleton', List.flatMap_singleton'] at h

/-- A new key is one more entry. -/
theorem insert_perm {key : String} {value : α} :
    ∀ {entries : List (String × α)}, key ∉ entries.map (·.1) →
      (insert key value entries).Perm ((key, value) :: entries)
  | [], _ => .refl _
  | (k, v) :: rest, h => by
    rw [List.map_cons, List.mem_cons, not_or] at h
    rw [insert, if_neg h.1]
    split
    · exact .refl _
    · exact ((insert_perm h.2).cons (k, v)).trans (.swap _ _ _)

/-- Entries with different keys are all kept. -/
theorem foldl_perm : ∀ {pairs entries : List (String × α)},
    ((entries ++ pairs).map (·.1)).Nodup →
    (pairs.foldl (fun entries pair => insert pair.1 pair.2 entries)
      entries).Perm (entries ++ pairs)
  | [], entries, _ => by rw [List.append_nil]; exact .refl _
  | pair :: rest, entries, h => by
    have hmiddle : (entries ++ pair :: rest).Perm (pair :: entries ++ rest) :=
      List.perm_middle
    have hnodup := (hmiddle.map (·.1)).nodup_iff.mp h
    have hnew : pair.1 ∉ entries.map (·.1) := by
      rw [List.cons_append, List.map_cons, List.map_append] at hnodup
      exact fun hmem =>
        (List.nodup_cons.mp hnodup).1 (List.mem_append_left _ hmem)
    have hinsert : (insert pair.1 pair.2 entries ++ rest).Perm
        (pair :: entries ++ rest) := (insert_perm hnew).append_right rest
    rw [List.foldl_cons]
    exact (foldl_perm ((hinsert.map (·.1)).nodup_iff.mpr hnodup)).trans
      (hinsert.trans hmiddle.symm)

/-- Sorted entries that are the same but for their order are the same. -/
theorem eq_of_perm {entries others : List (String × α)}
    (hperm : entries.Perm others) (h : Sorted entries) (h' : Sorted others) :
    entries = others := by
  have hlt : ∀ {l : List (String × α)}, Sorted l →
      l.Pairwise fun a b => a.1 < b.1 := fun hl => List.pairwise_map.mp hl
  exact hperm.eq_of_pairwise
    (fun a b _ _ hab hba => absurd (lt_trans hab hba) (lt_irrefl _))
    (hlt h) (hlt h')

/-- **A table does not depend on the order in which it is read.** -/
theorem ofList_eq_of_perm {pairs entries : List (String × α)}
    (hperm : pairs.Perm entries) (h : Sorted entries) :
    ofList pairs = entries := by
  have hkeys : (entries.map (·.1)).Nodup := List.Pairwise.imp ne_of_lt h
  have hnodup : (pairs.map (·.1)).Nodup :=
    (hperm.map (·.1)).nodup_iff.mpr hkeys
  have hall : (ofList pairs).Perm ([] ++ pairs) := foldl_perm hnodup
  exact eq_of_perm (hall.trans hperm) (sorted_ofList pairs) h

/-- **Sorted entries are the same if the same is found** under every key. -/
theorem eq_of_find? {entries others : List (String × α)} (h : Sorted entries)
    (h' : Sorted others) (hfind : ∀ key, find? key entries = find? key others) :
    entries = others := by
  have hkeys : ∀ {l : List (String × α)}, Sorted l → (l.map (·.1)).Nodup :=
    fun hl => List.Pairwise.imp ne_of_lt hl
  have hnodup : ∀ {l : List (String × α)}, Sorted l → l.Nodup :=
    fun hl => List.Pairwise.of_map _
      (fun _ _ hlt heq => ne_of_lt hlt (congrArg Prod.fst heq)) hl
  have hmem : ∀ {l : List (String × α)}, Sorted l → ∀ x,
      x ∈ l ↔ find? x.1 l = some x.2 :=
    fun hl x => ⟨find?_of_mem (hkeys hl), mem_of_find?⟩
  refine eq_of_perm ((List.perm_ext_iff_of_nodup (hnodup h)
    (hnodup h')).mpr fun x => ?_) h h'
  rw [hmem h, hmem h', hfind]

end Entries

end Avro
