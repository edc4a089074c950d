/-!
# Entries sorted by key

Keyed collections – the members of a JSON object, the entries of a map value, the metadata of a
container – are lists of pairs sorted by key, with one pair per key. Keys are ordered by their code
points, which for text is also the order of its bytes. `insert` keeps the list sorted and replaces
the value of a key that is already there, so a list read from left to right into entries keeps the
*last* value of each repeated key (`ofList`).
-/

namespace Avro

namespace Entries

variable {α : Type}

/-- Puts a value under a key, in the place of any value already there. -/
def insert (key : String) (value : α) : List (String × α) → List (String × α)
  | [] => [(key, value)]
  | (k, v) :: rest =>
    if key < k then (key, value) :: (k, v) :: rest
    else if key = k then (key, value) :: rest
    else (k, v) :: insert key value rest

/-- The entries of a list of pairs; of a repeated key the last value stays. -/
def ofList (pairs : List (String × α)) : List (String × α) :=
  pairs.foldl (fun entries pair => insert pair.1 pair.2 entries) []

/-- The value of a key. -/
def find? (key : String) : List (String × α) → Option α
  | [] => none
  | (k, v) :: rest => if k = key then some v else find? key rest

@[simp] theorem find?_nil (key : String) : find? key ([] : List (String × α)) = none := rfl

/-- After an insertion the key has the new value. -/
theorem find?_insert_self (key : String) (value : α) (entries : List (String × α)) :
    find? key (insert key value entries) = some value := by
  induction entries with
  | nil => simp [insert, find?]
  | cons pair rest ih =>
    obtain ⟨k, v⟩ := pair
    by_cases below : key < k
    · simp [insert, find?, below]
    · by_cases same : key = k
      · subst same; simp [insert, find?]
      · simp [insert, find?, below, same, Ne.symm same, ih]

/-- An insertion leaves the values of other keys alone. -/
theorem find?_insert_of_ne {key other : String} (h : other ≠ key) (value : α)
    (entries : List (String × α)) :
    find? other (insert key value entries) = find? other entries := by
  induction entries with
  | nil => simp [insert, find?, Ne.symm h]
  | cons pair rest ih =>
    obtain ⟨k, v⟩ := pair
    by_cases below : key < k
    · simp [insert, find?, below, Ne.symm h]
    · by_cases same : key = k
      · subst same; simp [insert, find?, Ne.symm h]
      · simp [insert, find?, below, same, ih]

end Entries

end Avro
