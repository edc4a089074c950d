import Avro.Proofs.Plan.Compilation
import Avro.Proofs.Value.Defaults
import Avro.Proofs.Wire.Shortest
import Avro.Proofs.Wire.Truncation
import Avro.Program.Stored

/-!
# Stored programs are loaded as they were

A stored form is three lists of records of no fixed length, one after the
other, and nothing in it says how long it is. It nevertheless marks its own
end, because every record does: what loads a part takes the bytes of that part
in front of whatever follows, and fails because the data ends over a proper
prefix of them. `Program.Loads` says both at once, and loading one part after
another keeps it (`Loads.bind`), so it goes from the digits of a natural to
whole programs (`loads_parts`).

Loading is not the inverse of storing on all data. Naturals may be padded with
zero digits, methods may be listed in any order, and a name may be listed
twice. What is loaded is a program that can be stored all the same
(`loadable_of_ofBytes?`, `countable_of_ofBytes?`), and this is what makes its
stored form load again.
-/

namespace Avro

namespace Program

/-! ## Loading what was stored -/

section Loads

variable {α β : Type}

/-- **Bytes load as a value**: in front of anything just these bytes are taken,
and over a proper prefix of them the data ends. -/
structure Loads (m : Load α) (bytes : List UInt8) (a : α) : Prop where
  /-- The bytes are taken, and what comes after them is left. -/
  whole : ∀ rest, m (bytes ++ rest) = .ok (a, rest)
  /-- A part of them is not enough. -/
  part : ∀ cut, cut <+: bytes → cut ≠ bytes → m cut = .error .endOfData

/-- A load that succeeds goes on with what follows it. -/
theorem load_bind_ok {m : Load α} {f : α → Load β} {data rest : List UInt8}
    {a : α} (h : m data = .ok (a, rest)) : (m >>= f) data = f a rest := by
  simp only [bind, StateT.bind, h, Except.bind]

/-- Nothing follows a load that fails. -/
theorem load_bind_error {m : Load α} {f : α → Load β} {data : List UInt8}
    {fault : LoadFault} (h : m data = .error fault) :
    (m >>= f) data = .error fault := by
  simp only [bind, StateT.bind, h, Except.bind]

namespace Loads

/-- No bytes. -/
theorem pure (a : α) : Loads (Pure.pure a) [] a where
  whole _ := rfl
  part _ hcut hproper := absurd (List.prefix_nil.mp hcut) hproper

/-- **One part after the other.** -/
theorem bind {m : Load α} {f : α → Load β} {bytes more : List UInt8} {a : α}
    {b : β} (hm : Loads m bytes a) (hf : Loads (f a) more b) :
    Loads (m >>= f) (bytes ++ more) b where
  whole rest := by
    rw [List.append_assoc, load_bind_ok (hm.whole _), hf.whole]
  part cut hcut hproper := by
    rcases proper_or_append hcut with ⟨hshort, hne⟩ | ⟨kept, rfl, hkept⟩
    · exact load_bind_error (hm.part cut hshort hne)
    · rw [load_bind_ok (hm.whole kept)]
      exact hf.part kept hkept fun heq => hproper (by rw [heq])

/-- What is loaded is turned into something else. -/
theorem map {m : Load α} {bytes : List UInt8} {a : α} (hm : Loads m bytes a)
    (f : α → β) : Loads (m >>= fun a => Pure.pure (f a)) bytes (f a) := by
  have h := Loads.bind (f := fun a => Pure.pure (f a)) hm (.pure (f a))
  rwa [List.append_nil] at h

/-- A byte. -/
theorem byte (b : UInt8) : Loads loadByte [b] b where
  whole _ := rfl
  part cut hcut hproper := by
    rcases List.prefix_cons_iff.mp hcut with rfl | ⟨rest, rfl, hrest⟩
    · rfl
    · exact absurd (by rw [List.prefix_nil.mp hrest]) hproper

/-- A byte, and what is done with it. -/
theorem byte_bind {f : UInt8 → Load β} {b : UInt8} {more : List UInt8}
    {value : β} (h : Loads (f b) more value) :
    Loads (loadByte >>= f) (b :: more) value :=
  (byte b).bind h

/-- **The digits of a natural**, behind digits that spell `value`. As many
bytes as there may be spell less than twice what all but the last do, because
the last of them is at most 1. -/
theorem varintFrom : ∀ {more n : Nat} (place value : Nat),
    n < 2 * Nat.pow 128 more →
    Loads (loadVarintFrom more place value) (Wire.digits more n)
      (value + n * Nat.pow 2 place)
  | 0, n, place, value, hn => by
    have hn : n < 2 := hn
    have hbyte : (UInt8.ofNat n).toNat = n :=
      Wire.toNat_ofNat_of_lt (by omega)
    rw [loadVarintFrom, Wire.digits]
    refine .byte_bind ?_
    dsimp only
    rw [hbyte, Nat.mod_eq_of_lt (by omega), if_pos (by omega)]
    exact .pure _
  | more + 1, n, place, value, hn => by
    rw [loadVarintFrom, Wire.digits]
    by_cases hsmall : n < 128
    · have hbyte : (UInt8.ofNat n).toNat = n :=
        Wire.toNat_ofNat_of_lt (by omega)
      rw [if_pos hsmall]
      refine .byte_bind ?_
      dsimp only
      rw [hbyte, Nat.mod_eq_of_lt hsmall, if_neg (by omega)]
      exact .pure _
    · have hbyte : (UInt8.ofNat (n % 128 + 128)).toNat = n % 128 + 128 :=
        Wire.toNat_ofNat_of_lt (by omega)
      have hrest : n / 128 < 2 * Nat.pow 128 more := by
        rw [Nat.div_lt_iff_lt_mul (by decide), Nat.mul_assoc]
        exact hn
      rw [if_neg hsmall]
      refine .byte_bind ?_
      dsimp only
      rw [hbyte, if_pos (by omega), Nat.add_mod_right, Nat.mod_mod,
        ← Wire.digit_add_digits n place, ← Nat.add_assoc]
      exact varintFrom _ _ hrest

/-- **A natural of 64 bits.** -/
theorem varint {n : Nat} (hn : n < 0x10000000000000000) :
    Loads loadVarint (Wire.varint n) n := by
  have h := @varintFrom 9 n 0 0 hn
  rw [show Nat.pow 2 0 = 1 from rfl, Nat.mul_one, Nat.zero_add] at h
  exact h

end Loads

/-- What is loaded behind the length of a text. -/
def loadTextOf (length : Nat) : Load String := fun data =>
  if (data.take length).length < length then .error .endOfData
  else
    match Wire.textOfBytes? (data.take length) with
    | some s => .ok (s, data.drop length)
    | none => .error .badText

/-- A text is its length and so many bytes. -/
theorem loadText_eq : loadText = loadVarint >>= loadTextOf := by
  unfold loadText
  congr 1
  funext length data
  unfold loadTextOf
  by_cases hshort : (data.take length).length < length
  · simp only [bind, StateT.bind, get, getThe, MonadStateOf.get, StateT.get,
      Pure.pure, Except.pure, Except.bind, if_pos hshort]
    rfl
  · simp only [bind, StateT.bind, get, getThe, MonadStateOf.get, StateT.get,
      Pure.pure, Except.pure, Except.bind, if_neg hshort]
    cases Wire.textOfBytes? (data.take length) <;> rfl

namespace Loads

/-- **A text** whose length is a natural of 64 bits. -/
theorem text {s : String} (h : (utf8 s).length < 0x10000000000000000) :
    Loads loadText (storedText s) s := by
  rw [loadText_eq, storedText]
  refine (varint h).bind ⟨fun rest => ?_, fun cut hcut hproper => ?_⟩
  · rw [loadTextOf, List.take_left, if_neg (Nat.lt_irrefl _),
      Wire.textOfBytes?_utf8, List.drop_left]
  · have hshort := length_lt_of_proper hcut hproper
    rw [loadTextOf, List.take_of_length_le (Nat.le_of_lt hshort),
      if_pos hshort]

/-- Items, one after the other. -/
theorem items {item : Load α} {stored : β → List UInt8} {value : β → α} :
    ∀ {l : List β}, (∀ x ∈ l, Loads item (stored x) (value x)) →
      Loads (loadItems item l.length) (l.flatMap stored) (l.map value)
  | [], _ => .pure []
  | x :: rest, h => by
    rw [List.length_cons, loadItems, List.flatMap_cons, List.map_cons]
    exact (h x List.mem_cons_self).bind
      ((items fun y hy => h y (List.mem_cons_of_mem _ hy)).map _)

/-- **A list** whose length is a natural of 64 bits. -/
theorem list {item : Load α} {stored : β → List UInt8} {value : β → α}
    {l : List β} (hlength : l.length < 0x10000000000000000)
    (h : ∀ x ∈ l, Loads item (stored x) (value x)) :
    Loads (loadList item) (storedList stored l) (l.map value) :=
  (varint hlength).bind (items h)

end Loads

end Loads

/-! ## Programs that can be stored -/

/-- **A program can be counted**: its lists and its texts have lengths of 64
bits. It is what every program in the memory of a machine of 64 bits has. -/
structure Countable (p : Program) : Prop where
  /-- The number of instructions. -/
  instructions : p.instructions.size < 0x10000000000000000
  /-- The number of methods. -/
  methods : p.methods.length < 0x10000000000000000
  /-- The number of messages. -/
  errors : p.errors.length < 0x10000000000000000
  /-- The lengths of labels. -/
  label : ∀ i ∈ p.instructions, (utf8 i.label).length < 0x10000000000000000
  /-- The lengths of names. -/
  name : ∀ m ∈ p.methods, (utf8 m.1).length < 0x10000000000000000
  /-- The lengths of messages. -/
  message : ∀ e ∈ p.errors, (utf8 e).length < 0x10000000000000000

/-- **A program can be loaded**: its methods are a table, and they begin inside
the program. -/
structure Loadable (p : Program) : Prop where
  /-- The methods are sorted by name, and no name is there twice. -/
  sorted : Entries.Sorted p.methods
  /-- Methods begin at instructions. -/
  inside : ∀ m ∈ p.methods, m.2 < p.instructions.size

/-- An instruction, with the byte of its operation. -/
def storedParts (i : Instruction) : StoredInstruction :=
  ⟨i.op.byte, i.operand, i.label⟩

/-- An instruction whose label can be counted. -/
theorem loads_instruction {i : Instruction}
    (h : (utf8 i.label).length < 0x10000000000000000) :
    Loads loadInstruction (storedInstruction i) (storedParts i) := by
  have hparts : storedParts i = ⟨i.op.byte,
      Int64.ofInt (Wire.unzigzag (Wire.zigzag i.operand.toInt)), i.label⟩ := by
    rw [Wire.unzigzag_zigzag, Int64.ofInt_toInt]
    rfl
  rw [hparts]
  exact .byte_bind ((Loads.varint (Wire.zigzag_lt_of_int64 i.operand)).bind
    ((Loads.text h).map _))

/-- A method whose name can be counted. -/
theorem loads_method {m : String × Nat}
    (hname : (utf8 m.1).length < 0x10000000000000000)
    (haddress : m.2 < 0x10000000000000000) :
    Loads loadMethod (storedMethod m) m :=
  (Loads.text hname).bind ((Loads.varint haddress).map _)

/-- The methods, in the order of their addresses. -/
theorem methodList_perm (p : Program) : p.methodList.Perm p.methods :=
  List.mergeSort_perm _ _

variable {p : Program}

/-- **The stored form of a program loads as its parts.** -/
theorem loads_parts (hcount : p.Countable) (h : p.Loadable) :
    Loads loadParts p.toBytes (p.instructions.toList.map storedParts,
      p.methodList, p.errors) := by
  have hinstructions : Loads (loadList loadInstruction)
      (storedList storedInstruction p.instructions.toList)
      (p.instructions.toList.map storedParts) :=
    .list (by rw [Array.length_toList]; exact hcount.instructions)
      fun i hi => loads_instruction (hcount.label i (Array.mem_toList_iff.mp hi))
  have hmethods : Loads (loadList loadMethod)
      (storedList storedMethod p.methodList) (p.methodList.map id) := by
    refine .list (by rw [p.methodList_perm.length_eq]; exact hcount.methods)
      fun m hm => ?_
    have hm := p.methodList_perm.mem_iff.mp hm
    exact loads_method (hcount.name m hm)
      (Nat.lt_trans (h.inside m hm) hcount.instructions)
  have herrors : Loads (loadList loadText) (storedList storedText p.errors)
      (p.errors.map id) :=
    .list hcount.errors fun e he => .text (hcount.message e he)
  rw [List.map_id] at hmethods herrors
  rw [toBytes, List.append_assoc]
  exact hinstructions.bind (hmethods.bind (herrors.map _))

/-! ## The checks after loading -/

/-- Operations that were stored are found. -/
theorem checkOpcodes_storedParts : ∀ instructions : List Instruction,
    checkOpcodes (instructions.map storedParts) = .ok instructions
  | [] => rfl
  | i :: rest => by
    rw [List.map_cons, checkOpcodes]
    simp only [storedParts, Opcode.ofByte?_byte]
    rw [show rest.map storedParts = rest.map storedParts from rfl,
      checkOpcodes_storedParts rest]
    rfl

/-- What the checks leave has the labels that were stored. -/
theorem checkOpcodes_eq_ok : ∀ {stored : List StoredInstruction}
    {instructions : List Instruction}, checkOpcodes stored = .ok instructions →
    instructions.map (·.label) = stored.map (·.label)
  | [], _, h => by
    rw [← Except.ok.inj h]
    rfl
  | i :: rest, instructions, h => by
    rw [checkOpcodes] at h
    cases hop : Opcode.ofByte? i.byte with
    | none => rw [hop] at h; exact absurd h (by simp)
    | some op =>
      rw [hop] at h
      obtain ⟨others, hothers, rfl⟩ := exists_of_map_ok h
      rw [List.map_cons, List.map_cons, checkOpcodes_eq_ok hothers]

/-- Methods that begin inside a program pass the check. -/
theorem Loadable.find?_eq_none (h : p.Loadable) :
    p.methodList.find? (p.instructions.toList.length ≤ ·.2) = none := by
  refine List.find?_eq_none.mpr fun m hm => ?_
  have hinside := h.inside m (p.methodList_perm.mem_iff.mp hm)
  rw [Array.length_toList, decide_eq_true_eq]
  omega

/-- **What loads as the parts of a program loads as the program.** -/
theorem Loadable.ofBytes?_of_parts (h : p.Loadable) {data rest : List UInt8}
    (hparts : loadParts data = .ok ((p.instructions.toList.map storedParts,
      p.methodList, p.errors), rest)) : ofBytes? data = .ok p := by
  have hmethods : Entries.ofList p.methodList = p.methods :=
    Entries.ofList_eq_of_perm p.methodList_perm h.sorted
  unfold ofBytes?
  simp only [StateT.run, hparts, checkOpcodes_storedParts, h.find?_eq_none,
    hmethods]

/-! ## What is loaded -/

section LoadsOnly

variable {α β : Type} {P : α → Prop} {Q : β → Prop}

/-- **What a load gives** has a property. -/
def LoadsOnly (m : Load α) (P : α → Prop) : Prop :=
  ∀ data a rest, m data = .ok (a, rest) → P a

namespace LoadsOnly

theorem bind {m : Load α} {f : α → Load β} (hm : LoadsOnly m P)
    (hf : ∀ a, P a → LoadsOnly (f a) Q) : LoadsOnly (m >>= f) Q := by
  intro data b rest h
  cases hr : m data with
  | error fault =>
    rw [load_bind_error hr] at h
    exact absurd h (by simp)
  | ok result =>
    obtain ⟨a, between⟩ := result
    rw [load_bind_ok hr] at h
    exact hf a (hm data a between hr) between b rest h

theorem pure {a : α} (h : P a) : LoadsOnly (Pure.pure a) P := by
  intro data b rest hrun
  rw [← (Prod.mk.inj (Except.ok.inj hrun)).1]
  exact h

theorem trivial (m : Load α) : LoadsOnly m fun _ => True :=
  fun _ _ _ _ => True.intro

/-- A natural spells less than twice what all digits but the last do. -/
theorem varintFrom : ∀ more place value : Nat,
    LoadsOnly (loadVarintFrom more place value) fun n =>
      ∃ m, m < 2 * Nat.pow 128 more ∧ n = value + m * Nat.pow 2 place
  | 0, place, value => by
    rw [loadVarintFrom]
    refine .bind (trivial _) fun b _ => ?_
    dsimp only
    split
    · rename_i hlast
      exact pure ⟨b.toNat % 128, by
        rw [show Nat.pow 128 0 = 1 from rfl]; omega, rfl⟩
    · exact fun _ _ _ h => nomatch h
  | more + 1, place, value => by
    rw [loadVarintFrom]
    refine .bind (trivial _) fun b _ => ?_
    dsimp only
    have hdigit : b.toNat % 128 < 128 := Nat.mod_lt _ (by decide)
    have hmore : Nat.pow 128 (more + 1) = Nat.pow 128 more * 128 := rfl
    split
    · intro data n rest h
      obtain ⟨m, hm, rfl⟩ := varintFrom more _ _ data n rest h
      have hseven : Nat.pow 2 (place + 7) = 128 * Nat.pow 2 place :=
        (Nat.pow_add 2 place 7).trans (Nat.mul_comm _ _)
      -- this digit is the least significant of those from here on
      refine ⟨b.toNat % 128 + m * 128, by omega, ?_⟩
      rw [hseven, Nat.add_mul, Nat.mul_assoc, Nat.add_assoc]
    · have hpos : 0 < Nat.pow 128 more := Nat.pow_pos (by decide)
      exact pure ⟨b.toNat % 128, by omega, rfl⟩

/-- **A natural has 64 bits.** -/
theorem varint : LoadsOnly loadVarint (· < 0x10000000000000000) := by
  intro data n rest h
  obtain ⟨m, hm, rfl⟩ := varintFrom 9 0 0 data n rest h
  rw [show Nat.pow 2 0 = 1 from rfl, Nat.mul_one, Nat.zero_add]
  exact hm

/-- **A text can be counted.** -/
theorem text : LoadsOnly loadText fun s =>
    (utf8 s).length < 0x10000000000000000 := by
  rw [loadText_eq]
  refine .bind varint fun length hlength => ?_
  intro data s rest h
  unfold loadTextOf at h
  split at h
  · exact nomatch h
  · cases hs : Wire.textOfBytes? (data.take length) with
    | none => rw [hs] at h; exact nomatch h
    | some s' =>
      rw [hs] at h
      obtain rfl := (Prod.mk.inj (Except.ok.inj h)).1
      rw [Wire.utf8_of_textOfBytes? hs, List.length_take]
      omega

/-- So many items. -/
theorem items {item : Load α} (h : LoadsOnly item P) : ∀ count,
    LoadsOnly (loadItems item count) fun l => l.length = count ∧ ∀ x ∈ l, P x
  | 0 => pure ⟨rfl, nofun⟩
  | count + 1 => by
    rw [loadItems]
    refine .bind h fun first hfirst => ?_
    refine .bind (items h count) fun others hothers => pure ⟨?_, ?_⟩
    · rw [List.length_cons, hothers.1]
    · exact List.forall_mem_cons.mpr ⟨hfirst, hothers.2⟩

/-- **A list can be counted.** -/
theorem list {item : Load α} (h : LoadsOnly item P) :
    LoadsOnly (loadList item) fun l =>
      l.length < 0x10000000000000000 ∧ ∀ x ∈ l, P x :=
  .bind varint fun count hcount data l rest hl => by
    obtain ⟨rfl, hall⟩ := items h count data l rest hl
    exact ⟨hcount, hall⟩

end LoadsOnly

end LoadsOnly

/-- An instruction has a label that can be counted. -/
theorem loadsOnly_instruction : LoadsOnly loadInstruction fun i =>
    (utf8 i.label).length < 0x10000000000000000 :=
  .bind (.trivial _) fun _ _ => .bind (.trivial _) fun _ _ =>
    .bind .text fun _ hlabel => .pure hlabel

/-- A method has a name that can be counted. -/
theorem loadsOnly_method : LoadsOnly loadMethod fun m =>
    (utf8 m.1).length < 0x10000000000000000 :=
  .bind .text fun _ hname => .bind (.trivial _) fun _ _ => .pure hname

/-- The parts of a program can be counted. -/
theorem loadsOnly_parts : LoadsOnly loadParts fun parts =>
    (parts.1.length < 0x10000000000000000
      ∧ ∀ i ∈ parts.1, (utf8 i.label).length < 0x10000000000000000)
    ∧ (parts.2.1.length < 0x10000000000000000
      ∧ ∀ m ∈ parts.2.1, (utf8 m.1).length < 0x10000000000000000)
    ∧ parts.2.2.length < 0x10000000000000000
      ∧ ∀ e ∈ parts.2.2, (utf8 e).length < 0x10000000000000000 :=
  .bind (.list loadsOnly_instruction) fun _ hinstructions =>
    .bind (.list loadsOnly_method) fun _ hmethods =>
      .bind (.list .text) fun _ herrors =>
        .pure ⟨hinstructions, hmethods, herrors⟩

/-- **How a program is loaded**: its parts are, the operations are known, and
the methods begin inside it. -/
theorem exists_parts {data : List UInt8} (h : ofBytes? data = .ok p) :
    ∃ stored methods rest, loadParts data = .ok ((stored, methods, p.errors), rest)
      ∧ checkOpcodes stored = .ok p.instructions.toList
      ∧ (∀ m ∈ methods, m.2 < p.instructions.size)
      ∧ p.methods = Entries.ofList methods := by
  unfold ofBytes? at h
  cases hparts : loadParts.run data with
  | error fault => rw [hparts] at h; exact absurd h (by simp)
  | ok result =>
    obtain ⟨⟨stored, methods, errors⟩, rest⟩ := result
    simp only [hparts] at h
    cases hchecked : checkOpcodes stored with
    | error e => simp only [hchecked] at h; exact absurd h (by simp)
    | ok instructions =>
      simp only [hchecked] at h
      cases hfound : methods.find? (instructions.length ≤ ·.2) with
      | some m => simp only [hfound] at h; exact absurd h (by simp)
      | none =>
        simp only [hfound] at h
        obtain rfl := Except.ok.inj h
        refine ⟨stored, methods, rest, hparts, hchecked, fun m hm => ?_, rfl⟩
        have houtside := List.find?_eq_none.mp hfound m hm
        rw [decide_eq_true_eq] at houtside
        exact Nat.lt_of_not_le houtside

/-- **A program that was loaded can be loaded.** -/
theorem loadable_of_ofBytes? {data : List UInt8} (h : ofBytes? data = .ok p) :
    p.Loadable := by
  obtain ⟨stored, methods, rest, -, -, hinside, hmethods⟩ := exists_parts h
  refine ⟨hmethods ▸ Entries.sorted_ofList methods, fun m hm => ?_⟩
  rw [hmethods] at hm
  exact hinside m (Entries.mem_of_mem_ofList hm)

/-- **A program that was loaded can be counted.** -/
theorem countable_of_ofBytes? {data : List UInt8} (h : ofBytes? data = .ok p) :
    p.Countable := by
  obtain ⟨stored, methods, rest, hparts, hchecked, -, hmethods⟩ := exists_parts h
  obtain ⟨⟨hlength, hlabel⟩, ⟨hcount, hname⟩, herrors, hmessage⟩ :=
    loadsOnly_parts data _ rest hparts
  have hlabels := checkOpcodes_eq_ok hchecked
  have hsize : p.instructions.size = stored.length := by
    rw [← Array.length_toList, ← List.length_map (·.label), hlabels,
      List.length_map]
  refine ⟨hsize ▸ hlength, ?_, herrors, fun i hi => ?_, fun m hm => ?_, hmessage⟩
  · rw [hmethods]
    exact Nat.lt_of_le_of_lt (Entries.length_ofList_le methods) hcount
  · have hmem : i.label ∈ stored.map (·.label) :=
      hlabels ▸ List.mem_map_of_mem (Array.mem_toList_iff.mpr hi)
    obtain ⟨j, hj, heq⟩ := List.mem_map.mp hmem
    exact heq ▸ hlabel j hj
  · rw [hmethods] at hm
    exact hname m (Entries.mem_of_mem_ofList hm)

end Program

/-! ## Programs that are compiled -/

/-- Methods begin where their code stands. -/
theorem Assembly.address_lt (table : String → Nat) :
    ∀ {methods : List Method} {address : Nat} {m : String × Nat},
      m ∈ addresses address methods →
      m.2 < address + (methodInstructions table address methods).length
  | [], _, _, hm => absurd hm List.not_mem_nil
  | first :: rest, address, m, hm => by
    rw [addresses] at hm
    rw [methodInstructions, List.length_append, List.length_cons,
      Code.length_lower]
    rcases List.mem_cons.mp hm with rfl | hm
    · dsimp only
      omega
    · have := address_lt table hm
      omega

/-- **A compiled program can be loaded.** -/
theorem loadable_of_compile {writer reader : Schema} {p : Program}
    (h : compile writer reader = .ok p) : p.Loadable := by
  unfold compile at h
  cases ha : Assembly.ofSchemas writer reader with
  | error e => rw [ha] at h; exact absurd h (by simp)
  | ok a =>
    rw [ha] at h
    simp only [Assembly.program] at h
    cases hu : a.unknownCall? with
    | some name => rw [hu] at h; exact absurd h (by simp)
    | none =>
      rw [hu] at h
      obtain rfl := Except.ok.inj h
      refine ⟨Entries.sorted_ofList _, fun m hm => ?_⟩
      have hlt := Assembly.address_lt
        (fun name => (Entries.find? name
          (Assembly.addresses (a.main.size + 1) a.methods)).getD 0)
        (Entries.mem_of_mem_ofList hm)
      simp only [List.size_toArray, List.length_append, List.length_cons,
        Code.length_lower]
      omega

/-! ## Storing and loading -/

/-- **Storing a program loses nothing, and its stored form marks its own end.**
For a program that is compiled, or any other whose methods begin inside it,

* the stored form loads as the program, in front of anything;
* over a proper prefix of the stored form the data ends.

And what is loaded from any bytes, be they a stored form or not, is a program
whose own stored form loads as that program. -/
theorem Program.toBytes_lossless :
    (∀ p : Program, p.Countable →
      ((∃ writer reader, compile writer reader = .ok p) ∨ p.Loadable) →
      (∀ rest, ofBytes? (p.toBytes ++ rest) = .ok p)
      ∧ ∀ cut, cut <+: p.toBytes → cut ≠ p.toBytes →
        ofBytes? cut = .error (.malformed LoadFault.endOfData.text))
    ∧ ∀ (bytes : List UInt8) (p : Program), ofBytes? bytes = .ok p →
      ofBytes? p.toBytes = .ok p := by
  refine ⟨fun p hcount h => ?_, fun bytes p h => ?_⟩
  · have hloadable : p.Loadable := by
      rcases h with ⟨writer, reader, hp⟩ | h
      · exact loadable_of_compile hp
      · exact h
    have hparts := loads_parts hcount hloadable
    refine ⟨fun rest => hloadable.ofBytes?_of_parts (hparts.whole rest),
      fun cut hcut hproper => ?_⟩
    unfold ofBytes?
    simp only [StateT.run, hparts.part cut hcut hproper]
  · have hloadable := loadable_of_ofBytes? h
    have hparts := (loads_parts (countable_of_ofBytes? h) hloadable).whole []
    rw [List.append_nil] at hparts
    exact hloadable.ofBytes?_of_parts hparts

/-! ## A program and its stored forms

The program of a record that contains itself, and bytes that load as a program
although they are not its stored form: a count is padded with a zero digit, and
a method is listed twice. -/

namespace Knot

/-- A record that contains itself. -/
def schema : Schema where
  root := .named ⟨"Knot", ""⟩
  definitions :=
    [.record ⟨⟨"Knot", ""⟩, [],
      [⟨"next", .union [.primitive .null, .named ⟨"Knot", ""⟩], [], none,
        none⟩], none⟩]
  source := ""

/-- Whether a program is loaded from its stored form. -/
def loadsBack (p : Program) : Bool :=
  decide (Program.ofBytes? p.toBytes = .ok p)

theorem loadsBack_compile :
    (compile schema schema).toOption.any loadsBack = true := by
  decide +kernel

/-- Bytes of a program that is an end with a method. -/
def padded : List UInt8 :=
  [129, 0, 17, 0, 3, 101, 110, 100, 2, 1, 97, 0, 1, 97, 128, 0, 0]

/-- The program. -/
def ending : Program := ⟨#[⟨.halt, 0, "end"⟩], [("a", 0)], []⟩

theorem ofBytes?_padded : Program.ofBytes? padded = .ok ending := by
  decide +kernel

theorem toBytes_ending : ending.toBytes
    = [1, 17, 0, 3, 101, 110, 100, 1, 1, 97, 0, 0] := by
  decide +kernel

/-- Both programs are stored without a loss. -/
theorem toBytes_lossless_knot :
    (∃ p, compile schema schema = .ok p ∧ p.Countable
      ∧ (∀ rest, Program.ofBytes? (p.toBytes ++ rest) = .ok p)
      ∧ ∀ cut, cut <+: p.toBytes → cut ≠ p.toBytes → Program.ofBytes? cut
        = .error (.malformed Program.LoadFault.endOfData.text))
    ∧ Program.ofBytes? padded = .ok ending ∧ ending.toBytes ≠ padded
      ∧ Program.ofBytes? ending.toBytes = .ok ending := by
  obtain ⟨hstored, hloaded⟩ := Program.toBytes_lossless
  obtain ⟨p, hp, hback⟩ := (Option.any_eq_true _ _).mp loadsBack_compile
  have hp : compile schema schema = .ok p := toOption_eq_some hp
  have hcount : p.Countable :=
    Program.countable_of_ofBytes? (of_decide_eq_true hback)
  obtain ⟨hwhole, hpart⟩ := hstored p hcount (.inl ⟨schema, schema, hp⟩)
  refine ⟨⟨p, hp, hcount, hwhole, hpart⟩, ofBytes?_padded, ?_,
    hloaded padded ending ofBytes?_padded⟩
  rw [toBytes_ending]
  decide

end Knot

end Avro
