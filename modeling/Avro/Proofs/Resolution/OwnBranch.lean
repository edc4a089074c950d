import Avro.Proofs.Resolution.Covering
import Avro.Proofs.Resolution.SameSchema

/-!
# The branch with the writer's own name

A union of a reader may have a branch with the very name under which data was
written. It receives the data if and only if no branch before it answers to
this name (`branchFor?_eq_own_iff`): a branch of the same kind answers if
it has the same name in some namespace, or the written name as an alias.

So a schema that is compiled for itself sends a named branch of a union to
itself if and only if none before it answers to its name. Two records of one
name in different namespaces do (`Namesakes.misled`).
-/

namespace Avro

variable {writer reader : Schema}

/-! ## Branches that answer to a name -/

namespace Schema

/-- **No type of a list answers to a written name**: none is a definition of
the kind that has the same unqualified name, or the written one as an
alias. -/
def Unrivalled (reader : Schema) (kind : String) (written : FullName)
    (earlier : List TypeExpr) : Prop :=
  ∀ (r : FullName) (d : Definition), .named r ∈ earlier →
    reader.definition? r = some d → d.kind = kind →
    r.name ≠ written.name ∧ written ∉ d.aliases

/-- The types that are the same as a named type. -/
theorem exact_named_iff {w : FullName} {wd : Definition}
    (hw : writer.definition? w = some wd) {t : TypeExpr} :
    writer.exact (.named w) reader t = true ↔
      ∃ r d, t = .named r ∧ reader.definition? r = some d
        ∧ d.kind = wd.kind ∧ (r.name = w.name ∨ w ∈ d.aliases) := by
  cases t with
  | named r =>
    rw [exact, hw]
    cases hd : reader.definition? r with
    | none =>
      refine iff_of_false Bool.false_ne_true ?_
      rintro ⟨r', d, htype, hd', -⟩
      rw [← TypeExpr.named.inj htype, hd] at hd'
      cases hd'
    | some d =>
      have hname : d.name = r := definition?_name hd
      have hanswers : (decide (wd.kind = d.kind) && d.acceptsName w) = true ↔
          d.kind = wd.kind ∧ (r.name = w.name ∨ w ∈ d.aliases) := by
        simp [Definition.acceptsName, FullName.standsFor, hname,
          eq_comm (a := wd.kind)]
      refine hanswers.trans ⟨fun h => ⟨r, d, rfl, hd, h⟩, ?_⟩
      rintro ⟨r', d', htype, hd', h⟩
      obtain rfl := TypeExpr.named.inj htype
      obtain rfl := Option.some.inj (hd.symm.trans hd')
      exact h
  | _ => simp [exact]

/-- The branches of a list are unrivalled if none is the same as the named
type. -/
theorem unrivalled_iff {w : FullName} {wd : Definition}
    (hw : writer.definition? w = some wd) {earlier : List TypeExpr} :
    reader.Unrivalled wd.kind w earlier ↔
      ∀ t ∈ earlier, writer.exact (.named w) reader t = false := by
  simp only [← Bool.not_eq_true, exact_named_iff hw]
  constructor
  · rintro h t ht ⟨r, d, rfl, hd, hkind, hanswers⟩
    obtain ⟨hname, halias⟩ := h r d ht hd hkind
    exact hanswers.elim hname halias
  · intro h r d hr hd hkind
    have hnone := h _ hr
    exact ⟨fun hname => hnone ⟨r, d, rfl, hd, hkind, .inl hname⟩,
      fun halias => hnone ⟨r, d, rfl, hd, hkind, .inr halias⟩⟩

/-- A definition of the written name is the same type. -/
theorem exact_ownName {w : FullName} {wd rd : Definition}
    (hw : writer.definition? w = some wd) (hr : reader.definition? w = some rd)
    (hkind : rd.kind = wd.kind) :
    writer.exact (.named w) reader (.named w) = true :=
  (exact_named_iff hw).mpr ⟨w, rd, rfl, hr, hkind, .inl rfl⟩

/-- A type that is the same as some branch is received by a branch, the first
that is the same. -/
theorem branchFor?_of_exact {w : TypeExpr} {branches : List TypeExpr}
    (hsome : ∃ t ∈ branches, writer.exact w reader t = true) :
    ∃ index, writer.branchFor? w reader branches = some index
      ∧ branches.findIdx? (fun t => writer.exact w reader t) = some index := by
  obtain ⟨index, hindex⟩ := Option.isSome_iff_exists.mp
    (List.findIdx?_isSome.trans (List.any_eq_true.mpr hsome))
  refine ⟨index, ?_, hindex⟩
  rw [branchFor?, hindex]
  rfl

/-- **The branch that receives a type** is the one that is the same type while
none before it is, if there is such a branch. -/
theorem branchFor?_eq_some_iff {w : TypeExpr} {branches : List TypeExpr}
    (hsome : ∃ t ∈ branches, writer.exact w reader t = true) {index : Nat} :
    writer.branchFor? w reader branches = some index ↔
      ∃ t, branches[index]? = some t ∧ writer.exact w reader t = true
        ∧ ∀ earlier ∈ branches.take index,
          writer.exact w reader earlier = false := by
  obtain ⟨first, hpick, hfirst⟩ := branchFor?_of_exact hsome
  rw [hpick, ← hfirst, List.findIdx?_eq_some_iff_getElem]
  simp only [List.mem_take_iff_getElem]
  constructor
  · rintro ⟨hlt, hexact, hearlier⟩
    refine ⟨_, List.getElem?_eq_getElem hlt, hexact, ?_⟩
    rintro _ ⟨k, hk, rfl⟩
    exact Bool.eq_false_iff.mpr (hearlier k (lt_min_iff.mp hk).1)
  · rintro ⟨t, ht, hexact, hearlier⟩
    obtain ⟨hlt, rfl⟩ := List.getElem?_eq_some_iff.mp ht
    refine ⟨hlt, hexact, fun k hk => ?_⟩
    exact Bool.eq_false_iff.mp
      (hearlier _ ⟨k, lt_min hk (hk.trans hlt), rfl⟩)

section OwnName

variable {w : FullName} {wd rd : Definition} {branches : List TypeExpr}
  (hw : writer.definition? w = some wd) (hr : reader.definition? w = some rd)
  (hkind : rd.kind = wd.kind)

include hw hr hkind

/-- A branch of the written name receives its data if and only if no branch
before it answers to the name. -/
theorem branchFor?_eq_own_iff {index : Nat}
    (hown : branches[index]? = some (.named w)) :
    writer.branchFor? (.named w) reader branches = some index ↔
      reader.Unrivalled wd.kind w (branches.take index) := by
  have hself := exact_ownName hw hr hkind
  rw [branchFor?_eq_some_iff ⟨_, List.mem_of_getElem? hown, hself⟩,
    unrivalled_iff hw]
  constructor
  · rintro ⟨-, -, -, hearlier⟩
    exact hearlier
  · exact fun hearlier => ⟨_, hown, hself, hearlier⟩

/-- The written name is the branch that receives its data if and only if some
branch of this name has none before it that answers. -/
theorem getElem?_branchFor?_iff {index : Nat}
    (hindex : writer.branchFor? (.named w) reader branches = some index) :
    branches[index]? = some (.named w) ↔
      ∃ before after, branches = before ++ .named w :: after
        ∧ reader.Unrivalled wd.kind w before := by
  constructor
  · intro hown
    obtain ⟨hlt, heq⟩ := List.getElem?_eq_some_iff.mp hown
    refine ⟨branches.take index, branches.drop (index + 1), ?_,
      (branchFor?_eq_own_iff hw hr hkind hown).mp hindex⟩
    rw [← heq, List.cons_getElem_drop_succ, List.take_append_drop]
  · rintro ⟨before, after, rfl, hbefore⟩
    have hown : (before ++ .named w :: after)[before.length]?
        = some (.named w) := by
      rw [List.getElem?_append_right (Nat.le_refl _), Nat.sub_self]
      rfl
    have hpick := (branchFor?_eq_own_iff hw hr hkind hown).mpr
      (by rwa [List.take_left])
    rw [Option.some.inj (hindex.symm.trans hpick)]
    exact hown

end OwnName

end Schema

/-! ## The case of a tag -/

/-- **The case of a tag**: what is delivered, and the code that follows. -/
def Cases.at? {χ μ ε : Type} : Cases χ μ ε → Nat →
    Option (Option Nat × Code χ μ ε)
  | .none, _ => Option.none
  | .case tag delivered body rest, n =>
    if n = tag then some (delivered, body) else rest.at? n

namespace Plan

/-- The case of a branch of a writer's union in the plan that reads it as a
reader's union: the number of the branch that receives it, and the plan that
enters this branch. -/
def branchCase? (writer : Schema) (label : String) (reader : Schema)
    (readers : List TypeExpr) (branch : TypeExpr) :
    Option (Option Nat × Plan) := do
  let index ← writer.branchFor? branch reader readers
  let r ← readers[index]?
  return (some index, entering r index label (deliver writer branch reader r label))

/-- Cases are added in front by branches that are received. -/
theorem branchCases_cons_union (label : String) (tag : Nat)
    (branch : TypeExpr) (rest readers : List TypeExpr) :
    branchCases writer label tag (branch :: rest) reader (.union readers)
      = ((branchCase? writer label reader readers branch).map fun c =>
          Cases.case tag c.1 c.2).getD id
        (branchCases writer label (tag + 1) rest reader (.union readers)) := by
  rw [branchCases, branchCase?]
  cases hpick : writer.branchFor? branch reader readers with
  | none => rfl
  | some index =>
    cases hr : readers[index]? with
    | none => simp [hr]
    | some r => simp [hr]

/-- There is no case for a tag before the first. -/
theorem at?_branchCases_of_lt {label : String} {readers : List TypeExpr} :
    ∀ {branches : List TypeExpr} {tag n : Nat}, n < tag →
      (branchCases writer label tag branches reader (.union readers)).at? n
        = none
  | [], _, _, _ => by
    rw [branchCases]
    rfl
  | branch :: rest, tag, n, h => by
    have hrest := @at?_branchCases_of_lt label readers rest (tag + 1) n
      (Nat.lt_succ_of_lt h)
    rw [branchCases_cons_union]
    cases branchCase? writer label reader readers branch with
    | none => exact hrest
    | some c => exact (if_neg (Nat.ne_of_lt h)).trans hrest

/-- **The case of a tag is that of its branch.** -/
theorem at?_branchCases {label : String} {readers : List TypeExpr} :
    ∀ (branches : List TypeExpr) (tag n : Nat),
      (branchCases writer label tag branches reader (.union readers)).at?
          (tag + n)
        = branches[n]?.bind (branchCase? writer label reader readers)
  | [], _, _ => by
    rw [branchCases]
    rfl
  | branch :: rest, tag, 0 => by
    have hrest := @at?_branchCases_of_lt writer reader label readers rest
      (tag + 1) tag (Nat.lt_succ_self tag)
    rw [branchCases_cons_union]
    cases hcase : branchCase? writer label reader readers branch with
    | none => simpa [hcase] using hrest
    | some c => simp [hcase, Cases.at?]
  | branch :: rest, tag, n + 1 => by
    have hrest := @at?_branchCases label readers rest (tag + 1) n
    rw [Nat.add_right_comm, Nat.add_assoc] at hrest
    rw [branchCases_cons_union, List.getElem?_cons_succ, ← hrest]
    cases branchCase? writer label reader readers branch with
    | none => rfl
    | some c => exact if_neg (by omega)

/-- **A switch runs the case of the tag it reads**: it delivers what the case
says, and goes on with its code. -/
theorem evalCases_branchCases {σ : Type} {k : Sink σ} {limit : Nat}
    {body : Demand → Plan} {below : Option (Plan → Running σ Frame)}
    {label message : String} {readers : List TypeExpr} {frame : Frame}
    {n : Nat} (hlong : frame.long = Int64.ofNat n)
    (hn : n < 0x8000000000000000) :
    ∀ {branches : List TypeExpr} {tag : Nat},
      tag + branches.length ≤ 0x8000000000000000 →
      evalCases k limit body below message
          (branchCases writer label tag branches reader (.union readers)) frame
        = match (branchCases writer label tag branches reader
            (.union readers)).at? n with
          | none => throw (.halt message)
          | some (delivered, inner) => do
            let frame ← renumbered k delivered { frame with condition := true }
            evalWith k limit body below inner frame
  | [], _, _ => by
    rw [branchCases, evalCases]
    rfl
  | branch :: rest, tag, hcount => by
    have hbound : tag + rest.length + 1 ≤ 0x8000000000000000 := hcount
    have hrest := @evalCases_branchCases σ k limit body below label message
      readers frame n hlong hn rest (tag + 1) (by omega)
    rw [branchCases_cons_union]
    cases branchCase? writer label reader readers branch with
    | none => exact hrest
    | some c =>
      rw [Option.map_some, Option.getD_some, evalCases, Cases.at?]
      by_cases htag : n = tag
      · rw [if_pos htag, if_pos (hlong.trans (congrArg Int64.ofNat htag))]
      · -- The frame has the tag as a long, and so large a list of branches that
        -- two tags are one long is excluded by `hcount`.
        have hne : frame.long ≠ Int64.ofNat tag := by
          rw [hlong]
          rcases Nat.lt_or_gt_of_ne htag with hlt | hlt
          · exact Int64.ofNat_ne_of_lt hlt (by omega)
          · exact (Int64.ofNat_ne_of_lt hlt hn).symm
        rw [if_neg htag, if_neg hne]
        exact hrest

/-- A plan that reads a union as a union is a switch over the cases of its
branches, if there is a case for some tag. -/
theorem deliver_union_union {label : String} {branches readers : List TypeExpr}
    {n : Nat} {c : Option Nat × Plan}
    (h : branches[n]?.bind (branchCase? writer label reader readers)
      = some c) :
    ∃ message cases,
      deliver writer (.union branches) reader (.union readers) label
        = .seq (read .long label) (.switch label message cases)
      ∧ cases.at? n = some c := by
  have hcase := @at?_branchCases writer reader label readers branches 0 n
  rw [Nat.zero_add, h] at hcase
  have hsome : noCases (branchCases writer label 0 branches reader
      (.union readers)) = false := by
    cases hcases : branchCases writer label 0 branches reader
      (.union readers) with
    | none =>
      rw [hcases] at hcase
      cases hcase
    | case => rfl
  rw [deliver]
  simp only [Schema.shape?, hsome]
  exact ⟨_, _, rfl, hcase⟩

/-- A choice goes on with the branch that is picked. -/
theorem choosingBranch_getElem? {w : TypeExpr} {label : String}
    {pick : List TypeExpr → Option Nat} {leaf : TypeExpr → Plan}
    {index : Nat} {r : TypeExpr} :
    ∀ {branches : List TypeExpr} {position : Nat},
      branches[position]? = some r →
      choosingBranch w label pick leaf index position branches
        = entering r index label (choosing w label pick leaf r)
  | [], _, h => absurd h (by simp)
  | branch :: _, 0, h => by
    rw [choosingBranch, Option.some.inj h]
  | _ :: rest, position + 1, h => by
    rw [choosingBranch]
    exact choosingBranch_getElem? h

/-- A named type that is read as a union selects the branch that receives it
and goes on with this branch. -/
theorem deliver_named_union {w : FullName} {wd : Definition}
    (hw : writer.definition? w = some wd) {readers : List TypeExpr}
    {index : Nat} {r : TypeExpr}
    (hindex : writer.branchFor? (.named w) reader readers = some index)
    (hr : readers[index]? = some r) (label : String) :
    deliver writer (.named w) reader (.union readers) label
      = Code.sequence
        [.op ⟨.multLong, 0, label⟩, .op ⟨.addLong, Int64.ofNat index, label⟩,
         set .long label,
         entering r index label (deliver writer (.named w) reader r label)] := by
  have hshape : writer.shape? (.named w) = some wd.shape := by
    rw [Schema.shape?_eq, hw]
    rfl
  rw [deliver, deliver, hshape]
  simp only [choosing, hindex, choosingBranch_getElem? hr]

end Plan

/-! ## The branch with the written name -/

/-- **Who receives data of a named type**, in a union with a branch of its
name: some branch does, and it is the written name if and only if nothing that
answers to the name is before some branch of this name. A writer's type that
is no union selects the branch and enters it, and the tag of a branch of a
writer's union is rewritten to it.

For a schema that is compiled for itself the two unions are one, and a named
branch is sent to itself if and only if no branch before it answers. -/
theorem Schema.ownName_received {w : FullName} {wd rd : Definition}
    (hw : writer.definition? w = some wd) (hr : reader.definition? w = some rd)
    (hkind : rd.kind = wd.kind) {readers : List TypeExpr}
    (hown : .named w ∈ readers) :
    ∃ index r, writer.branchFor? (.named w) reader readers = some index
      ∧ readers[index]? = some r
      ∧ (r = .named w ↔ ∃ before after,
        readers = before ++ .named w :: after
          ∧ reader.Unrivalled wd.kind w before)
      ∧ (∀ own, readers[own]? = some (.named w) →
        (index = own ↔ reader.Unrivalled wd.kind w (readers.take own)))
      ∧ (∀ label, Plan.deliver writer (.named w) reader (.union readers) label
        = Code.sequence
          [.op ⟨.multLong, 0, label⟩,
           .op ⟨.addLong, Int64.ofNat index, label⟩, Plan.set .long label,
           Plan.entering r index label
             (Plan.deliver writer (.named w) reader r label)])
      ∧ ∀ branches tag label, branches[tag]? = some (.named w) →
        ∃ message cases,
          Plan.deliver writer (.union branches) reader (.union readers) label
            = .seq (Plan.read .long label) (.switch label message cases)
          ∧ cases.at? tag = some (some index, Plan.entering r index label
            (Plan.deliver writer (.named w) reader r label)) := by
  obtain ⟨index, hindex, -⟩ := branchFor?_of_exact
    ⟨_, hown, exact_ownName hw hr hkind⟩
  obtain ⟨r, hget⟩ : ∃ r, readers[index]? = some r :=
    ⟨_, List.getElem?_eq_getElem (Plan.branchFor?_lt hindex)⟩
  refine ⟨index, r, hindex, hget, ?_, fun own hget' => ?_,
    Plan.deliver_named_union hw hindex hget, fun branches tag label hbranch => ?_⟩
  · rw [← getElem?_branchFor?_iff hw hr hkind hindex, hget, Option.some.injEq]
  · rw [← branchFor?_eq_own_iff hw hr hkind hget', hindex, Option.some.injEq]
  · refine Plan.deliver_union_union ?_
    simp [hbranch, Plan.branchCase?, hindex, hget]

/-! ## Records of one name in two namespaces -/

namespace Namesakes

/-- The document. -/
def text : String :=
  "[\x7b\"type\":\"record\",\"name\":\"a.X\"," ++
    "\"fields\":[\x7b\"name\":\"f\",\"type\":\"int\"\x7d]\x7d," ++
    "\x7b\"type\":\"record\",\"name\":\"b.X\"," ++
    "\"fields\":[\x7b\"name\":\"f\",\"type\":\"int\"\x7d]\x7d]"

/-- The record of a namespace. -/
def record (space : String) : RecordType :=
  ⟨⟨"X", space⟩, [], [⟨"f", .primitive .int, [], none, none⟩], none⟩

/-- The branches. -/
def branches : List TypeExpr := [.named ⟨"X", "a"⟩, .named ⟨"X", "b"⟩]

/-- The schema. -/
def schema : Schema where
  root := .union branches
  definitions := [.record (record "a"), .record (record "b")]
  source := text

theorem parse_text : Schema.parse text = .ok schema := by
  have hchars : text.toList = _ :=
    toList_append_eq (toList_append_eq (toList_append_eq
      String.toList_ofList String.toList_ofList) String.toList_ofList)
      String.toList_ofList
  rw [Schema.parse, Json.parse, hchars]
  cbv

/-- A value of one of the branches. -/
def value (index : Nat) : Value := .union index (.record [("f", .int 5)])

/-- What a run over the bytes of the second branch delivers. -/
def run : Option (Program × Outcome Builder Unit) :=
  (compile schema schema).toOption.bind fun p =>
    (p.run (Builder.sink schema) 1000 100
      (Input.ofBytes (schema.encode (value 1)).bytes)
      (Builder.fresh schema schema.root)).map fun o => (p, o)

theorem run_delivers : run.any (fun x =>
    (x.2.state.value? schema).toOption.any (·.equals (value 0))) = true := by
  decide +kernel

end Namesakes

/-- The first of two namesakes is sent to itself. -/
theorem Schema.ownName_received_namesakes :
    Namesakes.schema.definition? ⟨"X", "a"⟩
      = some (.record (Namesakes.record "a"))
    ∧ .named ⟨"X", "a"⟩ ∈ Namesakes.branches
    ∧ Namesakes.schema.branchFor? (.named ⟨"X", "a"⟩) Namesakes.schema
      Namesakes.branches = some 0 := by
  have hd : Namesakes.schema.definition? ⟨"X", "a"⟩
      = some (.record (Namesakes.record "a")) := rfl
  have hown : TypeExpr.named ⟨"X", "a"⟩ ∈ Namesakes.branches :=
    List.mem_cons_self
  obtain ⟨index, r, hindex, -, -, hself, -⟩ :=
    Schema.ownName_received hd hd rfl hown
  have hzero : index = 0 :=
    (hself 0 rfl).mpr fun _ _ h => absurd h List.not_mem_nil
  exact ⟨hd, hown, hzero ▸ hindex⟩

/-- **The second of two namesakes is sent to the first**, although the union
has a branch of its own name: its data is delivered as data of the other. -/
theorem Namesakes.misled :
    (∃ source, Schema.parse source = .ok Namesakes.schema)
    ∧ Namesakes.schema.root = .union Namesakes.branches
    ∧ Namesakes.branches[1]? = some (.named ⟨"X", "b"⟩)
    ∧ Namesakes.schema.definition? ⟨"X", "b"⟩
      = some (.record (Namesakes.record "b"))
    ∧ Namesakes.schema.branchFor? (.named ⟨"X", "b"⟩) Namesakes.schema
      Namesakes.branches = some 0
    ∧ Namesakes.branches[0]? ≠ some (.named ⟨"X", "b"⟩)
    ∧ ∃ p o v, compile Namesakes.schema Namesakes.schema = .ok p
      ∧ p.run (Builder.sink Namesakes.schema) 1000 100
        (Input.ofBytes (Namesakes.schema.encode (Namesakes.value 1)).bytes)
        (Builder.fresh Namesakes.schema Namesakes.schema.root) = some o
      ∧ o.state.value? Namesakes.schema = .ok v
      ∧ v.equals (Namesakes.value 0) = true
      ∧ (Namesakes.value 0).equals (Namesakes.value 1) = false := by
  refine ⟨⟨_, Namesakes.parse_text⟩, rfl, rfl, rfl, by decide, by decide, ?_⟩
  obtain ⟨⟨p, o⟩, hrun, hany⟩ :=
    (Option.any_eq_true _ _).mp Namesakes.run_delivers
  obtain ⟨v, hv, hequals⟩ := (Option.any_eq_true _ _).mp hany
  unfold Namesakes.run at hrun
  obtain ⟨p', hp, hrest⟩ := Option.bind_eq_some_iff.mp hrun
  obtain ⟨o', ho, hpair⟩ := Option.map_eq_some_iff.mp hrest
  obtain ⟨rfl, rfl⟩ := Prod.mk.inj hpair
  exact ⟨p', o', v, toOption_eq_some hp, ho, toOption_eq_some hv, hequals,
    by decide⟩

end Avro
