import Avro.Proofs.Decoding.Entries
import Avro.Proofs.Decoding.Programs
import Avro.Proofs.Plan.Layout
import Avro.Proofs.Plan.Requested
import Avro.Proofs.Resolution.Items

/-!
# Chunks do not matter to programs

The items of an array or a map may be cut into chunks in many ways, and a
program does the same for all of them. To say so, what a loop does with items
must be said without chunks: a round is what the machine does from behind the
header of the loop to its end, one level below (`Program.Round`), and a loop
over items is one round for each (`OnItems`).

A loop does with all bytes of some items what its rounds do with the items
(`Program.Loops`). It makes the same calls on any sink, leaves the same of the
input, and fails where a round fails. A header alone stands for as many rounds
as the magnitude of its number, whatever the rounds do. The least long, which
has no positive counterpart, is no exception: counting down from it wraps
around and ends after as many rounds.

`compile_chunks` says this of every loop of a program, in the main code or in a
method, but only if methods of one name read the same record of the writer
(`NamesTellRecords`). Names with arrows may violate this. `Arrows` is a pair of
schemas where they do: the items of an array are read as something else than
they are, and where chunks end begins to matter.
-/

namespace Avro

namespace Program

variable {σ : Type} {p : Program} {k : Sink σ} {maxDepth depth : Nat}

/-! ## Rounds of the machine -/

variable (p k maxDepth depth) in
/-- **What a round of a loop does** that stands at an address and has a size: a
level below, which starts behind the header with blank registers, closes where
the end of the loop begins, or fails. Without a level left it fails at once. -/
def Round (a size : Nat) (s : Input × σ) :
    EStateM.Result ExecutionCause (Input × σ) Unit → Prop
  | .ok () t => depth < maxDepth
    ∧ p.Ends k maxDepth (depth + 1) (a + Code.headerSize) .blank s.1 s.2
      ⟨.ok (a + size - Code.footerSize), t.1, t.2⟩
  | .error cause t =>
    if depth < maxDepth then
      ∃ e : ExecutionError, e.cause = cause
        ∧ p.Ends k maxDepth (depth + 1) (a + Code.headerSize) .blank s.1 s.2
          ⟨.error e, t.1, t.2⟩
    else cause = .tooDeep (depth + 1) maxDepth ∧ t = s

/-- A round has one result. -/
theorem Round.unique {a size : Nat} (s : Input × σ)
    (r r' : EStateM.Result ExecutionCause (Input × σ) Unit)
    (h : p.Round k maxDepth depth a size s r)
    (h' : p.Round k maxDepth depth a size s r') : r = r' := by
  by_cases hd : depth < maxDepth
  · cases r with
    | ok _ t =>
      cases r' with
      | ok _ t' =>
        obtain ⟨-, h⟩ := h
        obtain ⟨-, h'⟩ := h'
        obtain ⟨-, hinput, hstate⟩ := Outcome.mk.inj (h.unique h')
        rw [Prod.ext hinput hstate]
      | error cause' t' =>
        simp only [Round, if_pos hd] at h h'
        obtain ⟨e, -, h'⟩ := h'
        exact absurd (h.2.unique h') (by simp)
    | error cause t =>
      simp only [Round, if_pos hd] at h
      obtain ⟨e, hcause, h⟩ := h
      cases r' with
      | ok _ t' => exact absurd (h'.2.unique h) (by simp)
      | error cause' t' =>
        simp only [Round, if_pos hd] at h'
        obtain ⟨e', hcause', h'⟩ := h'
        obtain ⟨he, hinput, hstate⟩ := Outcome.mk.inj (h.unique h')
        rw [← hcause, ← hcause', Except.error.inj he, Prod.ext hinput hstate]
  · cases r with
    | ok _ t => exact absurd h.1 hd
    | error cause t =>
      cases r' with
      | ok _ t' => exact absurd h'.1 hd
      | error cause' t' =>
        simp only [Round, if_neg hd] at h h'
        rw [h.1, h.2, h'.1, h'.2]

variable {body : Demand → Plan} {R : Demand → Prop}
  {address : String → Nat} {levels : Nat}

/-- **The rounds of a loop are those of its plan.** -/
theorem Realizes.round (hp : p.Realizes body R address)
    (hdepth : depth + levels = maxDepth) {label : String} {inner : Plan}
    {inner' : LinkedCode} (hlinked : Linked R p.errors inner inner') {a : Nat}
    (hcode : p.Holds a (Code.lower address a (.blocks label inner')))
    (s : Input × σ) {size : Nat}
    (hsize : size = (Code.blocks label inner : Plan).size) :
    p.Round k maxDepth depth a size s
      (Plan.beneath maxDepth (Plan.evalBelow k maxDepth body levels) inner
        s) := by
  obtain ⟨-, hinner, hfoot⟩ := hcode.blocks
  cases levels with
  | zero =>
    obtain rfl : depth = maxDepth := hdepth
    show if depth < depth then _ else _
    rw [if_neg (Nat.lt_irrefl depth)]
    exact ⟨rfl, rfl⟩
  | succ l =>
    have hlt : depth < maxDepth := by omega
    have hlevels : depth + 1 + l = maxDepth := by omega
    have hround := hp.performs_eval (k := k) hlevels hlinked hinner .blank s
    have hbeneath : Plan.beneath maxDepth
        (Plan.evalBelow k maxDepth body (l + 1)) inner s
        = (do
          let _ ← Plan.eval k maxDepth body l inner .blank
          return ()) s := rfl
    have hstop : a + size - Code.footerSize = a + 8 + inner'.size := by
      rw [hsize, Code.size, hlinked.size_eq]
      simp only [Code.headerSize, Code.footerSize]
      omega
    cases hr : Plan.eval k maxDepth body l inner .blank s with
    | error cause t =>
      rw [hbeneath, Running.bind_error hr]
      rw [hr] at hround
      show if depth < maxDepth then _ else _
      rw [if_pos hlt]
      exact hround
    | ok frame t =>
      rw [hbeneath, Running.bind_ok hr]
      rw [hr] at hround
      refine ⟨hlt, ?_⟩
      rw [hstop]
      exact hround _ (.close (hfoot.get (n := 0) rfl) rfl)

/-- **A number of rounds**, one after another. The first one that fails is the
last. -/
inductive Rounds (Round : Input × σ →
    EStateM.Result ExecutionCause (Input × σ) Unit → Prop) :
    Nat → Input × σ → EStateM.Result ExecutionCause (Input × σ) Unit → Prop
  /-- There are no more rounds. -/
  | done (s : Input × σ) : Rounds Round 0 s (.ok () s)
  /-- A round that succeeds. -/
  | next {count : Nat} {s t : Input × σ}
    {result : EStateM.Result ExecutionCause (Input × σ) Unit} :
    Round s (.ok () t) → Rounds Round count t result →
    Rounds Round (count + 1) s result
  /-- A round that fails. -/
  | fail {count : Nat} {s t : Input × σ} {cause : ExecutionCause} :
    Round s (.error cause t) → Rounds Round (count + 1) s (.error cause t)

/-- What rounds do that are computations. -/
theorem Rounds.of_rounds {Round : Input × σ →
      EStateM.Result ExecutionCause (Input × σ) Unit → Prop}
    {round : Running σ Unit} (h : ∀ s, Round s (round s)) (count : Nat)
    (s : Input × σ) : Rounds Round count s (Running.rounds round count s) := by
  induction count generalizing s with
  | zero => exact .done s
  | succ count ih =>
    have hround := h s
    cases hr : round s with
    | error cause t =>
      rw [hr] at hround
      rw [Running.rounds_error hr]
      exact .fail hround
    | ok u t =>
      rw [hr] at hround
      rw [Running.rounds_ok hr]
      exact .next hround (ih t)

/-! ## Loops -/

/-- **A loop of a program**, which stands at an address and has a size, over
items. -/
structure Loops (p : Program) (a size : Nat) (Item : List UInt8 → Prop) :
    Prop where
  /-- What the rounds do with items is what the loop does with these items in
  any chunks. -/
  chunks : ∀ {σ : Type} (k : Sink σ) {maxDepth depth : Nat},
    depth ≤ maxDepth → ∀ {items : List (List UInt8)},
    (∀ item ∈ items, Item item) → ∀ s, ∃ result,
    OnItems (p.Round k maxDepth depth a size) items s result
    ∧ ∀ bytes, Wire.Chunked items bytes → ∀ (frame : Frame) (rest : Input),
      match result with
      | .ok () t =>
        p.Performs k maxDepth depth a frame (rest.prepend bytes, s) (a + size)
          (.ok { frame with long := 0, condition := true } (rest, t))
      | .error cause t => ∃ left,
        p.Performs k maxDepth depth a frame (rest.prepend bytes, s) (a + size)
          (.error cause (left, t))
  /-- A header stands for as many rounds as the magnitude of its number says,
  after which the loop is at its beginning again. -/
  count : ∀ {σ : Type} (k : Sink σ) {maxDepth depth : Nat},
    depth ≤ maxDepth → ∀ {n : Int64} {header : List UInt8},
    Wire.BlockHeader n header → ∀ (input : Input) (s : σ), ∃ result,
    Rounds (p.Round k maxDepth depth a size) n.toInt.natAbs (input, s) result
    ∧ ∀ frame : Frame,
      match result with
      | .ok () t =>
        p.Performs k maxDepth depth a frame (input.prepend header, s) a
          (.ok { frame with long := 0, condition := true } t)
      | .error cause t =>
        p.Performs k maxDepth depth a frame (input.prepend header, s) a
          (.error cause t)

variable {writer reader : Schema}

/-- A loop over a type, wherever it stands in a program. -/
theorem Realizes.loops (hp : p.Realizes body R address)
    (hwriter : writer.Fits) (hreads : Plan.ReadsDemands writer reader body R)
    {plan : Plan} {code : LinkedCode} (hlinked : Linked R p.errors plan code)
    {a : Nat} (hcode : p.Holds a (Code.lower address a code)) {t : TypeExpr}
    (hloop : plan.LoopOver writer reader t) (ht : t.Fits) :
    p.Loops a plan.size (writer.Item t) := by
  obtain ⟨label, inner, rfl, hitems⟩ :=
    hloop.exists_onItems hwriter hreads ht hlinked.accepted
  cases hlinked with
  | @blocks _ _ inner' hinner =>
  refine ⟨fun {σ} k {maxDepth depth} hdepth {items} hall s => ?_,
    fun {σ} k {maxDepth depth} hdepth {n header} hheader input s => ?_⟩
  all_goals
    obtain ⟨levels, hlevels⟩ : ∃ levels, depth + levels = maxDepth :=
      ⟨maxDepth - depth, by omega⟩
    have hround : ∀ s : Input × σ, p.Round k maxDepth depth a
        (Code.blocks label inner : Plan).size s
        (Plan.beneath maxDepth (Plan.evalBelow k maxDepth body levels) inner
          s) := fun s => hp.round hlevels hinner hcode s rfl
  · obtain ⟨result, hon⟩ := hitems k maxDepth levels hall s
    refine ⟨result, hon.mono fun s r hr => hr ▸ hround s,
      fun bytes hchunks frame rest => ?_⟩
    have hblocks := Running.blocks_chunked hchunks hon rest
    have hlinked : Linked R p.errors (.blocks label inner)
        (.blocks label inner') := .blocks hinner
    have hperforms := hp.performs_eval (k := k) hlevels hlinked hcode frame
      (rest.prepend bytes, s)
    rw [hlinked.size_eq, Plan.eval_eq, Plan.evalWith] at hperforms
    cases result with
    | ok _ t =>
      rw [Running.bind_ok hblocks] at hperforms
      exact hperforms
    | error cause t =>
      obtain ⟨left, hblocks⟩ := hblocks
      rw [Running.bind_error hblocks] at hperforms
      exact ⟨left, hperforms⟩
  · refine ⟨_, Rounds.of_rounds hround _ _, fun frame => ?_⟩
    obtain ⟨hhead, -, hfoot⟩ := hcode.blocks
    have hle : a + 8 + inner'.size + 5 ≤ p.instructions.size :=
      hfoot.length_le
    have hsize := hp.size_lt
    obtain ⟨m, hm⟩ : ∃ m, n.toInt.natAbs = m + 1 :=
      Nat.exists_eq_add_one.mpr hheader.natAbs_pos
    have hread : HeaderDoes p k maxDepth depth a (a + inner'.size + 13)
        frame (input.prepend header, s)
        (Running.blockCount (input.prepend header, s)) :=
      performs_header hhead (by omega) (by omega) (input.prepend header, s)
    rw [Running.blockCount_header hheader, hm] at hread
    obtain ⟨hcount, c, -, hperforms⟩ := hread
    rw [if_neg (Nat.succ_ne_zero m)] at hperforms
    have hrounds := performs_rounds hp.size_lt hcode
      (performs_round hlevels (hp.performsBelow (k := k) hlevels) hinner hcode)
      frame m (by omega) c (input, s)
    rw [hm]
    cases hr : Running.rounds (Plan.beneath maxDepth
        (Plan.evalBelow k maxDepth body levels) inner) (m + 1) (input, s) with
    | ok _ t =>
      rw [Running.bind_ok hr] at hrounds
      exact .of_ends hperforms hrounds
    | error cause t =>
      rw [Running.bind_error hr] at hrounds
      exact .of_ends hperforms hrounds

/-- **A loop that delivers a map keeps the last entry of a key.** The value of
what it leaves in a builder is the map of the entries, of which each item
leaves one on its own, read one by one. -/
def KeepsLast (p : Program) (reader : Schema) (r : TypeExpr) (a size : Nat) :
    Prop :=
  ∀ {maxDepth depth : Nat}, depth ≤ maxDepth →
    ∀ {items : List (List UInt8)} {b : Builder} {v : Value},
    OnItems (p.Round (Builder.sink reader) maxDepth depth a size) items
      (Builder.fresh reader (.map r)) (.ok () b) →
    b.value? reader = .ok v →
    ∃ pairs : List (String × Value), v = .map (Entries.ofList pairs)
      ∧ List.Forall₂ (fun item pair => ∃ b',
        OnItems (p.Round (Builder.sink reader) maxDepth depth a size) [item]
          (Builder.fresh reader (.map r)) (.ok () b')
        ∧ b'.value? reader = .ok (.map [pair])) items pairs
      ∧ ∀ key, Entries.find? key (Entries.ofList pairs)
        = Entries.find? key pairs.reverse

/-- A loop that delivers a map, wherever it stands in a program. -/
theorem Realizes.keepsLast (hp : p.Realizes body R address) {w r : TypeExpr}
    {label : String} {code : LinkedCode} (hlinked : Linked R p.errors
      (Plan.deliver writer (.map w) reader (.map r) label) code) {a : Nat}
    (hcode : p.Holds a (Code.lower address a code)) :
    p.KeepsLast reader r a
      (Plan.deliver writer (.map w) reader (.map r) label).size := by
  rw [Plan.deliver_map] at hlinked ⊢
  cases hlinked with
  | @blocks _ _ inner' hinner =>
  intro maxDepth depth hdepth items b v hitems hv
  obtain ⟨levels, hlevels⟩ : ∃ levels, depth + levels = maxDepth :=
    ⟨maxDepth - depth, by omega⟩
  have hround := fun s => hp.round (k := Builder.sink reader) hlevels hinner
    hcode s rfl
  have heval := hitems.mono fun s r hr => (hround s).unique _ _ _ hr
  obtain ⟨pairs, rfl, hpairs⟩ :=
    heval.value?_entries Plan.leavesEntry_beneath hv
  exact ⟨pairs, rfl, hpairs.imp fun item pair ⟨b', hitem, hv⟩ =>
    ⟨b', hitem.mono fun s r hr => hr ▸ hround s, hv⟩,
    fun key => Entries.find?_ofList key pairs⟩

end Program

/-! ## Compiled programs -/

section

variable {writer reader : Schema}

/-- **Names tell records apart**: methods of one name read the same record of
the writer. -/
def NamesTellRecords (D : Demand → Prop) : Prop :=
  ∀ d d' : Demand, D d → D d' → d.methodName = d'.methodName →
    d.written = d'.written

/-- Names without arrows tell records apart. -/
theorem namesTellRecords_of_not_hasArrow (hwriter : writer.WellFormed)
    (harrow : ∀ name, writer.HasRecord name → ¬ HasArrow name.text) :
    NamesTellRecords (Demand.OfRecords writer reader) := by
  intro d d' hd hd' heq
  have hrecord : ∀ {d : Demand}, d.OfRecords writer reader →
      writer.HasRecord d.written ∧ d.source = d.written.text := fun {d} h =>
    match d, h with
    | .deliver _ _, h => ⟨h.1, rfl⟩
    | .discard _, h => ⟨h, rfl⟩
  obtain ⟨hrec, hsource⟩ := hrecord hd
  obtain ⟨hrec', hsource'⟩ := hrecord hd'
  rcases Demand.methodName_eq_iff.mp heq with ⟨hs, -⟩ | ⟨x, hs, -⟩ | ⟨x, hs, -⟩
  · rw [hsource, hsource'] at hs
    obtain ⟨r, hr⟩ := hrec
    obtain ⟨r', hr'⟩ := hrec'
    exact hwriter.text_inj hwriter hr hr' hs
  · rw [hsource'] at hs
    exact absurd (hs ▸ hasArrow_append d.source x) (harrow _ hrec')
  · rw [hsource] at hs
    exact absurd (hs ▸ hasArrow_append d'.source x) (harrow _ hrec)

/-- **Chunks do not matter to compiled programs.** Every loop of the program of
two schemas, over an array or a map that is delivered or discarded, in the main
code or in that of a method, does with items in any chunks what its rounds do
with the items, one after another, and a number at the head of a chunk stands
for as many rounds as its magnitude. Of a key that comes twice, a map keeps
the last entry. -/
theorem compile_chunks {p : Program} (h : compile writer reader = .ok p)
    (hfits : p.Fits) (hwriter : writer.Fits)
    (hnames : NamesTellRecords (Demand.Requested writer reader)) :
    ∃ body : Demand → Plan,
      (∀ d : Demand, d.Requested writer reader → ∃ d' : Demand,
        d'.Requested writer reader ∧ d'.methodName = d.methodName
        ∧ body d = d'.body writer reader)
      ∧ (∀ plan a t, p.Places body (mainPlan writer reader) plan a →
        plan.LoopOver writer reader t → t.Fits →
        p.Loops a plan.size (writer.Item t))
      ∧ ∀ w r label a, p.Places body (mainPlan writer reader)
          (Plan.deliver writer (.map w) reader (.map r) label) a →
        p.KeepsLast reader r a
          (Plan.deliver writer (.map w) reader (.map r) label).size := by
  obtain ⟨body, R, address, code, hbody, hR, haccepted, hp, hlinked, hcode⟩ :=
    Plan.program_realizes encloses_requested h hfits
  have hreads : Plan.ReadsDemands writer reader body R := by
    refine ⟨fun d hd => ?_, haccepted⟩
    obtain ⟨d', hd', hname, heq⟩ := hbody d
    have hd' := hd' (hR d hd)
    exact ⟨d', hd'.ofRecords, hnames d' d hd' (hR d hd) hname, heq⟩
  refine ⟨body, fun d hd => ?_, fun plan a t hplace hloop ht => ?_,
    fun w r label a hplace => ?_⟩
  · obtain ⟨d', hd', hname, heq⟩ := hbody d
    exact ⟨d', hd' hd, hname, heq⟩
  · obtain ⟨code, hlinked, hcode⟩ :=
      hplace.exists_linked hp hlinked hcode.left
    exact hp.loops hwriter hreads hlinked hcode hloop ht
  · obtain ⟨code, hlinked, hcode⟩ :=
      hplace.exists_linked hp hlinked hcode.left
    exact hp.keepsLast hlinked hcode

end

/-! ## Arrays in a map -/

namespace Grid

/-- A map of arrays of integers. -/
def schema : Schema where
  root := .map (.array (.primitive .int))
  definitions := []
  source := "\x7b\"type\":\"map\",\"values\":" ++
    "\x7b\"type\":\"array\",\"items\":\"int\"\x7d\x7d"

theorem parse_source : Schema.parse schema.source = .ok schema := by
  have hchars : schema.source.toList = _ :=
    toList_append_eq String.toList_ofList String.toList_ofList
  rw [Schema.parse, Json.parse, hchars]
  cbv

theorem size_compile : (compile schema schema).map (fun p =>
    (p.instructions.size, p.errors.length)) = .ok (34, 0) := by cbv

/-- The map stands in front, and the array behind the header of the map, the
read of a key, and the instruction that opens an entry. -/
theorem places_main (p : Program) (body : Demand → Plan) :
    p.Places body (mainPlan schema schema)
        (Plan.deliver schema (.map (.array (.primitive .int))) schema
          (.map (.array (.primitive .int))) "root") 0
      ∧ p.Places body (mainPlan schema schema)
        (Plan.deliver schema (.array (.primitive .int)) schema
          (.array (.primitive .int)) (Plan.partLabel "root")) 10 := by
  have hmain : p.Places body (mainPlan schema schema)
      (Plan.deliver schema (.map (.array (.primitive .int))) schema
        (.map (.array (.primitive .int))) "root") 0 := .main
  refine ⟨hmain, ?_⟩
  rw [Plan.deliver_map] at hmain
  exact hmain.blocks.second.within

theorem size_map : (Plan.deliver schema (.map (.array (.primitive .int))) schema
    (.map (.array (.primitive .int))) "root").size = 33 := by cbv

theorem size_array : (Plan.deliver schema (.array (.primitive .int)) schema
    (.array (.primitive .int)) (Plan.partLabel "root")).size = 17 := by cbv

/-- Both loops of the program do not depend on chunks, and the map keeps the
last array of a key. -/
theorem loops_main : ∃ p, compile schema schema = .ok p
    ∧ p.Loops 0 33 (schema.Item (.map (.array (.primitive .int))))
    ∧ p.Loops 10 17 (schema.Item (.array (.primitive .int)))
    ∧ p.KeepsLast schema (.array (.primitive .int)) 0 33 := by
  obtain ⟨p, hp, hsize⟩ := exists_of_map_ok size_compile
  obtain ⟨hsize, hmessages⟩ := Prod.mk.inj hsize
  have hfits : schema.Fits := ⟨trivial, nofun⟩
  have hnames : NamesTellRecords (Demand.OfRecords schema schema) :=
    namesTellRecords_of_not_hasArrow (Schema.parse_wellFormed parse_source)
      fun name ⟨r, hr⟩ => absurd hr nofun
  obtain ⟨body, -, hloops, hlast⟩ := compile_chunks hp ⟨by omega, by omega⟩
    hfits fun d d' hd hd' => hnames d d' hd.ofRecords hd'.ofRecords
  obtain ⟨hmap, harray⟩ := places_main p body
  refine ⟨p, hp, ?_, ?_, ?_⟩
  · exact size_map ▸ hloops _ _ _ hmap (.deliverMap _ _ _) trivial
  · exact size_array ▸ hloops _ _ _ harray (.deliverArray _ _ _) trivial
  · exact size_map ▸ hlast _ _ _ _ hmap

end Grid

/-! ## Two schemas with arrows

The method that delivers a record `A` into `B->C` has the name of the method
that delivers a record `A->B` into `C`. The first one is compiled, so the
items of an array of the second are read as records of the first: not as four
bytes each, but as some bytes behind their number. Where these end there need
not be an item that begins. -/

namespace Arrows

/-- The document of the writer's schema. -/
def written : String :=
  "[\x7b\"type\":\"record\",\"name\":\"A\"," ++
    "\"fields\":[\x7b\"name\":\"s\",\"type\":\"bytes\"\x7d]\x7d," ++
    "\x7b\"type\":\"array\",\"items\":" ++
    "\x7b\"type\":\"record\",\"name\":\"A->B\"," ++
    "\"fields\":[\x7b\"name\":\"x\",\"type\":\"float\"\x7d]\x7d\x7d]"

/-- The document of the reader's schema. -/
def read : String :=
  "[\x7b\"type\":\"record\",\"name\":\"B->C\"," ++
    "\"aliases\":[\"A\"],\"fields\":[]\x7d," ++
    "\x7b\"type\":\"array\",\"items\":" ++
    "\x7b\"type\":\"record\",\"name\":\"C\"," ++
    "\"aliases\":[\"A->B\"],\"fields\":[]\x7d\x7d]"

/-- The writer's schema. -/
def writer : Schema where
  root := .union [.named ⟨"A", ""⟩, .array (.named ⟨"A->B", ""⟩)]
  definitions :=
    [.record ⟨⟨"A", ""⟩, [], [⟨"s", .primitive .bytes, [], none, none⟩], none⟩,
      .record ⟨⟨"A->B", ""⟩, [],
        [⟨"x", .primitive .float, [], none, none⟩], none⟩]
  source := written

/-- The reader's schema. -/
def reader : Schema where
  root := .union [.named ⟨"B->C", ""⟩, .array (.named ⟨"C", ""⟩)]
  definitions :=
    [.record ⟨⟨"B->C", ""⟩, [⟨"A", ""⟩], [], none⟩,
      .record ⟨⟨"C", ""⟩, [⟨"A->B", ""⟩], [], none⟩]
  source := read

theorem parse_written : Schema.parse written = .ok writer := by
  have hchars : written.toList = _ :=
    toList_append_eq (toList_append_eq (toList_append_eq (toList_append_eq
      String.toList_ofList String.toList_ofList) String.toList_ofList)
      String.toList_ofList) String.toList_ofList
  rw [Schema.parse, Json.parse, hchars]
  cbv

theorem parse_read : Schema.parse read = .ok reader := by
  have hchars : read.toList = _ :=
    toList_append_eq (toList_append_eq (toList_append_eq (toList_append_eq
      String.toList_ofList String.toList_ofList) String.toList_ofList)
      String.toList_ofList) String.toList_ofList
  rw [Schema.parse, Json.parse, hchars]
  cbv

/-- Two items. -/
def items : List (List UInt8) := [[10, 0, 0, 0], [0, 0, 2, 0]]

/-- The items in one chunk. -/
def whole : List UInt8 := [4] ++ [10, 0, 0, 0, 0, 0, 2, 0] ++ [0]

/-- The items in a chunk each. -/
def cut : List UInt8 := [2] ++ [10, 0, 0, 0] ++ ([2] ++ [0, 0, 2, 0] ++ [0])

/-- What is delivered if there are so many items. -/
def received (count : Nat) : Value :=
  .union 1 (.array (List.replicate count (.record [])))

/-- The run over the second branch. -/
def run (array : List UInt8) : Option (Program × Outcome Builder Unit) :=
  (compile writer reader).toOption.bind fun p =>
    (p.run (Builder.sink reader) 1000 100 (Input.ofBytes ([2] ++ array))
      (Builder.fresh reader reader.root)).map fun o => (p, o)

/-- A run succeeds, delivers so many items, and leaves some bytes. -/
def Gives (array : List UInt8) (count : Nat) (left : List UInt8) : Prop :=
  ∃ p o v, compile writer reader = .ok p
    ∧ p.run (Builder.sink reader) 1000 100 (Input.ofBytes ([2] ++ array))
      (Builder.fresh reader reader.root) = some o
    ∧ o.result = .ok () ∧ o.input = Input.ofBytes left
    ∧ o.state.value? reader = .ok v ∧ v.equals (received count) = true

/-- Whether the run shows it. -/
def shows (array : List UInt8) (count : Nat) (left : List UInt8) : Bool :=
  (run array).any fun x => x.2.result.toOption.isSome
    && decide (x.2.input = Input.ofBytes left)
    && (x.2.state.value? reader).toOption.any (·.equals (received count))

/-- What is found out by running. -/
theorem gives_of_shows {array left : List UInt8} {count : Nat}
    (h : shows array count left = true) : Gives array count left := by
  obtain ⟨⟨p, o⟩, hrun, htests⟩ := (Option.any_eq_true _ _).mp h
  obtain ⟨ho, hvalue⟩ := Outcome.eq_of_tests htests
  obtain ⟨v, hv, hequals⟩ := (Option.any_eq_true _ _).mp hvalue
  obtain ⟨p', hp, hrest⟩ := Option.bind_eq_some_iff.mp hrun
  obtain ⟨o', ho', hpair⟩ := Option.map_eq_some_iff.mp hrest
  obtain ⟨rfl, rfl⟩ := Prod.mk.inj hpair
  exact ⟨p', o', v, toOption_eq_some hp, ho', congrArg Outcome.result ho,
    congrArg Outcome.input ho, toOption_eq_some hv, hequals⟩

/-- The items are data of the array. -/
theorem item_of_mem : ∀ item ∈ items,
    writer.Item (.array (.named ⟨"A->B", ""⟩)) item := by
  have hfloat : ∀ a b c d : UInt8,
      writer.Data (.primitive .float) [a, b, c, d] := fun a b c d =>
    .primitive (((Wire.take_prepend [a, b, c, d]).map Binary32.ofBytes).map
      Value.float)
  have hitem : ∀ a b c d : UInt8,
      writer.Data (.named ⟨"A->B", ""⟩) [a, b, c, d] := fun a b c d =>
    @Schema.Data.record writer _ _
      [(⟨"x", .primitive .float, [], none, none⟩, [a, b, c, d])] rfl rfl
      fun x hx => by
        rw [List.mem_singleton.mp hx]
        exact hfloat a b c d
  simp only [items, List.forall_mem_cons]
  exact ⟨hitem 10 0 0 0, hitem 0 0 2 0, nofun⟩

theorem chunked_whole : Wire.Chunked items whole := by
  have hcount : Wire.BlockHeader 2 [4] := .count (by decide) fun _ => rfl
  have hdone : Wire.Chunked [] [0] := .done fun _ => rfl
  exact @Wire.Chunked.chunk items [] 2 [4] [0] hcount rfl hdone

theorem chunked_cut : Wire.Chunked items cut := by
  have hcount : Wire.BlockHeader 1 [2] := .count (by decide) fun _ => rfl
  have hdone : Wire.Chunked [] [0] := .done fun _ => rfl
  have hlast := @Wire.Chunked.chunk [[0, 0, 2, 0]] [] 1 [2] [0] hcount rfl hdone
  exact @Wire.Chunked.chunk [[10, 0, 0, 0]] _ 1 [2] _ hcount rfl hlast

theorem shows_both :
    shows whole 2 [] = true ∧ shows cut 1 [2, 0, 0] = true := by
  decide +kernel

theorem gives_whole : Gives whole 2 [] := gives_of_shows shows_both.1

theorem gives_cut : Gives cut 1 [2, 0, 0] := gives_of_shows shows_both.2

end Arrows

/-- **Chunks that matter**: the same two items in one chunk, and in a chunk
each, are delivered as two records and as one, and the second time some of the
bytes are left. -/
theorem Arrows.chunks_matter :
    (∃ source, Schema.parse source = .ok Arrows.writer)
    ∧ (∃ source, Schema.parse source = .ok Arrows.reader)
    ∧ (∀ item ∈ Arrows.items,
      Arrows.writer.Item (.array (.named ⟨"A->B", ""⟩)) item)
    ∧ Wire.Chunked Arrows.items Arrows.whole
    ∧ Wire.Chunked Arrows.items Arrows.cut
    ∧ Arrows.Gives Arrows.whole 2 [] ∧ Arrows.Gives Arrows.cut 1 [2, 0, 0] :=
  ⟨⟨_, Arrows.parse_written⟩, ⟨_, Arrows.parse_read⟩, Arrows.item_of_mem,
    Arrows.chunked_whole, Arrows.chunked_cut, Arrows.gives_whole,
    Arrows.gives_cut⟩

end Avro
