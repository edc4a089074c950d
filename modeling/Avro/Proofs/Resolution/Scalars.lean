import Avro.Proofs.Resolution.Skipping

/-!
# What is written without parts is resolved

Primitives are read and promoted, symbols of an enum are renumbered, and fixed
values are read as they are: decoding takes the bytes that were written for
the value that they resolve to.

A symbol is written by its position among the writer's symbols, and decoding
finds the case of this number (`EnumType.decodeSymbol_getElem?`), or none, if
the reader has no symbol for it.
-/

namespace Avro

open Decoding (Takes)

/-! ## Primitives -/

section

variable {bytes : List UInt8}

theorem takes_null :
    ∀ q : Primitive, Takes (fun _ _ => Primitive.null.decode q) []
      (Value.null.promote q)
  | .null => .pure Value.null
  | .boolean | .int | .long | .float | .double | .bytes | .string =>
    .rejected []

theorem takes_boolean (b : Bool) :
    ∀ q : Primitive, Takes (fun _ _ => Primitive.boolean.decode q)
      (Wire.boolean b) ((Value.boolean b).promote q)
  | .boolean => .reading ((Wire.readBoolean_boolean b).map Value.boolean)
  | .null | .int | .long | .float | .double | .bytes | .string => .rejected _

theorem takes_int (n : Int32) :
    ∀ q : Primitive, Takes (fun _ _ => Primitive.int.decode q)
      (Wire.integer n.toInt) ((Value.int n).promote q)
  | .int => .reading ((Wire.readInt_integer n).map Value.int)
  | .long => .reading ((Wire.readInt_integer n).map
      fun n => Value.long (Int64.ofInt n.toInt))
  | .float => .reading ((Wire.readInt_integer n).map
      fun n => Value.float (Binary32.ofInt n.toInt))
  | .double => .reading ((Wire.readInt_integer n).map
      fun n => Value.double (Binary64.ofInt n.toInt))
  | .null | .boolean | .bytes | .string => .rejected _

theorem takes_long (n : Int64) :
    ∀ q : Primitive, Takes (fun _ _ => Primitive.long.decode q)
      (Wire.integer n.toInt) ((Value.long n).promote q)
  | .long => .reading ((Wire.readLong_integer n).map Value.long)
  | .float => .reading ((Wire.readLong_integer n).map
      fun n => Value.float (Binary32.ofInt n.toInt))
  | .double => .reading ((Wire.readLong_integer n).map
      fun n => Value.double (Binary64.ofInt n.toInt))
  | .null | .boolean | .int | .bytes | .string => .rejected _

theorem takes_float (x : Binary32) :
    ∀ q : Primitive, Takes (fun _ _ => Primitive.float.decode q)
      x.toBytes ((Value.float x).promote q)
  | .float => .reading ((Wire.readFloat_toBytes x).map Value.float)
  | .double => .reading ((Wire.readFloat_toBytes x).map
      fun x => Value.double x.widen)
  | .null | .boolean | .int | .long | .bytes | .string => .rejected _

theorem takes_double (x : Binary64) :
    ∀ q : Primitive, Takes (fun _ _ => Primitive.double.decode q)
      x.toBytes ((Value.double x).promote q)
  | .double => .reading ((Wire.readDouble_toBytes x).map Value.double)
  | .null | .boolean | .int | .long | .float | .bytes | .string => .rejected _

/-- A byte string that is read as a text is one or not. -/
theorem takes_text {b : List UInt8} (h : Countable b) :
    Takes (fun _ _ => .reading Kind.bytesAsString.readValue) (Wire.bytes b)
      ((Value.bytes b).promote .string) := by
  cases htext : Wire.textOfBytes? b with
  | none =>
    simp only [Value.promote, htext]
    have hcause : ResolutionError.notText.cause = .decode .invalidUtf8 := rfl
    refine .reading_fails hcause fun input => ⟨input, ?_⟩
    simp only [Kind.readValue, Wire.readString, bind, EStateM.bind,
      Wire.readBytes_bytes h input, htext]
    rfl
  | some s =>
    simp only [Value.promote, htext]
    refine .reading fun input => ?_
    simp only [Kind.readValue, Wire.readString, bind, EStateM.bind,
      Wire.readBytes_bytes h input, htext]
    rfl

theorem takes_bytes {b : List UInt8} (h : Countable b) :
    ∀ q : Primitive, Takes (fun _ _ => Primitive.bytes.decode q)
      (Wire.bytes b) ((Value.bytes b).promote q)
  | .bytes => .reading ((Wire.readBytes_bytes h).map Value.bytes)
  | .string => takes_text h
  | .null | .boolean | .int | .long | .float | .double => .rejected _

theorem takes_string {x : String} (h : Countable (utf8 x)) :
    ∀ q : Primitive, Takes (fun _ _ => Primitive.string.decode q)
      (Wire.string x) ((Value.string x).promote q)
  | .string => .reading ((Wire.readString_string h).map Value.string)
  | .bytes => .reading ((Wire.readBytes_bytes h).map Value.bytes)
  | .null | .boolean | .int | .long | .float | .double => .rejected _

end

/-! ## Enums -/

namespace EnumType

/-- Beyond the tag there is no case. -/
theorem decodeSymbol_of_lt {r : EnumType} {message : String} {n : Nat} :
    ∀ {symbols : List String} {tag : Nat}, n < tag →
      tag + symbols.length ≤ 0x8000000000000000 →
      r.decodeSymbol message (Int64.ofNat n) tag symbols = .stop message
  | [], _, _, _ => rfl
  | symbol :: rest, tag, hlt, hcount => by
    have hbound : tag + rest.length + 1 ≤ 0x8000000000000000 := hcount
    have hrest := @decodeSymbol_of_lt r message n rest (tag + 1) (by omega)
      (by omega)
    have hne : Int64.ofNat n ≠ Int64.ofNat tag :=
      Int64.ofNat_ne_of_lt hlt (by omega)
    rw [decodeSymbol_of_ne hne, hrest]

/-- **The case of the number** gives the reader's symbol. -/
theorem decodeSymbol_getElem? {r : EnumType} {message : String} :
    ∀ {symbols : List String} {tag index : Nat} {symbol : String},
      symbols[index]? = some symbol →
      tag + symbols.length ≤ 0x8000000000000000 →
      r.decodeSymbol message (Int64.ofNat (tag + index)) tag symbols
        = match (r.symbolIndex? symbol).or (r.default.bind r.symbolIndex?) with
          | some position =>
            return .enum position (r.symbols.getD position "")
          | none => .stop message
  | [], _, _, _, h, _ => absurd h (by simp)
  | symbol :: rest, tag, 0, _, h, hcount => by
    obtain rfl := Option.some.inj h
    have hbound : tag + rest.length + 1 ≤ 0x8000000000000000 := hcount
    have hrest := @decodeSymbol_of_lt r message tag rest (tag + 1)
      (Nat.lt_succ_self tag) (by omega)
    rw [decodeSymbol, Nat.add_zero, hrest]
    cases (r.symbolIndex? symbol).or (r.default.bind r.symbolIndex?) with
    | some index => exact if_pos rfl
    | none => rfl
  | symbol :: rest, tag, index + 1, _, h, hcount => by
    have hbound : tag + rest.length + 1 ≤ 0x8000000000000000 := hcount
    have hlt : index < rest.length :=
      Nat.lt_of_succ_lt_succ (List.getElem?_eq_some_iff.mp h).1
    have hne : Int64.ofNat (tag + (index + 1)) ≠ Int64.ofNat tag :=
      (Int64.ofNat_ne_of_lt (by omega) (by omega)).symm
    have hrest := @decodeSymbol_getElem? r message rest (tag + 1) index _ h
      (by omega)
    rw [Nat.add_right_comm] at hrest
    rw [decodeSymbol_of_ne hne]
    exact hrest

end EnumType

/-- **A symbol takes the bytes of its number.** -/
theorem EnumType.takes_decode {w r : EnumType} {position : Nat}
    {symbol : String} (h : w.symbolIndex? symbol = some position)
    (hlt : position < 0x80000000) (hcount : Countable w.symbols) :
    Takes (fun _ _ => w.decode r) (Wire.integer position)
      (w.resolveSymbol r symbol) := by
  have hnumber : Int64.ofInt (Int32.ofNat position).toInt
      = Int64.ofNat (0 + position) := by
    rw [Int32.toInt_ofNat_of_lt hlt, Nat.zero_add]
    rfl
  have hcase := @decodeSymbol_getElem? r
    s!"symbol of `{w.name.text}` is not declared by `{r.name.text}`"
    w.symbols 0 position symbol (symbols_getElem? h)
    (by rw [Nat.zero_add]; exact Nat.le_of_lt hcount)
  have hsymbol : Takes (fun _ _ => r.decodeSymbol
      s!"symbol of `{w.name.text}` is not declared by `{r.name.text}`"
      (Int64.ofInt (Int32.ofNat position).toInt) 0 w.symbols) []
      (w.resolveSymbol r symbol) := by
    rw [hnumber, hcase]
    unfold resolveSymbol
    cases (r.symbolIndex? symbol).or (r.default.bind r.symbolIndex?) with
    | some index => exact .pure _
    | none => exact .stop (e := .undeclaredSymbol w r) rfl _
  have htag := Takes.reading (Wire.readInt_natCast hlt)
  rw [← List.append_nil (Wire.integer position)]
  exact htag.bind (f := fun n _ _ => r.decodeSymbol
    s!"symbol of `{w.name.text}` is not declared by `{r.name.text}`"
    (Int64.ofInt n.toInt) 0 w.symbols) (g := fun _ => _) fun _ h =>
      Except.ok.inj h ▸ hsymbol

end Avro
