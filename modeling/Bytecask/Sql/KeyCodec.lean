import Bytecask.Sql.FloatFormat
import Bytecask.Wire

/-! The encoding of typed values in keys: each part so that comparing bytes compares values, and so that a key parses
back without lengths. -/

namespace Bytecask.Sql

inductive PhysType where
  | i64
  | f64
  | bool
  | bytes
deriving DecidableEq, Repr

structure KeyPart where
  type : PhysType
  nullable : Bool := false
  desc : Bool := false
  width : ℕ := 8
deriving DecidableEq, Repr

def fixedWidthValid : PhysType → ℕ → Bool
  | .i64, width => width = 2 ∨ width = 4 ∨ width = 8
  | .f64, width => width = 4 ∨ width = 8
  | .bool, width => width = 1
  | .bytes, _ => false

def fitsWidth (v : ℤ) (width : ℕ) : Bool :=
  match width with
  | 2 => -2 ^ 15 ≤ v ∧ v < 2 ^ 15
  | 4 => -2 ^ 31 ≤ v ∧ v < 2 ^ 31
  | 8 => true
  | _ => false

def nullMarker : Byte := 0x00
def presentMarker : Byte := 0x01
def sortNullLast : Byte := 0x02
def escape : Byte := 0xFF

def invert (b : Byte) : Byte := Fin.ofNat 256 (b.val ^^^ 0xFF)

def bitCast (v : ℤ) : ℕ := (v % 2 ^ 64).toNat

def signBitOf (width : ℕ) : ℕ := 1 <<< (8 * width - 1)

def putBe (out : Bytes) (v width : ℕ) : Bytes := out ++ bigEndian width v

def invertFrom (out : Bytes) (start : ℕ) : Bytes := out.take start ++ (out.drop start).map invert

def putMarker (out : Bytes) (part : KeyPart) : Bytes := if part.nullable then out ++ [presentMarker] else out

def finishPart (out : Bytes) (start : ℕ) (part : KeyPart) : Bytes := if part.desc then invertFrom out start else out

def keyPutI64 (out : Bytes) (v : ℤ) (part : KeyPart) : Option Bytes :=
  if fitsWidth v part.width then
    some (finishPart (putBe (putMarker out part) (bitCast v ^^^ signBitOf part.width) part.width) out.length part)
  else none

/-- The value as its bit pattern, that of a REAL as a float's; `none` is `std::invalid_argument`. -/
def keyPutF64 (out : Bytes) (bits : ℕ) (part : KeyPart) : Option Bytes :=
  if fixedWidthValid .f64 part.width then
    let marked := putMarker out part
    let put := if part.width = 4 then putBe marked (f32.toOrdered bits) 4 else putBe marked (f64.toOrdered bits) 8
    some (finishPart put out.length part)
  else none

def keyPutBool (out : Bytes) (v : Bool) (part : KeyPart) : Bytes :=
  finishPart (putMarker out part ++ [if v then 1 else 0]) out.length part

def keyPutBytes (out : Bytes) (v : Bytes) (part : KeyPart) : Bytes :=
  let body := v.foldl (fun out b => if b = 0 then out ++ [b] ++ [escape] else out ++ [b]) (putMarker out part)
  finishPart (body ++ [0] ++ [0]) out.length part

def keyPutNull (out : Bytes) (part : KeyPart) : Bytes := out ++ [if part.desc then invert nullMarker else nullMarker]

def sortPutPresent (out : Bytes) : Bytes := out ++ [presentMarker]

def sortPutNull (out : Bytes) (nullsFirst : Bool) : Bytes := out ++ [if nullsFirst then nullMarker else sortNullLast]

inductive Value where
  | i64 (v : ℤ)
  | f64 (bits : ℕ)
  | bool (v : Bool)
  | bytes (v : Bytes)
deriving DecidableEq, Repr

def putValue (out : Bytes) (part : KeyPart) : Value → Option Bytes
  | .i64 v => keyPutI64 out v part
  | .f64 bits => keyPutF64 out bits part
  | .bool v => some (keyPutBool out v part)
  | .bytes v => some (keyPutBytes out v part)

inductive LayoutPart where
  | key (part : KeyPart)
  | sort (part : KeyPart) (nullsFirst : Bool)
deriving DecidableEq, Repr

namespace LayoutPart

def put (out : Bytes) : LayoutPart → Option Value → Option Bytes
  | .key part, none => some (keyPutNull out part)
  | .key part, some v => putValue out part v
  | .sort _ nullsFirst, none => some (sortPutNull out nullsFirst)
  | .sort part _, some v => putValue (sortPutPresent out) { part with nullable := false } v

end LayoutPart

def encodeFrom (out : Bytes) : List LayoutPart → List (Option Value) → Option Bytes
  | part :: layout, cell :: tuple => do
    let out ← part.put out cell
    encodeFrom out layout tuple
  | _, _ => some out

def encode (layout : List LayoutPart) (tuple : List (Option Value)) : Bytes := (encodeFrom [] layout tuple).getD []

structure KeyReader where
  rest : Bytes
  ok : Bool := true
  null : Bool := false
deriving DecidableEq

namespace KeyReader

def nextByte (r : KeyReader) (desc : Bool) : Option Byte × KeyReader :=
  if r.ok then
    match r.rest with
    | [] => (none, { r with ok := false })
    | b :: rest => (some (if desc then invert b else b), { r with rest := rest })
  else (none, r)

def readBe (desc : Bool) : ℕ → ℕ → KeyReader → Option ℕ × KeyReader
  | 0, u, r => (some u, r)
  | width + 1, u, r =>
    match r.nextByte desc with
    | (none, r) => (none, r)
    | (some b, r) => readBe desc width (u <<< 8 ||| b.val) r

def readMarker (r : KeyReader) (part : KeyPart) : Bool × KeyReader :=
  let r := { r with null := false }
  if !r.ok then (false, r)
  else if !part.nullable then (true, r)
  else
    match r.nextByte part.desc with
    | (none, r) => (false, r)
    | (some m, r) =>
      if m = nullMarker then (false, { r with null := true })
      else if m ≠ presentMarker then (false, { r with ok := false })
      else (true, r)

def toInt64 (u : ℕ) : ℤ := if u % 2 ^ 64 < 2 ^ 63 then (u % 2 ^ 64 : ℕ) else ((u % 2 ^ 64 : ℕ) : ℤ) - 2 ^ 64

def readI64 (r : KeyReader) (part : KeyPart) : Option ℤ × KeyReader :=
  match r.readMarker part with
  | (false, r) => (none, r)
  | (true, r) =>
    if !fixedWidthValid .i64 part.width then (none, { r with ok := false })
    else
      match readBe part.desc part.width 0 r with
      | (none, r) => (none, r)
      -- subtracting the sign bit modulo 2^64 flips it back and extends it in one step
      | (some u, r) => (some (toInt64 (u + 2 ^ 64 - signBitOf part.width)), r)

def readF64 (r : KeyReader) (part : KeyPart) : Option ℕ × KeyReader :=
  match r.readMarker part with
  | (false, r) => (none, r)
  | (true, r) =>
    if !fixedWidthValid .f64 part.width then (none, { r with ok := false })
    else if part.width = 4 then
      match readBe part.desc 4 0 r with
      | (none, r) => (none, r)
      | (some u, r) => (some (f32.ofOrdered u), r)
    else
      match readBe part.desc 8 0 r with
      | (none, r) => (none, r)
      | (some u, r) => (some (f64.ofOrdered u), r)

def readBool (r : KeyReader) (part : KeyPart) : Option Bool × KeyReader :=
  match r.readMarker part with
  | (false, r) => (none, r)
  | (true, r) =>
    match r.nextByte part.desc with
    | (none, r) => (none, r)
    | (some b, r) => if b ≠ 0 ∧ b ≠ 1 then (none, { r with ok := false }) else (some (b = 1), r)

def readBytesLoop (desc null : Bool) : Bytes → Bytes → Option Bytes × KeyReader
  | v, b :: rest =>
    let b := if desc then invert b else b
    if b ≠ 0 then readBytesLoop desc null (v ++ [b]) rest
    else
      match rest with
      | [] => (none, ⟨[], false, null⟩)
      | next :: rest =>
        let next := if desc then invert next else next
        if next = 0 then (some v, ⟨rest, true, null⟩)
        else if next ≠ escape then (none, ⟨rest, false, null⟩)
        else readBytesLoop desc null (v ++ [0]) rest
  | _, [] => (none, ⟨[], false, null⟩)

def readBytes (r : KeyReader) (part : KeyPart) : Option Bytes × KeyReader :=
  match r.readMarker part with
  | (false, r) => (none, r)
  | (true, r) => readBytesLoop part.desc r.null [] r.rest

def readValue (r : KeyReader) (part : KeyPart) : Option Value × KeyReader :=
  match part.type with
  | .i64 => ((r.readI64 part).1.map .i64, (r.readI64 part).2)
  | .f64 => ((r.readF64 part).1.map .f64, (r.readF64 part).2)
  | .bool => ((r.readBool part).1.map .bool, (r.readBool part).2)
  | .bytes => ((r.readBytes part).1.map .bytes, (r.readBytes part).2)

def skip (r : KeyReader) (part : KeyPart) : Bool × KeyReader := ((r.readValue part).2.ok, (r.readValue part).2)

def readTuple (r : KeyReader) : List KeyPart → List (Option Value) × KeyReader
  | [] => ([], r)
  | part :: layout =>
    let (cell, r) := r.readValue part
    let (tuple, r) := r.readTuple layout
    (cell :: tuple, r)

end KeyReader

def successorLoop : Bytes → Bytes
  | [] => []
  | b :: out => if b ≠ 0xFF then (b + 1) :: out else successorLoop out

def keySuccessor (pre : Bytes) : Bytes := (successorLoop pre.reverse).reverse

lemma successorLoop_append (l : Bytes) (b : Byte) :
    successorLoop (l ++ [b]) =
      if successorLoop l = [] then (if b ≠ 0xFF then [b + 1] else []) else successorLoop l ++ [b] := by
  induction l with
  | nil => rfl
  | cons c l ih =>
    rw [List.cons_append, successorLoop, successorLoop, ih]
    by_cases hc : c ≠ 0xFF
    · simp [if_pos hc]
    · simp [if_neg hc]

lemma keySuccessor_cons (b : Byte) (p : Bytes) :
    keySuccessor (b :: p) = if keySuccessor p = [] then (if b ≠ 0xFF then [b + 1] else []) else b :: keySuccessor p := by
  rw [keySuccessor, keySuccessor, List.reverse_cons, successorLoop_append]
  by_cases hp : successorLoop p.reverse = []
  · by_cases hb : b = 0xFF <;> simp [hp, hb]
  · simp [hp]

end Bytecask.Sql
