import Mathlib.Data.Nat.Log
import CqIrc.Message

/-! `format.h`, `format.cc`: what `BasicWriter<char>` writes. The area that `GrowBuffer`
returns is a list of bytes, and a pointer into it an index; integers are written into it
from their last digit, strings after their padding. -/

namespace CqIrc.Fmt

def byte (c : Char) : Byte := UInt8.ofNat c.toNat

inductive Alignment where
  | default
  | left
  | right
  | center
  | numeric
  deriving DecidableEq, Repr

/-- `FormatSpec`; a type of zero is none, and the flags are the bits of `flags_`. -/
structure FormatSpec where
  width : Nat
  fill : Byte
  align : Alignment
  signFlag : Bool
  plusFlag : Bool
  hashFlag : Bool
  type : Byte
  deriving DecidableEq, Repr

def FormatSpec.empty : FormatSpec := ⟨0, sp, .default, false, false, false, 0⟩

inductive FormatError where
  | unmatchedOpen
  | unmatchedClose
  | invalidIndex
  | manualToAutomatic
  | automaticToManual
  | indexOutOfRange
  | numberTooBig
  | invalidFill
  | requiresNumeric (specifier : Byte)
  | requiresSigned (specifier : Byte)
  | negativePrecision
  | precisionNotInteger
  | missingPrecision
  | precisionRequiresFloat
  | unknownType (code : Byte) (type : List Char)
  | nullString
  deriving DecidableEq, Repr

def fillPadding (content : Bytes) (totalSize : Nat) (fill : Byte) : Bytes :=
  let padding := totalSize - content.length
  let leftPadding := padding / 2
  List.replicate leftPadding fill ++ content ++ List.replicate (padding - leftPadding) fill

def formatString (s : Bytes) (spec : FormatSpec) : Bytes :=
  if spec.width > s.length then
    match spec.align with
    | .right => List.replicate (spec.width - s.length) spec.fill ++ s
    | .center => fillPadding s spec.width spec.fill
    | _ => s ++ List.replicate (spec.width - s.length) spec.fill
  else s

def formatChar (c : Byte) (spec : FormatSpec) : Bytes :=
  if spec.width > 1 then
    match spec.align with
    | .right => List.replicate (spec.width - 1) spec.fill ++ [c]
    | .center => fillPadding [c] spec.width spec.fill
    | _ => c :: List.replicate (spec.width - 1) spec.fill
  else [c]

def put (b : Bytes) (i : Nat) (xs : Bytes) : Bytes := b.take i ++ xs ++ b.drop (i + xs.length)

def fill (b : Bytes) (i j : Nat) (c : Byte) : Bytes := put b i (List.replicate (j - i) c)

def growBuffer (n : Nat) : Bytes := List.replicate n nul

/-- The area with its padding and sign, and the index of the last byte of the number. A
sign of zero is none. -/
def prepareFilledBuffer (size : Nat) (spec : FormatSpec) (sign : Byte) : Bytes × Nat :=
  let width := spec.width
  if width ≤ size then (put (growBuffer size) 0 [sign], size - 1)
  else
    let b := growBuffer width
    match spec.align with
    | .left => (fill (put b 0 [sign]) size width spec.fill, size - 1)
    | .center =>
      -- `FillPadding` around a content that is still to be written
      let p := (width - size) / 2
      let b := fill b 0 p spec.fill
      let b := fill b (p + size) width spec.fill
      (put b p [sign], p + size - 1)
    | .numeric =>
      if sign = nul then (fill b 0 (width - size) spec.fill, width - 1)
      else (fill (put b 0 [sign]) 1 (width - (size - 1)) spec.fill, width - 1)
    | _ => (fill (put b (width - size) [sign]) 0 (width - size) spec.fill, width - 1)

def powersOf10 (t : Nat) : Nat := if t = 0 then 0 else 10 ^ t

/-- `CountDigits`; the bits in front of the leading zeros are those of `n | 1`. -/
def countDigits (n : Nat) : Nat :=
  let t := (((n ||| 1).log2 + 1) * 1233) >>> 12
  t - (if n < powersOf10 t then 1 else 0) + 1

def digits (index : Nat) : Byte :=
  if index % 2 = 0 then byte '0' + UInt8.ofNat (index / 2 / 10)
  else byte '0' + UInt8.ofNat (index / 2 % 10)

/-- `FormatDecimal` into the area from `p` on, two digits at a time from the last;
`last` is `num_digits` behind its first decrement. -/
def formatDecimal (b : Bytes) (p value last : Nat) : Bytes :=
  if value ≥ 100 then
    let index := value % 100 * 2
    let b := put b (p + last) [digits (index + 1)]
    let b := put b (p + last - 1) [digits index]
    formatDecimal b p (value / 100) (last - 2)
  else if value < 10 then put b p [byte '0' + UInt8.ofNat value]
  else put (put b (p + 1) [digits (value * 2 + 1)]) p [digits (value * 2)]
termination_by value

def digitChar (upper : Bool) (d : Nat) : Byte :=
  if d < 10 then byte '0' + UInt8.ofNat d
  else byte (if upper then 'A' else 'a') + UInt8.ofNat (d - 10)

def countShifted (bits n : Nat) : Nat :=
  if h : bits ≠ 0 ∧ n >>> bits ≠ 0 then countShifted bits (n >>> bits) + 1 else 1
termination_by n
decreasing_by
  rw [Nat.shiftRight_eq_div_pow] at h ⊢
  have pos : 0 < n := Nat.pos_of_ne_zero fun zero => h.2 (by rw [zero, Nat.zero_div])
  exact Nat.div_lt_self pos (Nat.one_lt_two_pow h.1)

def writeShifted (bits : Nat) (upper : Bool) (b : Bytes) (p n : Nat) : Bytes × Nat :=
  let b := put b p [digitChar upper (n % 2 ^ bits)]
  if h : bits ≠ 0 ∧ n >>> bits ≠ 0 then writeShifted bits upper b (p - 1) (n >>> bits)
  else (b, p - 1)
termination_by n
decreasing_by
  rw [Nat.shiftRight_eq_div_pow] at h ⊢
  have pos : 0 < n := Nat.pos_of_ne_zero fun zero => h.2 (by rw [zero, Nat.zero_div])
  exact Nat.div_lt_self pos (Nat.one_lt_two_pow h.1)

def formatShifted (bits : Nat) (upper : Bool) (lead : Bytes) (size n : Nat) (spec : FormatSpec)
    (sign : Byte) : Bytes :=
  let lead := if spec.hashFlag then lead else []
  let filled := prepareFilledBuffer (size + lead.length + countShifted bits n) spec sign
  let written := writeShifted bits upper filled.1 filled.2 n
  if spec.hashFlag then put written.1 (written.2 + 1 - lead.length) lead else written.1

/-- `FormatInt`, by the sign and the absolute value of its argument. -/
def formatInt (negative : Bool) (absValue : Nat) (spec : FormatSpec) :
    Except FormatError Bytes :=
  let sign :=
    if negative then byte '-'
    else if spec.signFlag then (if spec.plusFlag then byte '+' else sp)
    else nul
  let size := if sign = nul then 0 else 1
  if spec.type = 0 ∨ spec.type = byte 'd' then
    let numDigits := countDigits absValue
    let filled := prepareFilledBuffer (size + numDigits) spec sign
    .ok (formatDecimal filled.1 (filled.2 + 1 - numDigits) absValue (numDigits - 1))
  else if spec.type = byte 'x' ∨ spec.type = byte 'X' then
    let upper := spec.type = byte 'X'
    .ok (formatShifted 4 upper [byte '0', spec.type] size absValue spec sign)
  else if spec.type = byte 'b' ∨ spec.type = byte 'B' then
    .ok (formatShifted 1 false [byte '0', spec.type] size absValue spec sign)
  else if spec.type = byte 'o' then
    .ok (formatShifted 3 false [byte '0'] size absValue spec sign)
  else .error (.unknownType spec.type ['i', 'n', 't', 'e', 'g', 'e', 'r'])

def formatSigned {w : Nat} (value : BitVec w) : FormatSpec → Except FormatError Bytes :=
  formatInt value.msb (if value.msb then 0 - value else value).toNat

def formatUnsigned {w : Nat} (value : BitVec w) : FormatSpec → Except FormatError Bytes :=
  formatInt false value.toNat

end CqIrc.Fmt
