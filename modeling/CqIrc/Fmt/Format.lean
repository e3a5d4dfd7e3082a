import CqIrc.Fmt.Writer

/-! `format.cc`: `BasicWriter<char>::FormatParser`. The format is read from a C string,
here the bytes in front of its NUL; `*s` at the end of the list is that NUL. -/

namespace CqIrc.Fmt

/-- `ArgInfo`: a value with its type. A string is a pointer that is NULL, or to these bytes and
with a size that may be zero; how a floating-point number or a custom value is written is left
to the argument. -/
inductive ArgInfo where
  | int (value : BitVec 32)
  | uint (value : BitVec 32)
  | long (value : BitVec 64)
  | ulong (value : BitVec 64)
  | longLong (value : BitVec 64)
  | ulongLong (value : BitVec 64)
  | double (format : FormatSpec → Int → Except FormatError Bytes)
  | longDouble (format : FormatSpec → Int → Except FormatError Bytes)
  | char (value : BitVec 32)
  | string (value : Option (Bytes × Nat))
  | pointer (value : BitVec 64)
  | custom (format : FormatSpec → Except FormatError Bytes)

namespace ArgInfo

def cString (value : Option Bytes) : ArgInfo := string (value.map fun str => (str, 0))

def isNumeric : ArgInfo → Bool
  | char _ | string _ | pointer _ | custom _ => false
  | _ => true

def isUnsigned : ArgInfo → Bool
  | uint _ | ulong _ | ulongLong _ => true
  | _ => false

def isFloat : ArgInfo → Bool
  | double _ | longDouble _ => true
  | _ => false

end ArgInfo

def openBrace : Byte := 0x7B
def closeBrace : Byte := 0x7D

def isDigit (b : Byte) : Bool := 0x30 ≤ b && b ≤ 0x39

def intMax : Nat := 2 ^ 31 - 1

/-- `*s` is a digit. -/
def atDigit (s : Bytes) : Bool := s.head?.any isDigit

def reportError : Int → Bytes → FormatError → FormatError
  | _, [], _ => .unmatchedOpen
  | n, c :: s, message =>
    if c = openBrace then reportError (n + 1) s message
    else if c = closeBrace then (if n - 1 = 0 then message else reportError (n - 1) s message)
    else reportError n s message

def parseDigits (n : Int) (value : Nat) : Bytes → Except FormatError (Nat × Bytes)
  | [] => .ok (value, [])
  | c :: s =>
    if isDigit c then
      let newValue := (value * 10 + (c - byte '0').toNat) % 2 ^ 32
      if newValue < value then .error (reportError n s .numberTooBig)
      else parseDigits n newValue s
    else .ok (value, c :: s)

def parseUInt (n : Int) (s : Bytes) : Except FormatError (Nat × Bytes) := parseDigits n 0 s

structure FormatParser where
  s : Bytes
  numOpenBraces : Int
  nextArgIndex : Int
  deriving DecidableEq, Repr

namespace FormatParser

def report (p : FormatParser) (message : FormatError) : FormatError :=
  reportError p.numOpenBraces p.s message

def argIndex (p : FormatParser) : Except FormatError (Nat × FormatParser) :=
  if atDigit p.s = false then
    if p.s.head? ≠ some closeBrace ∧ p.s.head? ≠ some (byte ':') then
      .error (p.report .invalidIndex)
    else if p.nextArgIndex < 0 then .error (p.report .manualToAutomatic)
    else .ok (p.nextArgIndex.toNat, { p with nextArgIndex := p.nextArgIndex + 1 })
  else if p.nextArgIndex > 0 then .error (p.report .automaticToManual)
  else (parseUInt p.numOpenBraces p.s).map fun x => (x.1, { p with s := x.2, nextArgIndex := -1 })

def parseArgIndex (args : List ArgInfo) (p : FormatParser) :
    Except FormatError (ArgInfo × FormatParser) :=
  p.argIndex.bind fun x =>
    match args[x.1]? with
    | none => .error (x.2.report .indexOutOfRange)
    | some arg => .ok (arg, x.2)

def alignment (b : Byte) : Option Alignment :=
  if b = byte '<' then some .left
  else if b = byte '>' then some .right
  else if b = byte '=' then some .numeric
  else if b = byte '^' then some .center
  else none

/-- A stage of a format specification: it reads on and refines the specification. -/
abbrev Stage := FormatParser × FormatSpec → Except FormatError (FormatParser × FormatSpec)

def checkNumeric (arg : ArgInfo) : Stage := fun x =>
  if x.2.align = .numeric ∧ arg.isNumeric = false then
    .error (x.1.report (.requiresNumeric (byte '=')))
  else .ok x

def parseAlign (arg : ArgInfo) : Stage := fun x =>
  match x.1.s with
  | [] => .ok x
  | c :: s =>
    match s.head?.bind alignment with
    | some align =>
      if c = closeBrace then .ok (x.1, { x.2 with align := align })
      else if c = openBrace then .error (x.1.report .invalidFill)
      else checkNumeric arg ({ x.1 with s := s.tail }, { x.2 with align := align, fill := c })
    | none =>
      match alignment c with
      | some align => checkNumeric arg ({ x.1 with s := s }, { x.2 with align := align })
      | none => .ok x

def checkSign (arg : ArgInfo) (p : FormatParser) : Except FormatError FormatParser :=
  let sign := p.s.headD nul
  if arg.isNumeric = false then .error (p.report (.requiresNumeric sign))
  else if arg.isUnsigned then .error (p.report (.requiresSigned sign))
  else .ok { p with s := p.s.tail }

def parseSign (arg : ArgInfo) : Stage := fun x =>
  if x.1.s.head? = some (byte '+') then
    (checkSign arg x.1).map fun p => (p, { x.2 with signFlag := true, plusFlag := true })
  else if x.1.s.head? = some (byte '-') then (checkSign arg x.1).map fun p => (p, x.2)
  else if x.1.s.head? = some sp then
    (checkSign arg x.1).map fun p => (p, { x.2 with signFlag := true })
  else .ok x

def parseHash (arg : ArgInfo) : Stage := fun x =>
  if x.1.s.head? = some (byte '#') then
    if arg.isNumeric = false then .error (x.1.report (.requiresNumeric (byte '#')))
    else .ok ({ x.1 with s := x.1.s.tail }, { x.2 with hashFlag := true })
  else .ok x

def parseInt (p : FormatParser) : Except FormatError (Nat × FormatParser) :=
  (parseUInt p.numOpenBraces p.s).bind fun x =>
    if x.1 > intMax then .error ({ p with s := x.2 }.report .numberTooBig)
    else .ok (x.1, { p with s := x.2 })

def parseWidth (arg : ArgInfo) : Stage := fun x =>
  if atDigit x.1.s = false then .ok x
  else
    let zero := x.1.s.head? = some (byte '0')
    if zero ∧ arg.isNumeric = false then .error (x.1.report (.requiresNumeric (byte '0')))
    else
      let spec := if zero then { x.2 with align := .numeric, fill := byte '0' } else x.2
      x.1.parseInt.map fun y => (y.2, { spec with width := y.1 })

def precisionValue : ArgInfo → Except FormatError Nat
  | .int value => if value.msb then .error .negativePrecision else .ok value.toNat
  | .long value | .longLong value =>
    if value.msb then .error .negativePrecision else .ok value.toNat
  | .uint value => .ok value.toNat
  | .ulong value | .ulongLong value => .ok value.toNat
  | _ => .error .precisionNotInteger

def parsePrecisionArg (args : List ArgInfo) (p : FormatParser) :
    Except FormatError (Int × FormatParser) :=
  (parseArgIndex args { p with numOpenBraces := p.numOpenBraces + 1 }).bind fun x =>
    ((precisionValue x.1).mapError x.2.report).bind fun value =>
      if value > intMax then .error (x.2.report .numberTooBig)
      else if x.2.s.head? ≠ some closeBrace then .error .unmatchedOpen
      else .ok (value, { x.2 with s := x.2.s.tail, numOpenBraces := x.2.numOpenBraces - 1 })

def parsePrecision (args : List ArgInfo) (arg : ArgInfo) (p : FormatParser) :
    Except FormatError (Int × FormatParser) :=
  if p.s.head? ≠ some (byte '.') then .ok (-1, p)
  else
    let p := { p with s := p.s.tail }
    let parsed :=
      if atDigit p.s then p.parseInt.map fun x => ((x.1 : Int), x.2)
      else if p.s.head? = some openBrace then parsePrecisionArg args { p with s := p.s.tail }
      else .error (p.report .missingPrecision)
    parsed.bind fun x =>
      if arg.isFloat = false then .error (x.2.report .precisionRequiresFloat) else .ok x

def parseType : FormatParser × FormatSpec → FormatParser × FormatSpec := fun x =>
  match x.1.s with
  | [] => x
  | c :: s =>
    if c = closeBrace then x else ({ x.1 with s := s }, { x.2 with type := c })

def parseSpec (args : List ArgInfo) (arg : ArgInfo) (p : FormatParser) :
    Except FormatError (FormatParser × FormatSpec × Int) :=
  (parseAlign arg (p, .empty)).bind fun x => (parseSign arg x).bind fun x =>
    (parseHash arg x).bind fun x => (parseWidth arg x).bind fun x =>
      (parsePrecision args arg x.1).map fun y =>
        let x := parseType (y.2, x.2)
        (x.1, x.2, y.1)

def strlen (s : Bytes) : Nat := (s.takeWhile (· ≠ nul)).length

def formatArg (spec : FormatSpec) (precision : Int) : ArgInfo → Except FormatError Bytes
  | .int value => formatSigned value spec
  | .uint value => formatUnsigned value spec
  | .long value | .longLong value => formatSigned value spec
  | .ulong value | .ulongLong value => formatUnsigned value spec
  | .double format | .longDouble format => format spec precision
  | .char value =>
    if spec.type ≠ 0 ∧ spec.type ≠ byte 'c' then
      .error (.unknownType spec.type ['c', 'h', 'a', 'r'])
    else .ok (formatChar (UInt8.ofNat value.toNat) spec)
  | .string value =>
    if spec.type ≠ 0 ∧ spec.type ≠ byte 's' then
      .error (.unknownType spec.type ['s', 't', 'r', 'i', 'n', 'g'])
    else
      match value with
      | none => .error .nullString
      | some (str, size) =>
        .ok (formatString (str.take (if size = 0 then strlen str else size)) spec)
  | .pointer value =>
    if spec.type ≠ 0 ∧ spec.type ≠ byte 'p' then
      .error (.unknownType spec.type ['p', 'o', 'i', 'n', 't', 'e', 'r'])
    else
      formatUnsigned value
        { spec with signFlag := false, plusFlag := false, hashFlag := true, type := byte 'x' }
  | .custom format =>
    if spec.type ≠ 0 then .error (.unknownType spec.type ['o', 'b', 'j', 'e', 'c', 't'])
    else format spec

/-- A replacement field behind its opening brace: its text, `next_arg_index_`, and the
rest of the format. -/
def field (args : List ArgInfo) (next : Int) (s : Bytes) :
    Except FormatError (Bytes × Int × Bytes) :=
  (parseArgIndex args ⟨s, 1, next⟩).bind fun x =>
    let parsed :=
      if x.2.s.head? = some (byte ':') then
        parseSpec args x.1 { x.2 with s := x.2.s.tail }
      else .ok (x.2, .empty, -1)
    parsed.bind fun y =>
      if y.1.s.head? ≠ some closeBrace then .error .unmatchedOpen
      else (formatArg y.2.1 y.2.2 x.1).map fun text => (text, y.1.nextArgIndex, y.1.s.tail)

end FormatParser

/-- What is done to the writer's buffer: a part of the format is appended, or a formatted
argument is written behind `GrowBuffer`. -/
inductive Piece where
  | append (text : Bytes)
  | grow (text : Bytes)
  deriving DecidableEq, Repr

def Piece.text : Piece → Bytes
  | append text | grow text => text

structure Formatted where
  pieces : List Piece
  error : Option FormatError
  deriving DecidableEq, Repr

namespace Formatted

def after (piece : Piece) (f : Formatted) : Formatted := ⟨piece :: f.pieces, f.error⟩

def result (f : Formatted) : Except FormatError Bytes :=
  match f.error with
  | some e => .error e
  | none => .ok (f.pieces.flatMap Piece.text)

end Formatted

/-- The loop of `Format` at `s`, with `held` from `start` up to there; the first `skip`
letters have been read as a part of a field or of a doubled brace. -/
def scan (args : List ArgInfo) : Nat → Int → Bytes → Bytes → Formatted
  | _, _, held, [] => ⟨[.append held], none⟩
  | skip + 1, next, held, _ :: s => scan args skip next held s
  | 0, next, held, c :: s =>
    if c ≠ openBrace ∧ c ≠ closeBrace then scan args 0 next (held ++ [c]) s
    else if s.head? = some c then (scan args 1 next [] s).after (.append (held ++ [c]))
    else if c = closeBrace then ⟨[], some .unmatchedClose⟩
    else
      match FormatParser.field args next s with
      | .error e => ⟨[.append held], some e⟩
      | .ok x =>
        ((scan args (s.length - x.2.2.length) x.2.1 [] s).after (.grow x.1)).after (.append held)

def format (s : Bytes) (args : List ArgInfo) : Formatted := scan args 0 0 [] s

end CqIrc.Fmt
