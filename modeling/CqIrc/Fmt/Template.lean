import CqIrc.Fmt.Number

/-! Formats as what they mean: literal text and replacement fields, each field with its
index and its specification. A format that is written from such a template does what the
template says, be it a text or the first error of a field. -/

namespace CqIrc.Fmt

inductive Side where
  | left
  | right
  | numeric
  | center
  deriving DecidableEq, Repr

namespace Side

def letter : Side → Byte
  | left => byte '<'
  | right => byte '>'
  | numeric => byte '='
  | center => byte '^'

def alignment : Side → Alignment
  | left => .left
  | right => .right
  | numeric => .numeric
  | center => .center

end Side

inductive Sign where
  | plus
  | minus
  | space
  deriving DecidableEq, Repr

def Sign.letter : Sign → Byte
  | plus => byte '+'
  | minus => byte '-'
  | space => sp

inductive Precision where
  | literal (n : Nat)
  | argument (index : Option Nat)
  deriving DecidableEq, Repr

structure Directive where
  align : Option (Option Byte × Side)
  sign : Option Sign
  hash : Bool
  zero : Bool
  width : Option Nat
  precision : Option Precision
  type : Option Byte
  deriving DecidableEq, Repr

inductive Segment where
  | text (bytes : Bytes)
  | field (index : Option Nat) (directive : Option Directive)
  deriving DecidableEq, Repr

def isLetter (b : Byte) : Bool := (0x41 ≤ b && b ≤ 0x5A) || (0x61 ≤ b && b ≤ 0x7A)

section render

def indexText (index : Option Nat) : Bytes := index.elim [] (numeral 10 false)

def alignText : Option (Option Byte × Side) → Bytes
  | none => []
  | some (fill, side) => fill.toList ++ [side.letter]

def signText (sign : Option Sign) : Bytes := (sign.map Sign.letter).toList

def hashText (hash : Bool) : Bytes := if hash then [byte '#'] else []

def widthText (zero : Bool) (width : Option Nat) : Bytes :=
  (if zero then [byte '0'] else []) ++ width.elim [] (numeral 10 false)

def precisionText : Option Precision → Bytes
  | none => []
  | some (.literal n) => byte '.' :: numeral 10 false n
  | some (.argument index) => byte '.' :: openBrace :: (indexText index ++ [closeBrace])

def Directive.text (d : Directive) : Bytes :=
  alignText d.align ++ (signText d.sign ++ (hashText d.hash ++ (widthText d.zero d.width ++
    (precisionText d.precision ++ d.type.toList))))

/-- A brace that is text is doubled. -/
def escaped (bytes : Bytes) : Bytes :=
  bytes.flatMap fun b => if b = openBrace ∨ b = closeBrace then [b, b] else [b]

def Segment.render : Segment → Bytes
  | text bytes => escaped bytes
  | field index directive =>
    openBrace :: (indexText index ++ (directive.elim [] fun d => byte ':' :: d.text) ++
      [closeBrace])

def render (template : List Segment) : Bytes := template.flatMap Segment.render

end render

section meaning
variable (args : List ArgInfo)

def takeArg (next : Int) : Option Nat → Except FormatError (ArgInfo × Int)
  | none =>
    if next < 0 then .error .manualToAutomatic
    else
      match args[next.toNat]? with
      | none => .error .indexOutOfRange
      | some arg => .ok (arg, next + 1)
  | some index =>
    if next > 0 then .error .automaticToManual
    else
      match args[index]? with
      | none => .error .indexOutOfRange
      | some arg => .ok (arg, -1)

def takeAlign (arg : ArgInfo) : Option (Option Byte × Side) → Except FormatError FormatSpec
  | none => .ok .empty
  | some (fill, side) =>
    if side = .numeric ∧ arg.isNumeric = false then .error (.requiresNumeric (byte '='))
    else .ok { FormatSpec.empty with align := side.alignment, fill := fill.getD sp }

def takeSign (arg : ArgInfo) (spec : FormatSpec) : Option Sign → Except FormatError FormatSpec
  | none => .ok spec
  | some sign =>
    if arg.isNumeric = false then .error (.requiresNumeric sign.letter)
    else if arg.isUnsigned then .error (.requiresSigned sign.letter)
    else .ok { spec with signFlag := spec.signFlag || sign ≠ .minus,
                         plusFlag := spec.plusFlag || sign = .plus }

def takeHash (arg : ArgInfo) (spec : FormatSpec) (hash : Bool) : Except FormatError FormatSpec :=
  if hash then
    if arg.isNumeric = false then .error (.requiresNumeric (byte '#'))
    else .ok { spec with hashFlag := true }
  else .ok spec

def takeWidth (arg : ArgInfo) (spec : FormatSpec) (zero : Bool) (width : Option Nat) :
    Except FormatError FormatSpec :=
  if zero then
    if arg.isNumeric = false then .error (.requiresNumeric (byte '0'))
    else .ok { spec with align := .numeric, fill := byte '0', width := width.getD 0 }
  else .ok { spec with width := width.getD spec.width }

def takePrecision (arg : ArgInfo) (next : Int) :
    Option Precision → Except FormatError (Int × Int)
  | none => .ok (-1, next)
  | some precision =>
    let value : Except FormatError (Int × Int) :=
      match precision with
      | .literal n => .ok (n, next)
      | .argument index =>
        (takeArg args next index).bind fun x =>
          (FormatParser.precisionValue x.1).bind fun value =>
            if value > intMax then .error .numberTooBig else .ok ((value : Int), x.2)
    value.bind fun x => if arg.isFloat = false then .error .precisionRequiresFloat else .ok x

/-- The specification, the precision and the next index that a directive stands for. -/
def Directive.meaning (d : Directive) (arg : ArgInfo) (next : Int) :
    Except FormatError (FormatSpec × Int × Int) :=
  (takeAlign arg d.align).bind fun spec => (takeSign arg spec d.sign).bind fun spec =>
    (takeHash arg spec d.hash).bind fun spec => (takeWidth arg spec d.zero d.width).bind fun spec =>
      (takePrecision args arg next d.precision).map fun x =>
        ({ spec with type := d.type.getD spec.type }, x)

def meaning (next : Int) : List Segment → Except FormatError Bytes
  | [] => .ok []
  | .text bytes :: template => (meaning next template).map (bytes ++ ·)
  | .field index directive :: template =>
    (takeArg args next index).bind fun x =>
      (directive.elim (.ok (.empty, -1, x.2)) fun d => d.meaning args x.1 x.2).bind fun y =>
        (FormatParser.formatArg y.1 y.2.1 x.1).bind fun text =>
          (meaning y.2.2 template).map (text ++ ·)

end meaning

/-- A directive that can be written: the letters mean what they are meant for. -/
structure Directive.Sound (d : Directive) : Prop where
  ne : d.text ≠ []
  fill : ∀ c side, d.align = some (some c, side) → c ≠ openBrace ∧ c ≠ closeBrace
  width : ∀ w, d.width = some w → w ≤ intMax ∧ (w = 0 → d.zero = true)
  literal : ∀ n, d.precision = some (.literal n) → n ≤ intMax
  argument : ∀ i, d.precision = some (.argument (some i)) → i < 2 ^ 32
  type : ∀ c, d.type = some c → isLetter c = true

def Segment.Sound : Segment → Prop
  | text _ => True
  | field index directive =>
    (∀ i, index = some i → i < 2 ^ 32) ∧ ∀ d, directive = some d → d.Sound

theorem Segment.plain_sound {i : Nat} (small : i < 2 ^ 32) : (Segment.field (some i) none).Sound :=
  ⟨fun _ hi => Option.some.inj hi ▸ small, fun _ hd => nomatch hd⟩

end CqIrc.Fmt
