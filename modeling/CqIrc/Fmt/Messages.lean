import CqIrc.Fmt.Storage
import CqIrc.Fmt.Integer

/-! The texts of a `FormatError`. Those that name a letter are themselves formatted, which
never throws. -/

namespace CqIrc.Fmt

def isPrint (c : Byte) : Bool := 0x20 ≤ c && c ≤ 0x7E

def charArg (c : Byte) : ArgInfo := .char (BitVec.ofNat 32 c.toNat)

def unsignedArg (c : Byte) : ArgInfo := .uint ((BitVec.ofNat 8 c.toNat).signExtend 32)

def text (s : String) : Bytes := ascii s.toList

def hexDirective : Directive := ⟨none, none, false, true, some 2, none, some (byte 'x')⟩

namespace FormatError

/-- `what()`, if making it throws nothing else. -/
def what : FormatError → Except FormatError Bytes
  | unmatchedOpen => .ok (text "unmatched '\x7b' in format")
  | unmatchedClose => .ok (text "unmatched '\x7d' in format")
  | invalidIndex => .ok (text "invalid argument index in format string")
  | manualToAutomatic =>
    .ok (text "cannot switch from manual to automatic argument indexing")
  | automaticToManual =>
    .ok (text "cannot switch from automatic to manual argument indexing")
  | indexOutOfRange => .ok (text "argument index is out of range in format")
  | numberTooBig => .ok (text "number is too big in format")
  | invalidFill => .ok (text "invalid fill character '\x7b'")
  | requiresNumeric c =>
    (format (text "format specifier '\x7b\x7d' requires numeric argument") [charArg c]).result
  | requiresSigned c =>
    (format (text "format specifier '\x7b\x7d' requires signed argument") [charArg c]).result
  | negativePrecision => .ok (text "negative precision in format")
  | precisionNotInteger => .ok (text "precision is not integer")
  | missingPrecision => .ok (text "missing precision in format")
  | precisionRequiresFloat =>
    .ok (text "precision specifier requires floating-point argument")
  | unknownType c type =>
    if isPrint c then
      (format (text "unknown format code '\x7b\x7d' for \x7b\x7d")
        [charArg c, .cString (some (ascii type))]).result
    else
      (format (text "unknown format code '\\x\x7b:02x\x7d' for \x7b\x7d")
        [unsignedArg c, .cString (some (ascii type))]).result
  | nullString => .ok (text "string pointer is null")

def codeText (c : Byte) : Bytes :=
  if isPrint c then [c]
  else
    let hex := numeral 16 false ((BitVec.ofNat 8 c.toNat).signExtend 32).toNat
    text "\\x" ++ (List.replicate (2 - hex.length) (byte '0') ++ hex)

theorem formatArg_char (c : Byte) (precision : Int) :
    FormatParser.formatArg .empty precision (charArg c) = .ok [c] := by
  simp [FormatParser.formatArg, charArg, FormatSpec.empty, formatChar]

theorem specifier_what (before behind : String) (c : Byte) :
    (format (render [.text (text before), .field none none, .text (text behind)])
      [charArg c]).result = .ok (text before ++ ([c] ++ (text behind ++ []))) := by
  rw [format_render _ (by simp [Segment.Sound]), meaning, meaning]
  simp [takeArg, Except.bind, Except.map, formatArg_char, meaning]

theorem requiresNumeric_what (c : Byte) : (requiresNumeric c).what =
    .ok (text "format specifier '" ++ ([c] ++ (text "' requires numeric argument" ++ []))) := by
  have same : text "format specifier '\x7b\x7d' requires numeric argument" =
      render [.text (text "format specifier '"), .field none none,
        .text (text "' requires numeric argument")] := by decide
  rw [what, same, specifier_what]

theorem requiresSigned_what (c : Byte) : (requiresSigned c).what =
    .ok (text "format specifier '" ++ ([c] ++ (text "' requires signed argument" ++ []))) := by
  have same : text "format specifier '\x7b\x7d' requires signed argument" =
      render [.text (text "format specifier '"), .field none none,
        .text (text "' requires signed argument")] := by decide
  rw [what, same, specifier_what]

theorem hexDirective_sound : hexDirective.Sound where
  ne := by simp [Directive.text, hexDirective]
  fill c side h := by simp [hexDirective] at h
  width w h := by
    obtain rfl : 2 = w := by simpa [hexDirective] using h
    simp [intMax]
  literal n h := by simp [hexDirective] at h
  argument i h := by simp [hexDirective] at h
  type c h := by
    obtain rfl : byte 'x' = c := by simpa [hexDirective] using h
    rfl

theorem formatArg_hex (c : Byte) (precision : Int) :
    FormatParser.formatArg { FormatSpec.empty with
        align := .numeric, fill := byte '0', width := 2, type := byte 'x' } precision
        (unsignedArg c) =
      .ok (let hex := numeral 16 false ((BitVec.ofNat 8 c.toNat).signExtend 32).toNat
        List.replicate (2 - hex.length) (byte '0') ++ hex) := by
  have written := unsigned_eq (by decide) ((BitVec.ofNat 8 c.toNat).signExtend 32)
    { FormatSpec.empty with align := .numeric, fill := byte '0', width := 2, type := byte 'x' }
  change formatUnsigned ((BitVec.ofNat 8 c.toNat).signExtend 32) _ = _
  rw [written]
  simp [intText, byte, FormatSpec.empty, Except.map, padded, intSign]

theorem unknownType_what (c : Byte) (type : List Char) (clean : nul ∉ ascii type) :
    (unknownType c type).what = .ok (text "unknown format code '" ++ (codeText c ++
      (text "' for " ++ (ascii type ++ [])))) := by
  rw [what, codeText]
  split
  · have same : text "unknown format code '\x7b\x7d' for \x7b\x7d" =
        render [.text (text "unknown format code '"), .field none none, .text (text "' for "),
          .field none none] := by decide
    rw [same, format_render _ (by simp [Segment.Sound])]
    simp [meaning, takeArg, Except.bind, Except.map, formatArg_char, formatArg_cString clean]
  · have two : numeral 10 false 2 = [byte '2'] := numeral_of_lt false (by decide)
    have same : text "unknown format code '\\x\x7b:02x\x7d' for \x7b\x7d" =
        render [.text (text "unknown format code '"), .text (text "\\x"),
          .field none (some hexDirective), .text (text "' for "), .field none none] := by
      simp only [render, Segment.render, indexText, hexDirective, Directive.text, alignText,
        signText, hashText, widthText, precisionText, two, Option.elim, List.flatMap_cons]
      decide
    have fields : ∀ x ∈ [Segment.text (text "unknown format code '"), .text (text "\\x"),
        .field none (some hexDirective), .text (text "' for "), .field none none], x.Sound := by
      simp [Segment.Sound, hexDirective_sound]
    have directive (next : Int) : hexDirective.meaning [unsignedArg c, .cString (some (ascii type))]
        (unsignedArg c) next = .ok ({ FormatSpec.empty with
          align := .numeric, fill := byte '0', width := 2, type := byte 'x' }, -1, next) := rfl
    rw [same, format_render _ fields]
    simp [meaning, takeArg, Except.bind, Except.map, formatArg_hex, formatArg_cString clean,
      directive]

/-- An error is always thrown under its own name: what it calls on the way does not throw. -/
theorem what_ok (e : FormatError) (clean : ∀ c type, e = .unknownType c type → nul ∉ ascii type) :
    ∃ message, e.what = .ok message := by
  cases e with
  | requiresNumeric c => exact ⟨_, requiresNumeric_what c⟩
  | requiresSigned c => exact ⟨_, requiresSigned_what c⟩
  | unknownType c type => exact ⟨_, unknownType_what c type (clean c type rfl)⟩
  | _ => exact ⟨_, rfl⟩

end FormatError
end CqIrc.Fmt
