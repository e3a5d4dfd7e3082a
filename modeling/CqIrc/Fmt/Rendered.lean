import CqIrc.Fmt.Template

/-! A rendered template is read as the template: one lemma for each stage of the parser on
the text that the stage reads, and from these a field and the loop of `Format`. -/

namespace CqIrc.Fmt

/-- An error at `s` is thrown with its own message: the braces are closed behind it. -/
def Closes (n : Int) (s : Bytes) : Prop := ∀ message, reportError n s message = message

def isBrace (b : Byte) : Bool := b = openBrace || b = closeBrace

def Starts (f : Byte → Bool) (s : Bytes) : Prop := s.head?.any f = true

section starts
variable {f g : Byte → Bool} {u s : Bytes} {c : Byte}

theorem Starts.ne (h : Starts f s) (hc : f c = false) : s.head? ≠ some c := by
  intro head
  rw [Starts, head, Option.any_some, hc] at h
  cases h

theorem Starts.mono (h : Starts f s) (le : ∀ c, f c = true → g c = true) : Starts g s := by
  cases s with
  | nil => cases h
  | cons c s => exact le c h

theorem Starts.append (h : Starts f s) (hu : ∀ c ∈ u.head?, g c = true) :
    Starts (fun c => g c || f c) (u ++ s) := by
  cases u with
  | nil => exact h.mono fun c hc => by simp [hc]
  | cons c u => simp [Starts, hu c rfl]

end starts

theorem reportError_append {u : Bytes} (hu : ∀ c ∈ u, isBrace c = false) (n : Int) (s : Bytes)
    (message : FormatError) : reportError n (u ++ s) message = reportError n s message := by
  induction u with
  | nil => rfl
  | cons c u ih =>
    have other := hu c (by simp)
    simp only [isBrace, Bool.or_eq_false_iff, decide_eq_false_iff_not] at other
    rw [List.cons_append, reportError, if_neg other.1, if_neg other.2,
      ih fun c hc => hu c (by simp [hc])]

theorem Closes.append {n : Int} {u s : Bytes} (h : Closes n s) (hu : ∀ c ∈ u, isBrace c = false) :
    Closes n (u ++ s) := fun message => by rw [reportError_append hu, h]

theorem closes_close (s : Bytes) : Closes 1 (closeBrace :: s) := fun _ => by
  rw [reportError, if_neg (by decide), if_pos rfl, if_pos (by decide)]

theorem Closes.close {s : Bytes} (h : Closes 1 s) : Closes 2 (closeBrace :: s) := fun message => by
  rw [reportError, if_neg (by decide), if_pos rfl, if_neg (by decide)]
  exact h message

theorem Closes.open_ {n : Int} {s : Bytes} (h : Closes (n + 1) s) : Closes n (openBrace :: s) :=
  fun message => by
    rw [reportError, if_pos rfl]
    exact h message

section letters

theorem not_brace_of_digit {c : Byte} (h : isDigit c = true) : isBrace c = false := by
  simp only [isBrace, Bool.or_eq_false_iff, decide_eq_false_iff_not]
  constructor <;> rintro rfl <;> exact absurd h (by decide)

theorem not_brace_of_letter {c : Byte} (h : isLetter c = true) : isBrace c = false := by
  simp only [isBrace, Bool.or_eq_false_iff, decide_eq_false_iff_not]
  constructor <;> rintro rfl <;> exact absurd h (by decide)

theorem not_brace_numeral (n : Nat) : ∀ c ∈ numeral 10 false n, isBrace c = false :=
  fun c hc => not_brace_of_digit (isDigit_numeral n c hc)

theorem not_brace_index (index : Option Nat) : ∀ c ∈ indexText index, isBrace c = false := by
  cases index with
  | none => simp [indexText]
  | some i => exact not_brace_numeral i

theorem not_brace_width (zero : Bool) (width : Option Nat) :
    ∀ c ∈ widthText zero width, isBrace c = false := by
  refine List.forall_mem_append.mpr ⟨?_, ?_⟩
  · cases zero <;> simp [isBrace, byte, openBrace, closeBrace]
  · cases width with
    | none => simp
    | some w => exact not_brace_numeral w

theorem not_brace_hash (hash : Bool) : ∀ c ∈ hashText hash, isBrace c = false := by
  cases hash <;> simp [hashText, isBrace, byte, openBrace, closeBrace]

theorem not_brace_sign (sign : Option Sign) : ∀ c ∈ signText sign, isBrace c = false := by
  rcases sign with _ | (_ | _ | _) <;>
    simp [signText, Sign.letter, isBrace, byte, openBrace, closeBrace, sp]

end letters

theorem Closes.precision {s : Bytes} (h : Closes 1 s) (precision : Option Precision) :
    Closes 1 (precisionText precision ++ s) := by
  rcases precision with _ | (n | index)
  · exact h
  · refine h.append (List.forall_mem_cons.mpr ⟨by decide, not_brace_numeral n⟩)
  · have nested : Closes 1 (openBrace :: (indexText index ++ (closeBrace :: s))) :=
      (h.close.append (not_brace_index index)).open_
    have dotted := nested.append (u := [byte '.']) (by simp [isBrace, byte, openBrace, closeBrace])
    simpa [precisionText] using dotted

section stages
variable {args : List ArgInfo} {arg : ArgInfo} {n next : Int} {s : Bytes} {spec : FormatSpec}

theorem atDigit_of_starts {f : Byte → Bool} (h : Starts f s)
    (hf : ∀ c, f c = true → isDigit c = false) : atDigit s = false := by
  cases s with
  | nil => rfl
  | cons c s => exact hf c h

theorem parseArgIndex_text (args : List ArgInfo) (next : Int) {index : Option Nat}
    (small : ∀ i, index = some i → i < 2 ^ 32)
    (hs : Starts (fun c => c = closeBrace || c = byte ':') s) (closed : Closes n s) :
    FormatParser.parseArgIndex args ⟨indexText index ++ s, n, next⟩ =
      (takeArg args next index).map fun x => (x.1, ⟨s, n, x.2⟩) := by
  have stop : atDigit s = false := atDigit_of_starts hs fun c hc => by
    simp only [Bool.or_eq_true, decide_eq_true_eq] at hc
    rcases hc with rfl | rfl <;> rfl
  cases index with
  | none =>
    have ends : ¬ (s.head? ≠ some closeBrace ∧ s.head? ≠ some (byte ':')) := by
      cases s with
      | nil => cases hs
      | cons c s =>
        simp only [Starts, List.head?_cons, Option.any_some, Bool.or_eq_true,
          decide_eq_true_eq] at hs
        simp only [List.head?_cons, ne_eq, Option.some.injEq]
        tauto
    simp only [FormatParser.parseArgIndex, FormatParser.argIndex, indexText, Option.elim,
      List.nil_append, stop, if_true, if_neg ends, FormatParser.report, closed _, takeArg]
    by_cases manual : next < 0
    · rw [if_pos manual, if_pos manual]
      rfl
    · rw [if_neg manual, if_neg manual]
      simp only [Except.bind]
      cases args[next.toNat]? <;> simp [Except.map, closed .indexOutOfRange]
  | some i =>
    have digit : atDigit (numeral 10 false i ++ s) = true :=
      atDigit_append (isDigit_numeral i) (numeral_ne_nil 10 false i)
    have whole := closed.append (not_brace_numeral i)
    simp only [FormatParser.parseArgIndex, FormatParser.argIndex, indexText, Option.elim, digit,
      Bool.true_eq_false, if_false, FormatParser.report, whole _, takeArg,
      parseUInt_numeral (small i rfl) stop]
    by_cases automatic : next > 0
    · rw [if_pos automatic, if_pos automatic]
      rfl
    · rw [if_neg automatic, if_neg automatic]
      simp only [Except.map, Except.bind, closed _]
      cases args[i]? <;> rfl

theorem alignment_letter (side : Side) :
    FormatParser.alignment side.letter = some side.alignment := by
  cases side <;> rfl

theorem checkNumeric_side {fill : Byte} (side : Side) (closed : Closes n s) :
    FormatParser.checkNumeric arg
        (⟨s, n, next⟩, { FormatSpec.empty with align := side.alignment, fill := fill }) =
      (if side = .numeric ∧ arg.isNumeric = false then
        .error (.requiresNumeric (byte '='))
      else .ok { FormatSpec.empty with align := side.alignment, fill := fill } :
        Except FormatError FormatSpec).map fun spec => (⟨s, n, next⟩, spec) := by
  have same : side.alignment = .numeric ↔ side = .numeric := by cases side <;> simp [Side.alignment]
  simp only [FormatParser.checkNumeric, same, FormatParser.report, closed _]
  split <;> rfl

theorem parseAlign_text {align : Option (Option Byte × Side)}
    (fill : ∀ c side, align = some (some c, side) → c ≠ openBrace ∧ c ≠ closeBrace)
    (first : Starts (fun c => FormatParser.alignment c = none) s)
    (second : align = none → s.tail.head?.bind FormatParser.alignment = none)
    (closed : Closes n s) :
    FormatParser.parseAlign arg (⟨alignText align ++ s, n, next⟩, .empty) =
      (takeAlign arg align).map fun spec => (⟨s, n, next⟩, spec) := by
  have head : s.head?.bind FormatParser.alignment = none := by
    cases s with
    | nil => rfl
    | cons c s => exact of_decide_eq_true first
  rcases align with _ | ⟨_ | c, side⟩
  · cases s with
    | nil => rfl
    | cons c s =>
      have none₁ : FormatParser.alignment c = none := of_decide_eq_true first
      have none₂ : s.head?.bind FormatParser.alignment = none := second rfl
      simp [alignText, FormatParser.parseAlign, none₁, none₂, takeAlign, Except.map]
  · simp only [alignText, Option.toList_none, List.nil_append, List.cons_append,
      FormatParser.parseAlign, head, alignment_letter]
    exact checkNumeric_side side closed
  · obtain ⟨notOpen, notClose⟩ := fill c side rfl
    simp only [alignText, Option.toList_some, List.cons_append, List.nil_append,
      FormatParser.parseAlign, List.head?_cons, Option.bind_some, alignment_letter, if_neg notOpen,
      if_neg notClose, List.tail_cons]
    exact checkNumeric_side side closed

theorem parseSign_text {sign : Option Sign}
    (hs : Starts (fun c => c ≠ byte '+' && c ≠ byte '-' && c ≠ sp) s) (closed : Closes n s) :
    FormatParser.parseSign arg (⟨signText sign ++ s, n, next⟩, spec) =
      (takeSign arg spec sign).map fun spec => (⟨s, n, next⟩, spec) := by
  have report (sign : Sign) (message : FormatError) :
      reportError n (sign.letter :: s) message = message := by
    have whole := closed.append (not_brace_sign (some sign))
    exact whole message
  rcases sign with _ | sign
  · have plus := hs.ne (c := byte '+') (by decide)
    have minus := hs.ne (c := byte '-') (by decide)
    have space := hs.ne (c := sp) (by decide)
    simp [signText, FormatParser.parseSign, plus, minus, space, takeSign, Except.map]
  · have checked : FormatParser.checkSign arg ⟨sign.letter :: s, n, next⟩ =
        if arg.isNumeric = false then .error (.requiresNumeric sign.letter)
        else if arg.isUnsigned then .error (.requiresSigned sign.letter)
        else .ok ⟨s, n, next⟩ := by
      simp only [FormatParser.checkSign, FormatParser.report, List.headD_cons, report,
        List.tail_cons]
    have plus : (byte '-' = byte '+') = False := by decide
    have space₁ : (sp = byte '+') = False := by decide
    have space₂ : (sp = byte '-') = False := by decide
    cases sign <;>
      simp only [signText, Option.map_some, Option.toList_some, List.cons_append,
        List.nil_append, FormatParser.parseSign, List.head?_cons, Sign.letter, Option.some.injEq,
        if_true, plus, space₁, space₂, if_false, takeSign] at checked ⊢ <;>
      rw [checked] <;> split <;> (try split) <;> simp [Except.map]

theorem parseHash_text {hash : Bool} (hs : Starts (fun c => c ≠ byte '#') s)
    (closed : Closes n s) :
    FormatParser.parseHash arg (⟨hashText hash ++ s, n, next⟩, spec) =
      (takeHash arg spec hash).map fun spec => (⟨s, n, next⟩, spec) := by
  cases hash with
  | false =>
    have other := hs.ne (c := byte '#') (by decide)
    simp [hashText, FormatParser.parseHash, other, takeHash, Except.map]
  | true =>
    have whole (message : FormatError) : reportError n (byte '#' :: s) message = message :=
      closed.append (not_brace_hash true) message
    simp only [hashText, if_true, List.cons_append, List.nil_append, FormatParser.parseHash,
      List.head?_cons, FormatParser.report, whole, takeHash, List.tail_cons]
    split <;> rfl

theorem numeral_head {w : Nat} (pos : w ≠ 0) : (numeral 10 false w).head? ≠ some (byte '0') := by
  have last := Nat.getLast_digit_ne_zero 10 pos
  have ne : Nat.digits 10 w ≠ [] := Nat.digits_ne_nil_iff_ne_zero.mpr pos
  rw [numeral, if_neg pos, List.head?_map, List.head?_reverse, List.getLast?_eq_getLast_of_ne_nil ne]
  have small : (Nat.digits 10 w).getLast ne < 10 :=
    Nat.digits_lt_base (by decide) (List.getLast_mem ne)
  have letters : ∀ d < 10, digitChar false d = byte '0' → d = 0 := by decide
  simp only [Option.map_some, ne_eq, Option.some.injEq]
  exact fun same => last (letters _ small same)

theorem parseInt_numeral {w : Nat} (small : w ≤ intMax) (stop : atDigit s = false) :
    FormatParser.parseInt ⟨numeral 10 false w ++ s, n, next⟩ = .ok (w, ⟨s, n, next⟩) := by
  have fits : w < 2 ^ 32 := by
    have : intMax < 2 ^ 32 := by decide
    omega
  rw [FormatParser.parseInt, parseUInt_numeral fits stop]
  simp only [Except.bind, if_neg (Nat.not_lt.mpr small)]

theorem parseInt_zero {width : Option Nat} (small : ∀ w ∈ width, w ≤ intMax)
    (stop : atDigit s = false) :
    FormatParser.parseInt ⟨widthText true width ++ s, n, next⟩ =
      .ok (width.getD 0, ⟨s, n, next⟩) := by
  have digits : ∀ c ∈ widthText true width, isDigit c = true := by
    refine List.forall_mem_append.mpr ⟨List.all_eq_true.mp (by decide), ?_⟩
    cases width with
    | none => simp
    | some w => exact isDigit_numeral w
  have value : valueFrom 0 (widthText true width) = width.getD 0 := by
    cases width with
    | none => decide
    | some w => exact valueFrom_numeral w
  have fits : width.getD 0 ≤ intMax := by
    cases width with
    | none => exact Nat.zero_le _
    | some w => exact small w rfl
  have large : intMax < 2 ^ 32 := by decide
  rw [FormatParser.parseInt, parseUInt, parseDigits_exact digits stop (by omega), value]
  simp only [Except.bind, if_neg (Nat.not_lt.mpr fits)]

theorem parseWidth_text {zero : Bool} {width : Option Nat}
    (small : ∀ w, width = some w → w ≤ intMax ∧ (w = 0 → zero = true))
    (hs : Starts (fun c => !isDigit c) s) (closed : Closes n s) :
    FormatParser.parseWidth arg (⟨widthText zero width ++ s, n, next⟩, spec) =
      (takeWidth arg spec zero width).map fun spec => (⟨s, n, next⟩, spec) := by
  have stop : atDigit s = false := atDigit_of_starts hs fun c hc => by simpa using hc
  have bound : ∀ w ∈ width, w ≤ intMax := fun w hw => (small w hw).1
  cases zero with
  | true =>
    have digit : atDigit (widthText true width ++ s) = true := rfl
    have head : (widthText true width ++ s).head? = some (byte '0') := rfl
    have whole := closed.append (not_brace_width true width)
    simp only [FormatParser.parseWidth, digit, head, Bool.true_eq_false, if_false, true_and,
      FormatParser.report, whole _, parseInt_zero bound stop, takeWidth, if_true]
    split <;> rfl
  | false =>
    cases width with
    | none =>
      simp only [FormatParser.parseWidth, widthText, Bool.false_eq_true, if_false, Option.elim,
        List.append_nil, List.nil_append, stop, if_true, takeWidth, Option.getD_none]
      rfl
    | some w =>
      have nonzero : w ≠ 0 := fun zero => absurd ((small w rfl).2 zero) (by simp)
      have digit : atDigit (widthText false (some w) ++ s) = true :=
        atDigit_append (isDigit_numeral w) (numeral_ne_nil 10 false w)
      have head : (widthText false (some w) ++ s).head? ≠ some (byte '0') := by
        have ne := numeral_ne_nil 10 false w
        have other := numeral_head nonzero
        simp only [widthText, Bool.false_eq_true, if_false, Option.elim, List.nil_append]
        rwa [List.head?_append_of_ne_nil _ ne]
      have number : FormatParser.parseInt ⟨widthText false (some w) ++ s, n, next⟩ =
          .ok (w, ⟨s, n, next⟩) := parseInt_numeral (small w rfl).1 stop
      simp only [FormatParser.parseWidth, digit, head, Bool.true_eq_false, if_false, false_and,
        number, takeWidth, Bool.false_eq_true, Option.getD_some]
      rfl

theorem parsePrecisionArg_text (args : List ArgInfo) (next : Int) (index : Option Nat)
    (small : ∀ i, index = some i → i < 2 ^ 32) (closed : Closes 1 s) :
    FormatParser.parsePrecisionArg args ⟨indexText index ++ closeBrace :: s, 1, next⟩ =
      (((takeArg args next index).bind fun x => (FormatParser.precisionValue x.1).bind fun value =>
        if value > intMax then .error .numberTooBig else .ok ((value : Int), x.2)) :
          Except FormatError (Int × Int)).map fun x => (x.1, ⟨s, 1, x.2⟩) := by
  have inner : Closes 2 (closeBrace :: s) := closed.close
  have read := parseArgIndex_text args next small (by rfl) inner
  simp only [FormatParser.parsePrecisionArg, show (1 : Int) + 1 = 2 from rfl, read]
  cases takeArg args next index with
  | error e => rfl
  | ok x =>
    simp only [Except.map, Except.bind, FormatParser.report]
    cases FormatParser.precisionValue x.1 with
    | error e => simpa [Except.mapError, FormatParser.report] using inner e
    | ok value =>
      simp only [Except.mapError, inner .numberTooBig, List.head?_cons, ne_eq, not_true_eq_false,
        if_false, List.tail_cons, show (2 : Int) - 1 = 1 from rfl]
      split <;> rfl

theorem parsePrecision_text {precision : Option Precision}
    (literal : ∀ n, precision = some (.literal n) → n ≤ intMax)
    (argument : ∀ i, precision = some (.argument (some i)) → i < 2 ^ 32)
    (hs : Starts (fun c => !isDigit c && c ≠ byte '.') s) (closed : Closes 1 s) :
    FormatParser.parsePrecision args arg ⟨precisionText precision ++ s, 1, next⟩ =
      (takePrecision args arg next precision).map fun x => (x.1, ⟨s, 1, x.2⟩) := by
  have stop : atDigit s = false :=
    atDigit_of_starts hs fun c hc => by
      simp only [Bool.and_eq_true, Bool.not_eq_eq_eq_not, Bool.not_true] at hc
      exact hc.1
  rcases precision with _ | (m | index)
  · have other := hs.ne (c := byte '.') (by decide)
    simp [precisionText, FormatParser.parsePrecision, other, takePrecision, Except.map]
  · have digit : atDigit (numeral 10 false m ++ s) = true :=
      atDigit_append (isDigit_numeral m) (numeral_ne_nil 10 false m)
    simp only [precisionText, List.cons_append, FormatParser.parsePrecision, List.head?_cons, ne_eq,
      not_true_eq_false, if_false, List.tail_cons, digit, if_true,
      parseInt_numeral (literal m rfl) stop, Except.map, Except.bind, FormatParser.report,
      closed _, takePrecision]
    split <;> rfl
  · have inner := parsePrecisionArg_text args next index
      (fun i hi => argument i (by rw [hi])) closed
    have brace : atDigit (openBrace :: (indexText index ++ closeBrace :: s)) = false := rfl
    simp only [precisionText, List.cons_append, List.append_assoc, List.nil_append,
      FormatParser.parsePrecision, List.head?_cons, ne_eq, not_true_eq_false, if_false,
      List.tail_cons, brace, Bool.false_eq_true, if_true, inner, takePrecision]
    generalize ((takeArg args next index).bind fun x =>
      (FormatParser.precisionValue x.1).bind fun value =>
        if value > intMax then .error .numberTooBig else .ok ((value : Int), x.2)) = value
    cases value with
    | error e => rfl
    | ok x =>
      simp only [Except.map, Except.bind, FormatParser.report, closed _]
      split <;> rfl

theorem parseType_text {type : Option Byte} (letter : ∀ c, type = some c → isLetter c = true) :
    FormatParser.parseType (⟨type.toList ++ closeBrace :: s, n, next⟩, spec) =
      (⟨closeBrace :: s, n, next⟩, { spec with type := type.getD spec.type }) := by
  cases type with
  | none => rfl
  | some c =>
    have other : c ≠ closeBrace := by
      rintro rfl
      exact absurd (letter _ rfl) (by decide)
    simp [FormatParser.parseType, other]

end stages

section heads
variable {s : Bytes} {c : Byte}

def isEnd (c : Byte) : Bool := isLetter c || c = closeBrace

theorem starts_type (type : Option Byte) (letter : ∀ c, type = some c → isLetter c = true) :
    Starts isEnd (type.toList ++ closeBrace :: s) := by
  cases type with
  | none => rfl
  | some c => simp [Starts, isEnd, letter c rfl]

theorem starts_precision (precision : Option Precision) (h : Starts isEnd s) :
    Starts (fun c => c = byte '.' || isEnd c) (precisionText precision ++ s) := by
  refine h.append fun c hc => ?_
  rcases precision with _ | (n | index) <;> simp_all [precisionText]

theorem starts_width (zero : Bool) (width : Option Nat)
    (h : Starts (fun c => c = byte '.' || isEnd c) s) :
    Starts (fun c => isDigit c || (c = byte '.' || isEnd c)) (widthText zero width ++ s) := by
  refine h.append fun c hc => ?_
  have member : c ∈ widthText zero width := List.mem_of_mem_head? hc
  rcases List.mem_append.mp member with flag | digit
  · cases zero
    · cases flag
    · rw [List.mem_singleton.mp flag]
      decide
  · cases width with
    | none => cases digit
    | some w => exact isDigit_numeral w c digit

theorem starts_hash (hash : Bool)
    (h : Starts (fun c => isDigit c || (c = byte '.' || isEnd c)) s) :
    Starts (fun c => c = byte '#' || (isDigit c || (c = byte '.' || isEnd c)))
      (hashText hash ++ s) := by
  refine h.append fun c hc => ?_
  cases hash <;> simp_all [hashText]

theorem not_letter_of_digit (h : isDigit c = true) : isLetter c = false := by
  simp only [isDigit, Bool.and_eq_true, decide_eq_true_eq, UInt8.le_iff_toNat_le] at h
  simp only [isLetter, Bool.or_eq_false_iff, Bool.and_eq_false_iff, decide_eq_false_iff_not,
    UInt8.le_iff_toNat_le]
  have upper : c.toNat ≤ 57 := h.2
  have first : (0x41 : UInt8).toNat = 65 := rfl
  have second : (0x61 : UInt8).toNat = 97 := rfl
  omega

theorem not_digit (h : (c = byte '.' || isEnd c) = true) : (!isDigit c) = true := by
  cases digit : isDigit c with
  | false => rfl
  | true =>
    simp only [isEnd, not_letter_of_digit digit, Bool.false_or, Bool.or_eq_true,
      decide_eq_true_eq] at h
    rcases h with rfl | rfl <;> exact absurd digit (by decide)

theorem not_dot (h : isEnd c = true) : (!isDigit c && c ≠ byte '.') = true := by
  have digit := not_digit (c := c) (by simp [h])
  simp only [digit, Bool.true_and, decide_eq_true_eq]
  rintro rfl
  exact absurd h (by decide)

theorem not_hash (h : (isDigit c || (c = byte '.' || isEnd c)) = true) :
    decide (c ≠ byte '#') = true := by
  simp only [decide_eq_true_eq]
  rintro rfl
  exact absurd h (by decide)

theorem not_sign (h : (c = byte '#' || (isDigit c || (c = byte '.' || isEnd c))) = true) :
    (c ≠ byte '+' && c ≠ byte '-' && c ≠ sp) = true := by
  simp only [Bool.and_eq_true, decide_eq_true_eq]
  refine ⟨⟨?_, ?_⟩, ?_⟩ <;> rintro rfl <;> exact absurd h (by decide)

def isRest (c : Byte) : Bool :=
  isDigit c || isLetter c || isBrace c ||
    (c = byte '+' || c = byte '-' || c = sp || c = byte '#' || c = byte '.')

theorem letter_of_alignment {c : Byte} (h : FormatParser.alignment c ≠ none) :
    ∃ side : Side, c = side.letter := by
  unfold FormatParser.alignment at h
  split at h
  · exact ⟨.left, ‹_›⟩
  split at h
  · exact ⟨.right, ‹_›⟩
  split at h
  · exact ⟨.numeric, ‹_›⟩
  split at h
  · exact ⟨.center, ‹_›⟩
  · exact absurd rfl h

theorem alignment_rest {c : Byte} (h : isRest c = true) : FormatParser.alignment c = none := by
  by_contra other
  obtain ⟨side, rfl⟩ := letter_of_alignment other
  cases side <;> exact absurd h (by decide)

theorem isRest_numeral (n : Nat) : ∀ c ∈ numeral 10 false n, isRest c = true :=
  fun c hc => by simp [isRest, isDigit_numeral n c hc]

theorem isRest_precision (precision : Option Precision) :
    ∀ c ∈ precisionText precision, isRest c = true := by
  rcases precision with _ | (n | _ | i)
  · simp [precisionText]
  · exact List.forall_mem_cons.mpr ⟨rfl, isRest_numeral n⟩
  · simp only [precisionText, indexText, Option.elim, List.nil_append]
    exact List.forall_mem_cons.mpr ⟨rfl, List.forall_mem_cons.mpr ⟨rfl, by simp [isRest, isBrace]⟩⟩
  · refine List.forall_mem_cons.mpr ⟨rfl, List.forall_mem_cons.mpr ⟨rfl, ?_⟩⟩
    exact List.forall_mem_append.mpr ⟨isRest_numeral i, by simp [isRest, isBrace]⟩

/-- The specification behind its alignment. -/
def Directive.rest (d : Directive) : Bytes :=
  signText d.sign ++ (hashText d.hash ++ (widthText d.zero d.width ++
    (precisionText d.precision ++ d.type.toList)))

theorem isRest_rest {d : Directive} (letter : ∀ c, d.type = some c → isLetter c = true) :
    ∀ c ∈ d.rest, isRest c = true := by
  refine List.forall_mem_append.mpr ⟨?_, List.forall_mem_append.mpr ⟨?_,
    List.forall_mem_append.mpr ⟨?_, List.forall_mem_append.mpr ⟨isRest_precision _, ?_⟩⟩⟩⟩
  · rcases d.sign with _ | (_ | _ | _) <;> simp [signText, Sign.letter, isRest]
  · cases d.hash <;> simp [hashText, isRest]
  · refine List.forall_mem_append.mpr ⟨?_, ?_⟩
    · cases d.zero <;> simp [isRest, isDigit, byte]
    · cases d.width with
      | none => simp
      | some w => exact isRest_numeral w
  · intro c hc
    simp [isRest, letter c (by simpa using hc)]

theorem first_of_text {d : Directive} (sound : d.Sound) :
    Starts (fun c => FormatParser.alignment c = none) (d.rest ++ closeBrace :: s) := by
  have letters := isRest_rest sound.type
  cases hr : d.rest with
  | nil => rfl
  | cons a u => exact decide_eq_true (alignment_rest (letters a (by simp [hr])))

theorem second_of_text {d : Directive} (sound : d.Sound) (none_ : d.align = none) :
    (d.rest ++ closeBrace :: s).tail.head?.bind FormatParser.alignment = none := by
  have letters := isRest_rest sound.type
  have ne : d.rest ≠ [] := by simpa [Directive.text, none_, alignText, Directive.rest] using sound.ne
  obtain ⟨a, u, hu⟩ := List.exists_cons_of_ne_nil ne
  rw [hu] at letters ⊢
  cases u with
  | nil => rfl
  | cons b u => exact alignment_rest (letters b (by simp))

end heads

section fields
variable {args : List ArgInfo} {arg : ArgInfo} {next : Int} {s : Bytes}

theorem closes_rest {d : Directive} (letter : ∀ c, d.type = some c → isLetter c = true) :
    Closes 1 (d.rest ++ closeBrace :: s) := by
  have type : Closes 1 (d.type.toList ++ closeBrace :: s) :=
    (closes_close s).append fun c hc => not_brace_of_letter (letter c (by simpa using hc))
  have whole := (((type.precision d.precision).append (not_brace_width d.zero d.width)).append
    (not_brace_hash d.hash)).append (not_brace_sign d.sign)
  simpa [Directive.rest] using whole

theorem closes_text {d : Directive} (sound : d.Sound) : Closes 1 (d.text ++ closeBrace :: s) := by
  have letters : ∀ c ∈ alignText d.align, isBrace c = false := by
    have letter (side : Side) : isBrace side.letter = false := by cases side <;> decide
    rcases hd : d.align with _ | ⟨_ | c, side⟩
    · simp [alignText]
    · simpa [alignText] using letter side
    · have other : isBrace c = false := by simpa [isBrace] using sound.fill c side hd
      simpa [alignText, letter side] using other
  have whole := (closes_rest (s := s) sound.type).append letters
  simpa [Directive.text, Directive.rest] using whole

theorem parseSpec_text {d : Directive} (sound : d.Sound) :
    FormatParser.parseSpec args arg ⟨d.text ++ closeBrace :: s, 1, next⟩ =
      (d.meaning args arg next).map fun x => (⟨closeBrace :: s, 1, x.2.2⟩, x.1, x.2.1) := by
  obtain ⟨-, fill, width, literal, argument, letter⟩ := id sound
  have starts₄ := starts_type (s := s) d.type letter
  have starts₃ := starts_precision d.precision starts₄
  have starts₂ := starts_width d.zero d.width starts₃
  have starts₁ := starts_hash d.hash starts₂
  have closed₄ : Closes 1 (d.type.toList ++ closeBrace :: s) :=
    (closes_close s).append fun c hc => not_brace_of_letter (letter c (by simpa using hc))
  have closed₃ := closed₄.precision d.precision
  have closed₂ := closed₃.append (not_brace_width d.zero d.width)
  have closed₁ := closed₂.append (not_brace_hash d.hash)
  have closed₀ := closed₁.append (not_brace_sign d.sign)
  have rest : d.rest ++ closeBrace :: s = signText d.sign ++ (hashText d.hash ++
      (widthText d.zero d.width ++ (precisionText d.precision ++
        (d.type.toList ++ closeBrace :: s)))) := by
    simp [Directive.rest]
  have first := first_of_text (s := s) sound
  have second := second_of_text (s := s) sound
  have whole : d.text ++ closeBrace :: s = alignText d.align ++ (d.rest ++ closeBrace :: s) := by
    simp [Directive.text, Directive.rest]
  rw [FormatParser.parseSpec, Directive.meaning, whole]
  rw [rest] at first second ⊢
  rw [parseAlign_text fill first second closed₀]
  cases takeAlign arg d.align with
  | error e => rfl
  | ok spec =>
    simp only [Except.map, Except.bind]
    rw [parseSign_text (starts₁.mono fun _ => not_sign) closed₁]
    cases takeSign arg spec d.sign with
    | error e => rfl
    | ok spec =>
      simp only [Except.map]
      rw [parseHash_text (starts₂.mono fun _ => not_hash) closed₂]
      cases takeHash arg spec d.hash with
      | error e => rfl
      | ok spec =>
        simp only [Except.map]
        rw [parseWidth_text width (starts₃.mono fun _ => not_digit) closed₃]
        cases takeWidth arg spec d.zero d.width with
        | error e => rfl
        | ok spec =>
          simp only [Except.map]
          rw [parsePrecision_text literal argument (starts₄.mono fun _ => not_dot) closed₄]
          cases takePrecision args arg next d.precision with
          | error e => rfl
          | ok x =>
            simp only [Except.map]
            rw [parseType_text letter]

theorem field_text (args : List ArgInfo) (next : Int) {s : Bytes} {index : Option Nat}
    {directive : Option Directive}
    (sound : (Segment.field index directive).Sound) :
    FormatParser.field args next (indexText index ++
        (directive.elim [] fun d => byte ':' :: d.text) ++ closeBrace :: s) =
      (takeArg args next index).bind fun x =>
        (directive.elim (.ok (.empty, -1, x.2)) fun d => d.meaning args x.1 x.2).bind fun y =>
          (FormatParser.formatArg y.1 y.2.1 x.1).map fun text => (text, y.2.2, s) := by
  obtain ⟨small, written⟩ := sound
  cases directive with
  | none =>
    have read := parseArgIndex_text args next (s := closeBrace :: s) small
      (by rfl) (closes_close s)
    simp only [Option.elim, List.append_nil, FormatParser.field, read]
    cases takeArg args next index with
    | error e => rfl
    | ok x =>
      simp [Except.map, Except.bind, closeBrace, byte]
  | some d =>
    have closed : Closes 1 (byte ':' :: (d.text ++ closeBrace :: s)) :=
      (closes_text (written d rfl)).append (u := [byte ':'])
        (List.forall_mem_singleton.mpr (by decide))
    have read := parseArgIndex_text args next
      (s := byte ':' :: (d.text ++ closeBrace :: s)) small (by rfl) closed
    simp only [Option.elim, FormatParser.field, List.append_assoc, List.cons_append, read]
    cases takeArg args next index with
    | error e => rfl
    | ok x =>
      simp only [Except.map, Except.bind, List.head?_cons, if_true, List.tail_cons,
        parseSpec_text (written d rfl)]
      cases d.meaning args x.1 x.2 with
      | error e => rfl
      | ok y => simp

theorem head_field (index : Option Nat) (directive : Option Directive) :
    (indexText index ++ (directive.elim [] fun d => byte ':' :: d.text) ++
      closeBrace :: s).head? ≠ some openBrace := by
  cases index with
  | none => cases directive <;> simp [indexText, closeBrace, openBrace, byte]
  | some i =>
    intro head
    rw [indexText, Option.elim, List.append_assoc,
      List.head?_append_of_ne_nil _ (numeral_ne_nil 10 false i)] at head
    have digit := isDigit_numeral i _ (List.mem_of_mem_head? head)
    exact absurd digit (by decide)

end fields

section loop
variable {args : List ArgInfo} {next : Int} {s : Bytes}

theorem result_after (piece : Piece) (f : Formatted) :
    (f.after piece).result = f.result.map (piece.text ++ ·) := by
  unfold Formatted.result Formatted.after
  cases f.error <;> simp [Except.map]

theorem map_append (x : Except FormatError Bytes) (u v : Bytes) :
    (x.map (v ++ ·)).map (u ++ ·) = x.map ((u ++ v) ++ ·) := by
  cases x <;> simp [Except.map]

theorem map_nil (x : Except FormatError Bytes) : x.map ([] ++ ·) = x := by
  cases x <;> rfl

theorem scan_held (held s : Bytes) :
    (scan args 0 next held s).result = (scan args 0 next [] s).result.map (held ++ ·) := by
  induction s generalizing held with
  | nil => simp [scan, Formatted.result, Piece.text, Except.map]
  | cons c s ih =>
    rw [scan, scan]
    split
    · rw [ih, List.nil_append, ih [c], map_append]
    split
    · rw [result_after, result_after, map_append]
      simp [Piece.text]
    split
    · rfl
    · cases FormatParser.field args next s with
      | error e => rfl
      | ok x =>
        simp only [result_after, map_append]
        simp [Piece.text]

theorem scan_skip (args : List ArgInfo) (next : Int) (u s : Bytes) :
    scan args u.length next [] (u ++ s) = scan args 0 next [] s := by
  induction u with
  | nil => rfl
  | cons c u ih => exact ih

/-- Doubled braces are written once, and other letters as they are. -/
theorem scan_escaped (bytes : Bytes) :
    (scan args 0 next [] (escaped bytes ++ s)).result =
      (scan args 0 next [] s).result.map (bytes ++ ·) := by
  induction bytes with
  | nil => exact (map_nil _).symm
  | cons c bytes ih =>
    rw [escaped, List.flatMap_cons, List.append_assoc]
    by_cases brace : c = openBrace ∨ c = closeBrace
    · rw [if_pos brace, List.cons_append, List.cons_append, List.nil_append, scan,
        if_neg (by tauto), List.head?_cons, if_pos rfl, result_after]
      have skipped := scan_skip args next [c] (escaped bytes ++ s)
      rw [List.length_singleton, List.singleton_append] at skipped
      rw [← escaped, skipped, ih, map_append]
      rfl
    · rw [if_neg brace, List.singleton_append, scan, if_pos (by tauto), scan_held, ← escaped, ih,
        map_append]
      rfl

theorem scan_render {template : List Segment} (sound : ∀ x ∈ template, x.Sound) :
    (scan args 0 next [] (render template)).result = meaning args next template := by
  induction template generalizing next with
  | nil => rfl
  | cons x template ih =>
    have rest := fun next => @ih next fun y hy => sound y (by simp [hy])
    rw [render, List.flatMap_cons, ← render]
    cases x with
    | text bytes => rw [Segment.render, scan_escaped, rest, meaning]
    | field index directive =>
      have read := field_text args next (s := render template)
        (sound _ (List.mem_cons_self))
      have length (u : Bytes) : (u ++ closeBrace :: render template).length -
          (render template).length = (u ++ [closeBrace]).length := by
        simp only [List.length_append, List.length_cons, List.length_nil]
        omega
      have skip (next : Int) (u : Bytes) := scan_skip args next
        (u ++ [closeBrace]) (render template)
      simp only [List.append_assoc, List.singleton_append] at skip
      rw [Segment.render, List.cons_append, List.append_assoc, List.singleton_append, scan,
        if_neg (by decide), if_neg (head_field index directive), if_neg (by decide), read, meaning]
      cases takeArg args next index with
      | error e => rfl
      | ok x =>
        simp only [Except.bind]
        cases directive.elim (.ok (.empty, -1, x.2)) fun d => d.meaning args x.1 x.2 with
        | error e => rfl
        | ok y =>
          simp only [Except.map]
          cases FormatParser.formatArg y.1 y.2.1 x.1 with
          | error e => rfl
          | ok text =>
            simp only [length, skip, result_after, rest, Piece.text, List.nil_append]
            cases meaning args y.2.2 template <;> rfl

end loop

/-- `Format` with a rendered template does what the template says: it writes its text, or
throws the first error of a field under its own name. -/
theorem format_render (args : List ArgInfo) {template : List Segment}
    (sound : ∀ x ∈ template, x.Sound) :
    (format (render template) args).result = meaning args 0 template := scan_render sound

def starred : List Segment :=
  [.text [openBrace],
    .field none (some ⟨some (some (byte '*'), .center), none, false, false, some 7, none, none⟩)]

theorem format_render_starred :
    (∀ x ∈ starred, x.Sound) ∧
      (format (render starred) [.cString (some (ascii ['h', 'i']))]).result =
        .ok (ascii ['\x7b', '*', '*', 'h', 'i', '*', '*', '*']) := by
  have directive : (⟨some (some (byte '*'), .center), none, false, false, some 7, none, none⟩ :
      Directive).Sound := by
    refine ⟨by simp [Directive.text, alignText], ?_, ?_, nofun, nofun, nofun⟩
    · rintro c side ⟨⟩
      exact ⟨by decide, by decide⟩
    · rintro w ⟨⟩
      exact ⟨by decide, nofun⟩
  have sound : ∀ x ∈ starred, x.Sound := by
    refine List.forall_mem_cons.mpr ⟨trivial, List.forall_mem_singleton.mpr ⟨nofun, ?_⟩⟩
    rintro d ⟨⟩
    exact directive
  exact ⟨sound, (format_render _ sound).trans rfl⟩

end CqIrc.Fmt
