import Mathlib.Data.Nat.Digits.Lemmas
import CqIrc.Fmt.Format

/-! Decimal numbers in a format. `ParseUInt` computes modulo `2 ^ 32` and takes a value that
becomes smaller for an overflow. Some overflows make it larger, and are not seen; the
values that come out of these are too large for the index of an argument, but not for a
width. -/

namespace CqIrc.Fmt

def valueFrom (value : Nat) (ds : Bytes) : Nat :=
  ds.foldl (fun v c => v * 10 + (c - byte '0').toNat) value

def numeral (base : Nat) (upper : Bool) (n : Nat) : Bytes :=
  if n = 0 then [byte '0'] else (Nat.digits base n).reverse.map (digitChar upper)

theorem numeral_ne_nil (base : Nat) (upper : Bool) (n : Nat) : numeral base upper n ≠ [] := by
  unfold numeral
  split
  · simp
  · next pos => simpa [Nat.digits_eq_nil_iff_eq_zero] using pos

theorem numeral_of_lt {base n : Nat} (upper : Bool) (h : n < base) :
    numeral base upper n = [digitChar upper n] := by
  unfold numeral
  split
  · next zero => rw [zero]; rfl
  · next pos => rw [Nat.digits_of_lt base n pos h]; rfl

theorem numeral_of_le {base n : Nat} (upper : Bool) (hb : 1 < base) (h : base ≤ n) :
    numeral base upper n = numeral base upper (n / base) ++ [digitChar upper (n % base)] := by
  have pos : n ≠ 0 := by omega
  have quotient : n / base ≠ 0 := (Nat.div_pos h (by omega)).ne'
  rw [numeral, if_neg pos, numeral, if_neg quotient,
    Nat.digits_def' hb (Nat.pos_of_ne_zero pos), List.reverse_cons, List.map_append]
  rfl

theorem length_numeral {base : Nat} (upper : Bool) (hb : 1 < base) (n : Nat) :
    (numeral base upper n).length = Nat.log base n + 1 := by
  unfold numeral
  split
  · next zero => simp [zero]
  · next pos => rw [List.length_map, List.length_reverse, Nat.length_digits base n hb pos]

theorem digitChar_value : ∀ d < 10, (digitChar false d - byte '0').toNat = d := by decide

theorem isDigit_digitChar : ∀ d < 10, isDigit (digitChar false d) = true := by decide

theorem isDigit_numeral (n : Nat) : ∀ c ∈ numeral 10 false n, isDigit c = true := by
  unfold numeral
  split
  · simpa using (by decide : isDigit (byte '0') = true)
  · intro c hc
    obtain ⟨d, hd, rfl⟩ := List.mem_map.mp hc
    exact isDigit_digitChar d (Nat.digits_lt_base (by decide) (List.mem_reverse.mp hd))

theorem valueFrom_numeral (n : Nat) : valueFrom 0 (numeral 10 false n) = n := by
  unfold numeral
  split
  · next zero =>
    subst zero
    decide
  · have small : ∀ d ∈ Nat.digits 10 n, d < 10 := fun d hd => Nat.digits_lt_base (by decide) hd
    have folded : ∀ ds : List Nat, (∀ d ∈ ds, d < 10) →
        ds.foldr (fun d v => v * 10 + (digitChar false d - byte '0').toNat) 0 =
          Nat.ofDigits 10 ds := by
      intro ds hds
      induction ds with
      | nil => rfl
      | cons d ds ih =>
        rw [List.foldr_cons, ih fun e he => hds e (by simp [he]), Nat.ofDigits_cons,
          digitChar_value d (hds d (by simp))]
        omega
    rw [valueFrom, List.foldl_map, List.foldl_reverse, folded _ small, Nat.ofDigits_digits]

theorem valueFrom_cons (value : Nat) (c : Byte) (ds : Bytes) :
    valueFrom value (c :: ds) = valueFrom (value * 10 + (c - byte '0').toNat) ds := rfl

theorem le_valueFrom (value : Nat) (ds : Bytes) : value ≤ valueFrom value ds := by
  induction ds generalizing value with
  | nil => exact le_rfl
  | cons c ds ih =>
    have next := ih (value * 10 + (c - byte '0').toNat)
    rw [valueFrom_cons]
    omega

theorem digit_lt {c : Byte} (h : isDigit c = true) : (c - byte '0').toNat < 10 := by
  have all : ∀ c : Byte, isDigit c = true → (c - byte '0').toNat < 10 := by
    intro c hc
    simp only [isDigit, Bool.and_eq_true, decide_eq_true_eq, UInt8.le_iff_toNat_le] at hc
    have lower : (byte '0').toNat = 48 := by decide
    rw [UInt8.toNat_sub_of_le _ _ (UInt8.le_iff_toNat_le.mpr (by simpa [lower] using hc.1)), lower]
    have upper : c.toNat ≤ 57 := by simpa using hc.2
    omega
  exact all c h

section digits
variable {n : Int} {value : Nat} {ds s : Bytes}

theorem parseDigits_stop (h : atDigit s = false) : parseDigits n value s = .ok (value, s) := by
  cases s with
  | nil => rfl
  | cons c s =>
    have other : isDigit c = false := by simpa [atDigit] using h
    simp [parseDigits, other]

theorem parseDigits_exact (hd : ∀ c ∈ ds, isDigit c = true) (stop : atDigit s = false)
    (fits : valueFrom value ds < 2 ^ 32) :
    parseDigits n value (ds ++ s) = .ok (valueFrom value ds, s) := by
  induction ds generalizing value with
  | nil => exact parseDigits_stop stop
  | cons c ds ih =>
    have later : valueFrom (value * 10 + (c - byte '0').toNat) ds < 2 ^ 32 := fits
    have small := le_valueFrom (value * 10 + (c - byte '0').toNat) ds
    have same : (value * 10 + (c - byte '0').toNat) % 2 ^ 32 =
        value * 10 + (c - byte '0').toNat := Nat.mod_eq_of_lt (by omega)
    rw [List.cons_append, parseDigits, if_pos (hd c (by simp))]
    simp only [same]
    rw [if_neg (by omega), ih (fun e he => hd e (by simp [he])) later]
    rfl

theorem valueFrom_mod {v w : Nat} (h : v % 2 ^ 32 = w % 2 ^ 32) (ds : Bytes) :
    valueFrom v ds % 2 ^ 32 = valueFrom w ds % 2 ^ 32 := by
  induction ds generalizing v w with
  | nil => exact h
  | cons c ds ih =>
    rw [valueFrom_cons, valueFrom_cons]
    refine ih ?_
    omega

/-- Whatever is read is the number modulo `2 ^ 32`, and never less than what was read of
it before. -/
theorem parseDigits_mod (hd : ∀ c ∈ ds, isDigit c = true) (stop : atDigit s = false)
    (small : value < 2 ^ 32) {w : Nat} {rest : Bytes}
    (h : parseDigits n value (ds ++ s) = .ok (w, rest)) :
    rest = s ∧ w = valueFrom value ds % 2 ^ 32 ∧ value ≤ w := by
  induction ds generalizing value with
  | nil =>
    rw [List.nil_append, parseDigits_stop stop] at h
    obtain ⟨rfl, rfl⟩ := Prod.mk.inj (Except.ok.inj h)
    exact ⟨rfl, (Nat.mod_eq_of_lt small).symm, le_rfl⟩
  | cons c ds ih =>
    rw [List.cons_append, parseDigits, if_pos (hd c (by simp))] at h
    simp only at h
    split at h
    · cases h
    · next kept =>
      obtain ⟨same, value_eq, larger⟩ :=
        ih (fun e he => hd e (by simp [he])) (Nat.mod_lt _ (by decide)) h
      refine ⟨same, ?_, (Nat.le_of_not_lt kept).trans larger⟩
      rw [value_eq]
      exact valueFrom_mod (Nat.mod_mod _ _) ds

/-- An overflow that is not seen leaves a large value. -/
theorem parseDigits_large (hd : ∀ c ∈ ds, isDigit c = true) (stop : atDigit s = false)
    (small : value < 2 ^ 32) (large : 2 ^ 32 ≤ valueFrom value ds) {w : Nat} {rest : Bytes}
    (h : parseDigits n value (ds ++ s) = .ok (w, rest)) : 429496729 ≤ w := by
  induction ds generalizing value with
  | nil => exact absurd large (by simpa [valueFrom] using small)
  | cons c ds ih =>
    have digit := digit_lt (hd c (by simp))
    have read := parseDigits_mod hd stop small h
    by_cases beyond : 2 ^ 32 ≤ value * 10 + (c - byte '0').toNat
    · omega
    · have same : (value * 10 + (c - byte '0').toNat) % 2 ^ 32 =
          value * 10 + (c - byte '0').toNat := Nat.mod_eq_of_lt (by omega)
      rw [List.cons_append, parseDigits, if_pos (hd c (by simp))] at h
      simp only [same] at h
      rw [if_neg (Nat.not_lt.mpr (by omega))] at h
      exact ih (fun e he => hd e (by simp [he])) (Nat.lt_of_not_le beyond) large h

end digits

theorem atDigit_append {ds s : Bytes} (hd : ∀ c ∈ ds, isDigit c = true) (ne : ds ≠ []) :
    atDigit (ds ++ s) = true := by
  cases ds with
  | nil => exact absurd rfl ne
  | cons c ds => simpa [atDigit] using hd c (by simp)

theorem parseUInt_numeral {n : Int} {value : Nat} {s : Bytes} (fits : value < 2 ^ 32)
    (stop : atDigit s = false) :
    parseUInt n (numeral 10 false value ++ s) = .ok (value, s) := by
  have exact_ := valueFrom_numeral value
  rw [parseUInt, parseDigits_exact (isDigit_numeral value) stop (by omega), exact_]

/-- The argument of an explicit index is the one of the decimal number that is written, in
spite of the overflows that are not seen. -/
theorem argument_of_index {args : List ArgInfo} (few : args.length ≤ 429496729)
    {p : FormatParser} {ds s : Bytes} (hs : p.s = ds ++ s) (hd : ∀ c ∈ ds, isDigit c = true)
    (ne : ds ≠ []) (stop : atDigit s = false) (manual : p.nextArgIndex ≤ 0) :
    (∀ arg, args[valueFrom 0 ds]? = some arg →
      p.parseArgIndex args = .ok (arg, { p with s := s, nextArgIndex := -1 })) ∧
    (args[valueFrom 0 ds]? = none → ∃ e, p.parseArgIndex args = .error e) := by
  have start : p.argIndex = (parseUInt p.numOpenBraces (ds ++ s)).map fun x =>
      (x.1, { p with s := x.2, nextArgIndex := -1 }) := by
    rw [FormatParser.argIndex, hs, atDigit_append hd ne, if_neg (by simp), if_neg (by omega)]
  constructor
  · intro arg ha
    obtain ⟨inside, -⟩ := List.getElem?_eq_some_iff.mp ha
    rw [FormatParser.parseArgIndex, start, parseUInt, parseDigits_exact hd stop (by omega)]
    simp only [Except.map, Except.bind, ha]
  · intro outside
    have beyond := List.getElem?_eq_none_iff.mp outside
    cases read : parseUInt p.numOpenBraces (ds ++ s) with
    | error e => exact ⟨e, by rw [FormatParser.parseArgIndex, start, read]; rfl⟩
    | ok x =>
      have none : args[x.1]? = none := by
        refine List.getElem?_eq_none_iff.mpr ?_
        by_cases fits : valueFrom 0 ds < 2 ^ 32
        · rw [parseUInt, parseDigits_exact hd stop fits] at read
          obtain rfl := Except.ok.inj read
          exact beyond
        · exact few.trans (parseDigits_large hd stop (by decide) (Nat.le_of_not_lt fits) read)
      rw [FormatParser.parseArgIndex, start, read]
      simp only [Except.map, Except.bind, none]
      exact ⟨_, rfl⟩

def tenMilliards : Bytes := ascii ['1', '0', '0', '0', '0', '0', '0', '0', '0', '0', '0']

theorem argument_of_tenMilliards :
    parseUInt 1 (tenMilliards ++ [closeBrace]) = .ok (1410065408, [closeBrace]) ∧
      ∃ e, FormatParser.parseArgIndex [.cString none] ⟨tenMilliards ++ [closeBrace], 1, 0⟩ =
        .error e :=
  ⟨rfl, (argument_of_index (by decide) rfl
    (List.all_eq_true.mp (by decide)) (by decide) rfl le_rfl).2 (by decide)⟩

end CqIrc.Fmt
