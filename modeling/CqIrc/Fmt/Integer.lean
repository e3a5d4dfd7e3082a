import CqIrc.Fmt.Number

/-! Integers. `FormatInt` counts the digits by the length of the number in bits, prepares an
area of the whole width and writes the digits into it from the last; what comes out is the
numeral with its sign, the letters of its base and the padding. -/

namespace CqIrc.Fmt

section areas
variable {b u v w x : Bytes} {i : Nat}

theorem put_block (h : x.length = v.length) :
    put (u ++ (v ++ w)) u.length x = u ++ (x ++ w) := by
  rw [put, List.take_left, h, ← List.append_assoc, ← List.length_append, List.drop_left,
    List.append_assoc]

theorem put_at (hb : b = u ++ (v ++ w)) (hi : i = u.length) (h : x.length = v.length) :
    put b i x = u ++ (x ++ w) := by
  rw [hb, hi, put_block h]

theorem fill_at {j : Nat} (hb : b = u ++ (v ++ w)) (hi : i = u.length) (hj : j = i + v.length)
    (c : Byte) : fill b i j c = u ++ (List.replicate v.length c ++ w) := by
  rw [fill, hj, Nat.add_sub_cancel_left, put_at hb hi (List.length_replicate ..)]

theorem length_put (h : i + u.length ≤ b.length) : (put b i u).length = b.length := by
  simp only [put, List.length_append, List.length_take, List.length_drop]
  omega

theorem length_fill {j : Nat} (hi : i ≤ j) (hj : j ≤ b.length) (c : Byte) :
    (fill b i j c).length = b.length := by
  refine length_put ?_
  rw [List.length_replicate]
  omega

theorem put_front (h : i + u.length ≤ b.length) :
    put (put b (i + u.length) v) i u = put b i (u ++ v) := by
  have front : (b.take (i + u.length)).length = i + u.length := List.length_take_of_le h
  have outer : (put b (i + u.length) v).take i = b.take i := by
    rw [put, List.append_assoc, List.take_append_of_le_length (by omega), List.take_take,
      Nat.min_eq_left (by omega)]
  have behind : (put b (i + u.length) v).drop (i + u.length) =
      v ++ b.drop (i + (u ++ v).length) := by
    rw [put, List.append_assoc, List.drop_append_of_le_length (by omega), List.drop_take_self,
      List.nil_append, List.length_append, Nat.add_assoc]
  rw [put, outer, behind, put]
  simp

end areas

section count

theorem digits_of_bits : ∀ k < 64, 10 ^ (((k + 1) * 1233) >>> 12 - 1) ≤ 2 ^ k ∧
    2 ^ (k + 1) ≤ 10 ^ (((k + 1) * 1233) >>> 12 + 1) := by decide

theorem digits_of_few_bits : ∀ k < 64, ((k + 1) * 1233) >>> 12 = 0 → k < 3 := by decide

theorem log2_or_one {n : Nat} (pos : n ≠ 0) : (n ||| 1).log2 = n.log2 := by
  have ne : n ||| 1 ≠ 0 := by
    have := Nat.left_le_or (n := n) (m := 1)
    omega
  obtain ⟨low, high⟩ := (Nat.log2_eq_iff pos).mp rfl
  refine (Nat.log2_eq_iff ne).mpr ⟨low.trans Nat.left_le_or, Nat.or_lt_two_pow high ?_⟩
  exact Nat.one_lt_two_pow (Nat.succ_ne_zero _)

/-- `CountDigits` counts the digits of every number of 64 bits. -/
theorem countDigits_eq {n : Nat} (h : n < 2 ^ 64) : countDigits n = Nat.log 10 n + 1 := by
  by_cases pos : n = 0
  · subst pos
    decide
  obtain ⟨low, high⟩ := (Nat.log2_eq_iff pos).mp rfl
  have bits : n.log2 < 64 := (Nat.log2_lt pos).mpr h
  obtain ⟨below, above⟩ := digits_of_bits _ bits
  have few := digits_of_few_bits _ bits
  simp only [countDigits, log2_or_one pos]
  generalize ((n.log2 + 1) * 1233) >>> 12 = t at below above few
  have ge : 10 ^ (t - 1) ≤ n := below.trans low
  have lt : n < 10 ^ (t + 1) := high.trans_le above
  cases t with
  | zero =>
    have one : n < 10 := lt
    rw [powersOf10, if_pos rfl, if_neg (Nat.not_lt_zero n), Nat.log_of_lt one]
  | succ t =>
    rw [powersOf10, if_neg (Nat.succ_ne_zero t)]
    by_cases less : n < 10 ^ (t + 1)
    · rw [if_pos less, Nat.log_eq_of_pow_le_of_lt_pow (by simpa using ge) less]
      omega
    · rw [if_neg less, Nat.log_eq_of_pow_le_of_lt_pow (Nat.le_of_not_lt less) lt]
      omega

end count

section write
variable {b : Bytes} {p : Nat}

theorem digits_pair : ∀ v < 100,
    [digits (v * 2), digits (v * 2 + 1)] = [digitChar false (v / 10), digitChar false (v % 10)] := by
  decide

theorem numeral_two {n : Nat} (h : 100 ≤ n) :
    numeral 10 false n = numeral 10 false (n / 100) ++
      [digits (n % 100 * 2), digits (n % 100 * 2 + 1)] := by
  have tens : n / 10 % 10 = n % 100 / 10 := by omega
  have ones : n % 10 = n % 100 % 10 := by omega
  have hundreds : n / 10 / 10 = n / 100 := by omega
  rw [digits_pair _ (Nat.mod_lt n (by decide)), numeral_of_le false (by decide) (by omega),
    numeral_of_le false (by decide) (show 10 ≤ n / 10 by omega), tens, ones, hundreds,
    List.append_assoc]
  rfl

theorem formatDecimal_eq {value last : Nat} (count : (numeral 10 false value).length = last + 1)
    (room : p + last < b.length) :
    formatDecimal b p value last = put b p (numeral 10 false value) := by
  induction value using Nat.strong_induction_on generalizing b last with
  | _ value ih =>
    rw [formatDecimal]
    by_cases large : value ≥ 100
    · have two := numeral_two large
      have ne := List.length_pos_iff.mpr (numeral_ne_nil 10 false (value / 100))
      rw [two, List.length_append, List.length_cons, List.length_singleton] at count
      have at_ : p + last = p + last - 1 + 1 := by omega
      have pair : put (put b (p + last) [digits (value % 100 * 2 + 1)]) (p + last - 1)
          [digits (value % 100 * 2)] =
          put b (p + last - 1) [digits (value % 100 * 2), digits (value % 100 * 2 + 1)] := by
        conv_lhs => rw [at_, Nat.add_sub_cancel]
        exact put_front (u := [digits (value % 100 * 2)]) (by simp; omega)
      have where_ : p + last - 1 = p + (numeral 10 false (value / 100)).length := by omega
      rw [if_pos large]
      simp only [pair]
      rw [ih (value / 100) (by omega) (by omega) (by rw [length_put (by simp; omega)]; omega),
        where_, put_front (by omega), ← two]
    · rw [if_neg large]
      by_cases one : value < 10
      · rw [if_pos one, numeral_of_lt false one]
        simp [digitChar, one]
      · have two : numeral 10 false value = [digits (value * 2), digits (value * 2 + 1)] := by
          rw [digits_pair value (by omega), numeral_of_le false (by decide) (by omega),
            numeral_of_lt false (by omega)]
          rfl
        rw [two] at count
        simp only [List.length_cons, List.length_nil] at count
        rw [if_neg one, two]
        exact put_front (u := [digits (value * 2)]) (by simp; omega)

theorem countShifted_eq {bits : Nat} (hb : bits ≠ 0) (upper : Bool) (n : Nat) :
    countShifted bits n = (numeral (2 ^ bits) upper n).length := by
  have base : 1 < 2 ^ bits := Nat.one_lt_two_pow hb
  induction n using Nat.strong_induction_on with
  | _ n ih =>
    rw [countShifted]
    by_cases more : n >>> bits ≠ 0
    · have le : 2 ^ bits ≤ n := by
        rw [Nat.shiftRight_eq_div_pow] at more
        exact Nat.le_of_not_lt fun lt => more (Nat.div_eq_of_lt lt)
      rw [dif_pos ⟨hb, more⟩, numeral_of_le upper base le, List.length_append,
        Nat.shiftRight_eq_div_pow, ih _ (Nat.div_lt_self (by omega) base)]
      rfl
    · have lt : n < 2 ^ bits := by
        rw [Nat.shiftRight_eq_div_pow, ne_eq, not_not, Nat.div_eq_zero_iff] at more
        omega
      rw [dif_neg fun both => more both.2, numeral_of_lt upper lt]
      rfl

theorem writeShifted_eq {bits : Nat} (hb : bits ≠ 0) {upper : Bool} {n : Nat}
    (room : (numeral (2 ^ bits) upper n).length ≤ p + 1) (inside : p < b.length) :
    writeShifted bits upper b p n =
      (put b (p + 1 - (numeral (2 ^ bits) upper n).length) (numeral (2 ^ bits) upper n),
        p - (numeral (2 ^ bits) upper n).length) := by
  have base : 1 < 2 ^ bits := Nat.one_lt_two_pow hb
  induction n using Nat.strong_induction_on generalizing b p with
  | _ n ih =>
    rw [writeShifted]
    by_cases more : n >>> bits ≠ 0
    · have le : 2 ^ bits ≤ n := by
        rw [Nat.shiftRight_eq_div_pow] at more
        exact Nat.le_of_not_lt fun lt => more (Nat.div_eq_of_lt lt)
      have whole := numeral_of_le upper base le
      have ne := List.length_pos_iff.mpr (numeral_ne_nil (2 ^ bits) upper (n / 2 ^ bits))
      rw [whole, List.length_append, List.length_singleton] at room ⊢
      simp only [dif_pos (show bits ≠ 0 ∧ n >>> bits ≠ 0 from ⟨hb, more⟩)]
      rw [Nat.shiftRight_eq_div_pow, ih _ (Nat.div_lt_self (by omega) base) (by omega)
        (by rw [length_put (by simp; omega)]; omega)]
      have start : p + 1 - ((numeral (2 ^ bits) upper (n / 2 ^ bits)).length + 1) =
          p - 1 + 1 - (numeral (2 ^ bits) upper (n / 2 ^ bits)).length := by omega
      have behind : p = p - 1 + 1 - (numeral (2 ^ bits) upper (n / 2 ^ bits)).length +
          (numeral (2 ^ bits) upper (n / 2 ^ bits)).length := by omega
      rw [start]
      refine Prod.ext ?_ (by simp only; omega)
      have joined := put_front (b := b) (v := [digitChar upper (n % 2 ^ bits)])
        (i := p - 1 + 1 - (numeral (2 ^ bits) upper (n / 2 ^ bits)).length)
        (u := numeral (2 ^ bits) upper (n / 2 ^ bits)) (by omega)
      rwa [← behind] at joined
    · have lt : n < 2 ^ bits := by
        rw [Nat.shiftRight_eq_div_pow, ne_eq, not_not, Nat.div_eq_zero_iff] at more
        omega
      simp only [dif_neg (show ¬ (bits ≠ 0 ∧ n >>> bits ≠ 0) from fun both => more both.2)]
      rw [numeral_of_lt upper lt, Nat.mod_eq_of_lt lt]
      rfl

end write

/-- A text behind its sign, padded: between the two where the alignment is numeric. -/
def padded (spec : FormatSpec) (sign text : Bytes) : Bytes :=
  let padding := spec.width - (sign.length + text.length)
  match spec.align with
  | .numeric => sign ++ (List.replicate padding spec.fill ++ text)
  | .left => sign ++ (text ++ List.replicate padding spec.fill)
  | .center =>
    List.replicate (padding / 2) spec.fill ++ (sign ++ (text ++
      List.replicate (padding - padding / 2) spec.fill))
  | _ => List.replicate padding spec.fill ++ (sign ++ text)

def signBytes (sign : Byte) : Bytes := if sign = nul then [] else [sign]

section padding
variable (spec : FormatSpec) (sign : Byte) {t : Bytes}

def signed (sign : Byte) (size : Nat) : Bytes := sign :: List.replicate (size - 1) nul

theorem growBuffer_add (n k : Nat) : growBuffer (n + k) = growBuffer n ++ growBuffer k :=
  (List.replicate_append_replicate ..).symm

theorem length_growBuffer (n : Nat) : (growBuffer n).length = n := List.length_replicate ..

theorem length_signed (n : Nat) : (signed sign (n + 1)).length = n + 1 := by simp [signed]

theorem put_signed (l r : Bytes) (ne : t ≠ []) :
    put (l ++ (signed sign ((signBytes sign).length + t.length) ++ r))
        (l.length + ((signBytes sign).length + t.length) - t.length) t =
      l ++ (signBytes sign ++ (t ++ r)) := by
  have pos := List.length_pos_iff.mpr ne
  unfold signBytes
  split
  · have area : (signed sign (0 + t.length)).length = t.length := by
      simp only [signed, List.length_cons, List.length_replicate]
      omega
    rw [List.length_nil, Nat.zero_add, Nat.add_sub_cancel, ← Nat.zero_add t.length,
      put_block (by rw [area])]
    rfl
  · have split : signed sign (1 + t.length) = [sign] ++ List.replicate t.length nul := by
      simp [signed]
    have front : l.length + (1 + t.length) - t.length = (l ++ [sign]).length := by
      simp only [List.length_append, List.length_singleton]
      omega
    rw [List.length_singleton, split, front, List.append_assoc, ← List.append_assoc l,
      put_block (by simp), List.append_assoc]

theorem put_sign {b l r : Bytes} {i n : Nat} (hb : b = l ++ (growBuffer (n + 1) ++ r))
    (hi : i = l.length) : put b i [sign] = l ++ (signed sign (n + 1) ++ r) :=
  put_at (v := [nul]) (w := growBuffer n ++ r) hb hi rfl

theorem prepareFilledBuffer_put (ne : t ≠ []) :
    let filled := prepareFilledBuffer ((signBytes sign).length + t.length) spec sign
    put filled.1 (filled.2 + 1 - t.length) t = padded spec (signBytes sign) t := by
  have pos := List.length_pos_iff.mpr ne
  have around (l r : Bytes) := put_signed sign l r ne
  obtain ⟨n, size⟩ : ∃ n, (signBytes sign).length + t.length = n + 1 :=
    ⟨(signBytes sign).length + t.length - 1, by omega⟩
  simp only
  rw [size] at around
  simp only [size, prepareFilledBuffer, padded]
  by_cases narrow : spec.width ≤ n + 1
  · have tight : spec.width - (n + 1) = 0 := by omega
    have area := put_sign sign (i := 0) (n := n) (l := []) (r := [])
      (b := growBuffer (n + 1)) (by simp) rfl
    have whole := around [] []
    rw [if_pos narrow, area, tight]
    simp only [List.nil_append, List.append_nil, List.length_nil, Nat.zero_add,
      Nat.add_sub_cancel, List.replicate_zero, Nat.zero_div, Nat.zero_sub] at whole ⊢
    rw [whole]
    cases spec.align <;> rfl
  · obtain ⟨pad, width⟩ : ∃ pad, spec.width = n + 1 + pad := ⟨spec.width - (n + 1), by omega⟩
    have room := length_growBuffer pad
    rw [if_neg narrow, width, Nat.add_sub_cancel_left]
    cases spec.align with
    | left =>
      have area := put_sign sign (b := growBuffer (n + 1 + pad)) (i := 0) (l := [])
        (growBuffer_add (n + 1) pad) rfl
      have filled := fill_at (b := [] ++ (signed sign (n + 1) ++ growBuffer pad)) (w := [])
        (i := n + 1) (j := n + 1 + pad) (u := signed sign (n + 1)) (v := growBuffer pad)
        (by simp) (length_signed sign n).symm (by rw [room]) spec.fill
      have whole := around [] (List.replicate pad spec.fill)
      rw [room, List.append_nil] at filled
      simp only [area, filled, Nat.add_sub_cancel]
      simpa using whole
    | center =>
      have split : growBuffer (n + 1 + pad) = growBuffer (pad / 2) ++
          (growBuffer (n + 1) ++ growBuffer (pad - pad / 2)) := by
        rw [← growBuffer_add, ← growBuffer_add]
        congr 1
        omega
      have filled := fill_at (b := growBuffer (n + 1 + pad)) (i := 0) (j := pad / 2) (u := [])
        (w := growBuffer (n + 1) ++ growBuffer (pad - pad / 2)) (v := growBuffer (pad / 2))
        split rfl (by rw [length_growBuffer, Nat.zero_add]) spec.fill
      have behind := fill_at
        (b := List.replicate (pad / 2) spec.fill ++
          (growBuffer (n + 1) ++ growBuffer (pad - pad / 2)))
        (i := pad / 2 + (n + 1)) (j := n + 1 + pad) (w := [])
        (u := List.replicate (pad / 2) spec.fill ++ growBuffer (n + 1))
        (v := growBuffer (pad - pad / 2)) (by simp) (by simp [length_growBuffer])
        (by rw [length_growBuffer]; omega) spec.fill
      have area := put_sign sign
        (b := List.replicate (pad / 2) spec.fill ++ growBuffer (n + 1) ++
          List.replicate (pad - pad / 2) spec.fill)
        (i := pad / 2) (n := n) (l := List.replicate (pad / 2) spec.fill)
        (r := List.replicate (pad - pad / 2) spec.fill) (by simp) (by simp)
      have whole := around (List.replicate (pad / 2) spec.fill)
        (List.replicate (pad - pad / 2) spec.fill)
      rw [length_growBuffer, List.nil_append] at filled
      rw [length_growBuffer, List.append_nil] at behind
      rw [List.length_replicate] at whole
      simp only [filled, behind, area]
      rw [show pad / 2 + (n + 1) - 1 + 1 = pad / 2 + (n + 1) by omega]
      exact whole
    | numeric =>
      by_cases none : sign = nul
      · subst none
        have filled := fill_at (b := growBuffer (n + 1 + pad)) (i := 0) (j := pad) (u := [])
          (v := growBuffer pad) (w := growBuffer (n + 1))
          (by rw [List.nil_append, Nat.add_comm, growBuffer_add]) rfl (by omega) spec.fill
        have whole := around (List.replicate pad spec.fill) []
        rw [length_growBuffer, List.nil_append] at filled
        rw [List.length_replicate, List.append_nil] at whole
        have area : signed nul (n + 1) = growBuffer (n + 1) := rfl
        simp only [if_true, filled]
        rw [show n + 1 + pad - 1 + 1 = pad + (n + 1) by omega, ← area]
        simpa [signBytes] using whole
      · have one : signBytes sign = [sign] := if_neg none
        have text_length : t.length = n := by
          rw [one, List.length_singleton] at size
          omega
        have area : put (growBuffer (n + 1 + pad)) 0 [sign] =
            [] ++ ([sign] ++ growBuffer (pad + n)) :=
          put_at (v := [nul]) (by rw [Nat.add_right_comm, Nat.add_comm n]; rfl) rfl rfl
        have filled := fill_at (b := [] ++ ([sign] ++ growBuffer (pad + n))) (i := 1)
          (j := 1 + pad) (u := [sign]) (v := growBuffer pad) (w := growBuffer n)
          (by rw [growBuffer_add]; rfl) rfl (by rw [room]) spec.fill
        have whole := put_at (b := [sign] ++ (List.replicate pad spec.fill ++ growBuffer n))
          (i := 1 + pad) (u := [sign] ++ List.replicate pad spec.fill) (v := growBuffer n) (w := [])
          (x := t) (by simp) (by simp [Nat.add_comm]) (by rw [text_length, length_growBuffer])
        rw [room] at filled
        rw [List.append_nil] at whole
        have behind : n + 1 + pad - (n + 1 - 1) = 1 + pad := by omega
        have start : n + 1 + pad - 1 + 1 - t.length = 1 + pad := by omega
        simp only [if_neg none, area, behind, filled, start, one]
        simpa using whole
    | right | default =>
      have front := fill_at (b := growBuffer pad ++ signed sign (n + 1)) (i := 0) (j := pad)
        (u := []) (v := growBuffer pad) (w := signed sign (n + 1)) rfl rfl (by omega) spec.fill
      have area := put_sign sign (b := growBuffer (n + 1 + pad)) (i := pad)
        (l := growBuffer pad) (r := [])
        (by rw [List.append_nil, Nat.add_comm, growBuffer_add]) room.symm
      have whole := around (List.replicate pad spec.fill) []
      rw [length_growBuffer, List.nil_append] at front
      rw [List.append_nil] at area
      rw [List.length_replicate, List.append_nil] at whole
      simp only [area, front]
      rw [show n + 1 + pad - 1 + 1 = pad + (n + 1) by omega]
      simpa using whole

theorem prepareFilledBuffer_room (n : Nat) :
    let filled := prepareFilledBuffer (n + 1) spec sign
    filled.2 < filled.1.length ∧ n + 1 ≤ filled.2 + 1 := by
  have grown := length_growBuffer spec.width
  simp only [prepareFilledBuffer]
  by_cases narrow : spec.width ≤ n + 1
  · rw [if_pos narrow, length_put (by simp [length_growBuffer]), length_growBuffer]
    omega
  · rw [if_neg narrow]
    have first : (put (growBuffer spec.width) 0 [sign]).length = spec.width := by
      rw [length_put (by rw [List.length_singleton]; omega), grown]
    cases spec.align with
    | left =>
      simp only
      rw [length_fill (by omega) (by omega), first]
      omega
    | center =>
      simp only
      have front : (fill (growBuffer spec.width) 0 ((spec.width - (n + 1)) / 2) spec.fill).length =
          spec.width := by rw [length_fill (by omega) (by omega), grown]
      have behind : (fill (fill (growBuffer spec.width) 0 ((spec.width - (n + 1)) / 2) spec.fill)
          ((spec.width - (n + 1)) / 2 + (n + 1)) spec.width spec.fill).length = spec.width := by
        rw [length_fill (by omega) (by omega), front]
      rw [length_put (by rw [List.length_singleton]; omega), behind]
      omega
    | numeric =>
      simp only
      split
      · simp only
        rw [length_fill (by omega) (by omega), grown]
        omega
      · simp only
        rw [length_fill (by omega) (by omega), first]
        omega
    | right | default =>
      have area : (put (growBuffer spec.width) (spec.width - (n + 1)) [sign]).length =
          spec.width := by rw [length_put (by rw [List.length_singleton]; omega), grown]
      simp only
      rw [length_fill (by omega) (by omega), area]
      omega

/-- The area for letters and digits: they fit in front of its last byte of the number, and
written there they come out padded. -/
theorem prepared (l : Bytes) (ne : t ≠ []) :
    let filled := prepareFilledBuffer ((signBytes sign).length + l.length + t.length) spec sign
    filled.2 < filled.1.length ∧ l.length + t.length ≤ filled.2 + 1 ∧
      put filled.1 (filled.2 + 1 - (l.length + t.length)) (l ++ t) =
        padded spec (signBytes sign) (l ++ t) := by
  have pos := List.length_pos_iff.mpr ne
  have written := prepareFilledBuffer_put spec sign (t := l ++ t) (by simp [ne])
  rw [List.length_append, ← Nat.add_assoc] at written
  obtain ⟨k, size⟩ : ∃ k, (signBytes sign).length + l.length + t.length = k + 1 :=
    ⟨(signBytes sign).length + l.length + t.length - 1, by omega⟩
  obtain ⟨inside, room⟩ := prepareFilledBuffer_room spec sign k
  rw [← size] at inside room
  exact ⟨inside, by omega, written⟩

theorem formatShifted_eq {bits : Nat} (hb : bits ≠ 0) (upper : Bool) {lead : Bytes}
    (some_ : lead ≠ []) (n : Nat) :
    formatShifted bits upper lead (signBytes sign).length n spec sign =
      padded spec (signBytes sign)
        ((if spec.hashFlag then lead else []) ++ numeral (2 ^ bits) upper n) := by
  have ne := numeral_ne_nil (2 ^ bits) upper n
  have pos := List.length_pos_iff.mpr ne
  simp only [formatShifted, countShifted_eq hb upper]
  cases spec.hashFlag with
  | false =>
    obtain ⟨inside, room, written⟩ := prepared spec sign [] ne
    simp only [Bool.false_eq_true, if_false]
    rw [writeShifted_eq hb (by omega) inside]
    simpa using written
  | true =>
    obtain ⟨inside, room, written⟩ := prepared spec sign lead ne
    have letters := List.length_pos_iff.mpr some_
    simp only [if_true]
    generalize prepareFilledBuffer ((signBytes sign).length + lead.length +
      (numeral (2 ^ bits) upper n).length) spec sign = filled at inside room written ⊢
    rw [writeShifted_eq hb (by omega) inside, ← written]
    have start : filled.2 - (numeral (2 ^ bits) upper n).length + 1 - lead.length =
        filled.2 + 1 - (lead.length + (numeral (2 ^ bits) upper n).length) := by omega
    have behind : filled.2 + 1 - (numeral (2 ^ bits) upper n).length =
        filled.2 + 1 - (lead.length + (numeral (2 ^ bits) upper n).length) + lead.length := by omega
    simp only
    rw [start, behind]
    exact put_front (by omega)

theorem formatDecimal_padded {n : Nat} (small : n < 2 ^ 64) :
    let filled := prepareFilledBuffer ((signBytes sign).length + countDigits n) spec sign
    formatDecimal filled.1 (filled.2 + 1 - countDigits n) n (countDigits n - 1) =
      padded spec (signBytes sign) (numeral 10 false n) := by
  have count : countDigits n = (numeral 10 false n).length := by
    rw [countDigits_eq small, length_numeral false (by decide)]
  have pos := List.length_pos_iff.mpr (numeral_ne_nil 10 false n)
  obtain ⟨inside, room, written⟩ :=
    prepared spec sign [] (numeral_ne_nil 10 false n)
  simp only [List.length_nil, Nat.add_zero, Nat.zero_add, ← count] at inside room
  simp only [List.length_nil, Nat.add_zero, Nat.zero_add, List.nil_append, ← count] at written
  simp only
  rw [formatDecimal_eq (by omega) (by omega), written]

end padding

def intText (spec : FormatSpec) (n : Nat) : Except FormatError Bytes :=
  let lead (letters : Bytes) := if spec.hashFlag then letters else []
  if spec.type = 0 ∨ spec.type = byte 'd' then .ok (numeral 10 false n)
  else if spec.type = byte 'x' ∨ spec.type = byte 'X' then
    .ok (lead [byte '0', spec.type] ++ numeral 16 (spec.type = byte 'X') n)
  else if spec.type = byte 'b' ∨ spec.type = byte 'B' then
    .ok (lead [byte '0', spec.type] ++ numeral 2 false n)
  else if spec.type = byte 'o' then .ok (lead [byte '0'] ++ numeral 8 false n)
  else .error (.unknownType spec.type ['i', 'n', 't', 'e', 'g', 'e', 'r'])

def intSign (negative : Bool) (spec : FormatSpec) : Bytes :=
  if negative then [byte '-']
  else if spec.signFlag then (if spec.plusFlag then [byte '+'] else [sp])
  else []

theorem formatInt_eq (negative : Bool) {n : Nat} (small : n < 2 ^ 64) (spec : FormatSpec) :
    formatInt negative n spec = (intText spec n).map (padded spec (intSign negative spec)) := by
  have sign : intSign negative spec = signBytes (if negative then byte '-'
      else if spec.signFlag then (if spec.plusFlag then byte '+' else sp) else nul) := by
    unfold intSign
    cases negative <;> cases spec.signFlag <;> cases spec.plusFlag <;> rfl
  have size (c : Byte) : (if c = nul then 0 else 1) = (signBytes c).length := by
    unfold signBytes
    split <;> rfl
  rw [sign, formatInt, intText]
  simp only [size]
  generalize (if negative then byte '-'
    else if spec.signFlag then (if spec.plusFlag then byte '+' else sp) else nul) = c
  split
  · rw [formatDecimal_padded spec c small]
    rfl
  split
  · rw [formatShifted_eq spec c (by decide) _ (by simp)]
    rfl
  split
  · rw [formatShifted_eq spec c (by decide) _ (by simp)]
    rfl
  split
  · rw [formatShifted_eq spec c (by decide) _ (by simp)]
    rfl
  · rfl

theorem unsigned_eq {w : Nat} (wide : w ≤ 64) (value : BitVec w) (spec : FormatSpec) :
    formatUnsigned value spec = (intText spec value.toNat).map (padded spec (intSign false spec)) :=
  formatInt_eq false (value.isLt.trans_le (Nat.pow_le_pow_right (by decide) wide)) spec

theorem signed_eq {w : Nat} (wide : w ≤ 64) (value : BitVec w) (spec : FormatSpec) :
    formatSigned value spec =
      (intText spec value.toInt.natAbs).map (padded spec (intSign (value.toInt < 0) spec)) := by
  have fits := value.isLt.trans_le (Nat.pow_le_pow_right (show 0 < 2 by decide) wide)
  have negative : value.msb = decide (value.toInt < 0) := BitVec.msb_eq_toInt
  have abs : (if value.msb then 0 - value else value).toNat = value.toInt.natAbs := by
    have same : (if value.msb then 0 - value else value) = value.abs := by
      rw [BitVec.abs]
      rfl
    have int := BitVec.toInt_eq_msb_cond value
    have bound := value.isLt
    rw [same, BitVec.toNat_abs]
    cases msb : value.msb with
    | true =>
      rw [msb, if_pos rfl] at int
      rw [if_pos rfl]
      omega
    | false =>
      rw [msb, if_neg Bool.false_ne_true] at int
      rw [if_neg Bool.false_ne_true]
      omega
  have small : value.toInt.natAbs < 2 ^ 64 := by
    rw [← abs]
    exact (BitVec.isLt _).trans_le (Nat.pow_le_pow_right (by decide) wide)
  rw [formatSigned, abs, formatInt_eq _ small, negative]

/-- Every integer argument is written as its numeral, the least value of its type too. -/
theorem formatInteger_eq {w : Nat} (wide : w ≤ 64) (value : BitVec w) (spec : FormatSpec) :
    formatSigned value spec =
        (intText spec value.toInt.natAbs).map (padded spec (intSign (value.toInt < 0) spec)) ∧
      formatUnsigned value spec =
        (intText spec value.toNat).map (padded spec (intSign false spec)) :=
  ⟨signed_eq wide value spec, unsigned_eq wide value spec⟩

def zeroFilled (width : Nat) : FormatSpec :=
  { FormatSpec.empty with width := width, align := .numeric, fill := byte '0' }

theorem formatInteger_least :
    formatSigned (BitVec.intMin 32) (zeroFilled 14) =
        .ok ([byte '-', byte '0', byte '0', byte '0'] ++ numeral 10 false 2147483648) ∧
      formatUnsigned (BitVec.intMin 32) (zeroFilled 14) =
        .ok ([byte '0', byte '0', byte '0', byte '0'] ++ numeral 10 false 2147483648) := by
  have length : (numeral 10 false 2147483648).length = 10 := by
    rw [length_numeral false (by decide)]
    rfl
  have least : (BitVec.intMin 32).toInt = -2147483648 := by decide
  have bits : (BitVec.intMin 32).toNat = 2147483648 := by decide
  have abs : (-2147483648 : Int).natAbs = 2147483648 := rfl
  have text : intText (zeroFilled 14) 2147483648 = .ok (numeral 10 false 2147483648) := rfl
  obtain ⟨signed, unsigned⟩ := formatInteger_eq (by decide) (BitVec.intMin 32) (zeroFilled 14)
  rw [signed, unsigned, least, bits, abs, text]
  simp only [Except.map, padded, length]
  exact ⟨rfl, rfl⟩

end CqIrc.Fmt
