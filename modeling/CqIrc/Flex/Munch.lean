import CqIrc.Flex.Pattern

/-! Longest match, earliest rule on ties, as a table-driven scanner computes it.
The table has one column for each letter accepted by `col`; a lookup of any
other letter leaves the table, and the scan has no result then. A state of the
scan is the list of the rules that can still match, so the scan stops at the
first jam, one letter after the last live state. -/

namespace CqIrc.Flex
variable {α ρ : Type*}

abbrev Rules (α ρ : Type*) := List (ρ × Pattern α)

/-- The first rule that matches exactly this text. -/
def select (rules : Rules α ρ) (w : List α) : Option ρ :=
  (rules.find? fun x => x.2.accepts w).map (·.1)

def advance (rules : Rules α ρ) (a : α) : Rules α ρ :=
  rules.filterMap fun x =>
    let d := x.2.deriv a
    if d.isFail then none else some (x.1, d)

/-- `none`: the scan left the table. `some none`: no rule matches any prefix. -/
def munchFrom (col : α → Bool) :
    Rules α ρ → Nat → Option (ρ × Nat) → List α → Option (Option (ρ × Nat))
  | rules, n, best, [] => some (((select rules []).map (·, n)).or best)
  | rules, n, best, a :: input =>
    let best := ((select rules []).map (·, n)).or best
    if rules.isEmpty then some best
    else if col a then munchFrom col (advance rules a) (n + 1) best input
    else none

def munch (col : α → Bool) (rules : Rules α ρ) (input : List α) : Option (Option (ρ × Nat)) :=
  munchFrom col rules 0 none input

/-- What the generator's manual promises of the match chosen at this input. -/
structure IsMunch (rules : Rules α ρ) (input : List α) (r : ρ) (n : Nat) : Prop where
  fits : n ≤ input.length
  first : select rules (input.take n) = some r
  longest : ∀ m, n < m → m ≤ input.length → select rules (input.take m) = none

@[simp] theorem select_nil (w : List α) : select ([] : Rules α ρ) w = none := rfl

theorem select_cons (r : ρ) (p : Pattern α) (rules : Rules α ρ) (w : List α) :
    select ((r, p) :: rules) w = if w ∈ p.language then some r else select rules w := by
  by_cases h : w ∈ p.language
  · have ha := (p.accepts_iff w).mpr h
    simp [select, List.find?, h, ha]
  · have ha : p.accepts w = false := by
      rw [← Bool.not_eq_true, p.accepts_iff]
      exact h
    simp [select, List.find?, h, ha]

theorem select_advance (rules : Rules α ρ) (a : α) (w : List α) :
    select (advance rules a) w = select rules (a :: w) := by
  induction rules with
  | nil => rfl
  | cons x rules ih =>
    obtain ⟨r, p⟩ := x
    rw [select_cons, ← ih]
    by_cases h : (p.deriv a).isFail = true
    · have dead : a :: w ∉ p.language := by
        rw [← p.deriv_mem]
        exact Pattern.not_mem_of_isFail h w
      simp [advance, h, dead]
    · have live : advance ((r, p) :: rules) a = (r, p.deriv a) :: advance rules a := by
        simp [advance, h]
      rw [live, select_cons]
      simp only [p.deriv_mem]

theorem IsMunch.unique {rules : Rules α ρ} {input : List α} {r s : ρ} {m n : Nat}
    (h : IsMunch rules input r m) (k : IsMunch rules input s n) : r = s ∧ m = n := by
  have hmn : m = n := by
    rcases lt_trichotomy m n with hlt | heq | hgt
    · simpa [h.longest n hlt k.fits] using k.first
    · exact heq
    · simpa [k.longest m hgt h.fits] using h.first
  subst hmn
  exact ⟨Option.some.inj (h.first.symm.trans k.first), rfl⟩

theorem IsMunch.of_append {rules : Rules α ρ} {w v : List α} {r : ρ}
    (first : select rules w = some r)
    (longest : ∀ x y, v = x ++ y → x ≠ [] → select rules (w ++ x) = none) :
    IsMunch rules (w ++ v) r w.length := by
  refine ⟨by simp, by simpa using first, fun m hlt hle => ?_⟩
  have inside : m - w.length ≤ v.length := by
    rw [List.length_append] at hle
    omega
  rw [List.take_append, List.take_of_length_le (by omega)]
  refine longest _ (v.drop (m - w.length)) (by simp) ?_
  intro empty
  have := congrArg List.length empty
  rw [List.length_take, List.length_nil] at this
  omega

/-- Among the leading pieces of an input that have a property there is a longest. -/
theorem exists_longest {P : List α → Prop} {w v : List α} (h : P w) :
    ∃ x y, w ++ v = x ++ y ∧ P x ∧ ∀ a b, y = a ++ b → a ≠ [] → ¬ P (x ++ a) := by
  induction hn : v.length using Nat.strong_induction_on generalizing w v with
  | _ n ih =>
    by_cases further : ∃ a b, v = a ++ b ∧ a ≠ [] ∧ P (w ++ a)
    · obtain ⟨a, b, rfl, ha, hp⟩ := further
      have pos := List.length_pos_iff.mpr ha
      rw [List.length_append] at hn
      obtain ⟨x, y, e, hx⟩ := ih b.length (by omega) hp rfl
      exact ⟨x, y, by rw [← e, List.append_assoc], hx⟩
    · exact ⟨w, v, rfl, h, fun a b e ha hp => further ⟨a, b, e, ha, hp⟩⟩

theorem IsMunch.cons {rules : Rules α ρ} {a : α} {input : List α} {r : ρ} {n : Nat}
    (h : IsMunch (advance rules a) input r n) : IsMunch rules (a :: input) r (n + 1) := by
  refine ⟨by simpa using h.fits, ?_, fun m hm hl => ?_⟩
  · rw [List.take_succ_cons, ← select_advance]
    exact h.first
  · obtain ⟨k, rfl⟩ := Nat.exists_eq_add_of_le' (show 1 ≤ m by omega)
    rw [List.take_succ_cons, ← select_advance]
    exact h.longest k (by omega) (by simpa using hl)

theorem munchFrom_spec (col : α → Bool) (rules : Rules α ρ) (k : Nat)
    (best res : Option (ρ × Nat)) (input : List α)
    (h : munchFrom col rules k best input = some res) :
    (∃ r n, IsMunch rules input r n ∧ res = some (r, k + n)) ∨
      ((∀ m ≤ input.length, select rules (input.take m) = none) ∧ res = best) := by
  induction input generalizing rules k best with
  | nil =>
    obtain rfl : ((select rules []).map (·, k)).or best = res := by simpa [munchFrom] using h
    cases hs : select rules [] with
    | none => exact .inr ⟨by simp [hs], rfl⟩
    | some r =>
      refine .inl ⟨r, 0, ⟨by simp, by simpa using hs, fun m pos hm => ?_⟩, rfl⟩
      rw [List.length_nil] at hm
      omega
  | cons a input ih =>
    -- nothing longer than the empty text: the empty text decides, as at the end of the input
    have short (hn : ∀ m ≤ input.length, select rules (a :: input.take m) = none)
        (hr : res = ((select rules []).map (·, k)).or best) :
        (∃ r n, IsMunch rules (a :: input) r n ∧ res = some (r, k + n)) ∨
          ((∀ m ≤ (a :: input).length, select rules ((a :: input).take m) = none) ∧
            res = best) := by
      have longer : ∀ m, 0 < m → m ≤ (a :: input).length →
          select rules ((a :: input).take m) = none := by
        intro m hm hl
        obtain ⟨j, rfl⟩ := Nat.exists_eq_add_of_le' hm
        exact hn j (by simpa using hl)
      cases hs : select rules [] with
      | none =>
        refine .inr ⟨fun m hm => ?_, by simpa [hs] using hr⟩
        rcases Nat.eq_zero_or_pos m with rfl | pos
        · exact hs
        · exact longer m pos hm
      | some r => exact .inl ⟨r, 0, ⟨by simp, hs, longer⟩, by simpa [hs] using hr⟩
    rw [munchFrom] at h
    split at h
    · next empty =>
      obtain rfl := List.isEmpty_iff.mp empty
      exact short (by simp) (by simpa using h.symm)
    · split at h
      · rcases ih _ _ _ h with ⟨r, n, hn, rfl⟩ | ⟨hn, rfl⟩
        · exact .inl ⟨r, n + 1, hn.cons, by rw [Nat.add_assoc, Nat.add_comm 1]⟩
        · exact short (fun m hm => by rw [← select_advance]; exact hn m hm) rfl
      · simp at h

theorem munch_isMunch {col : α → Bool} {rules : Rules α ρ} {input : List α} {r : ρ} {n : Nat}
    (h : munch col rules input = some (some (r, n))) : IsMunch rules input r n := by
  rcases munchFrom_spec col rules 0 none _ input h with ⟨s, m, hm, e⟩ | ⟨-, e⟩
  · obtain ⟨rfl, rfl⟩ : r = s ∧ n = m := by simpa using e
    exact hm
  · simp at e

theorem munch_ne_none_none {col : α → Bool} {rules : Rules α ρ} {input : List α} {r : ρ} {n : Nat}
    (hm : IsMunch rules input r n) : munch col rules input ≠ some none := by
  intro h
  rcases munchFrom_spec col rules 0 none _ input h with ⟨s, m, _, e⟩ | ⟨hn, -⟩
  · simp at e
  · simpa [hn n hm.fits] using hm.first

theorem munchFrom_ne_none {col : α → Bool} {input : List α} (hc : ∀ a ∈ input, col a = true)
    (rules : Rules α ρ) (k : Nat) (best : Option (ρ × Nat)) :
    munchFrom col rules k best input ≠ none := by
  induction input generalizing rules k best with
  | nil => simp [munchFrom]
  | cons a input ih =>
    obtain ⟨ha, hi⟩ := List.forall_mem_cons.mp hc
    rw [munchFrom, if_pos ha]
    split
    · simp
    · exact ih hi _ _ _

/-- On letters that all have a column the scan finds exactly the promised match. -/
theorem munch_of_isMunch {col : α → Bool} {rules : Rules α ρ} {input : List α} {r : ρ} {n : Nat}
    (hc : ∀ a ∈ input, col a = true) (h : IsMunch rules input r n) :
    munch col rules input = some (some (r, n)) := by
  cases hm : munch col rules input with
  | none => exact absurd hm (munchFrom_ne_none hc rules 0 none)
  | some res =>
    cases res with
    | none => exact absurd hm (munch_ne_none_none h)
    | some hit =>
      obtain ⟨rfl, rfl⟩ := (munch_isMunch hm).unique h
      rfl

/-- The letters of the chosen text were all looked up, so they have columns. -/
theorem munchFrom_columns {col : α → Bool} {rules : Rules α ρ} {input : List α} {r : ρ}
    {n k : Nat} (best : Option (ρ × Nat)) (h : IsMunch rules input r n)
    (hm : munchFrom col rules k best input ≠ none) : ∀ a ∈ input.take n, col a = true := by
  induction input generalizing rules n k best with
  | nil => simp
  | cons b input ih =>
    cases n with
    | zero => simp
    | succ n =>
      have hs : select (advance rules b) (input.take n) = some r := by
        rw [select_advance]
        exact h.first
      have ne : rules.isEmpty = false := by
        cases rules with
        | nil => simp [advance] at hs
        | cons x rules => rfl
      rw [munchFrom, ne] at hm
      by_cases hb : col b = true
      · rw [if_neg (by simp), if_pos hb] at hm
        have tail : IsMunch (advance rules b) input r n := by
          refine ⟨by simpa using h.fits, hs, fun m hlt hle => ?_⟩
          rw [select_advance]
          exact h.longest (m + 1) (by omega) (by simpa using hle)
        rw [List.take_succ_cons]
        exact List.forall_mem_cons.mpr ⟨hb, ih _ tail hm⟩
      · simp [hb] at hm

theorem munch_head_column {col : α → Bool} {rules : Rules α ρ} {a : α} {v : List α}
    (hr : rules ≠ []) (h : munch col rules (a :: v) ≠ none) : col a = true := by
  by_contra ha
  have ne : rules.isEmpty = false := by simpa using hr
  exact h (by simp [munch, munchFrom, ne, ha])

theorem munch_columns {col : α → Bool} {rules : Rules α ρ} {input : List α} {r : ρ} {n : Nat}
    (h : munch col rules input = some (some (r, n))) : ∀ a ∈ input.take n, col a = true :=
  munchFrom_columns none (munch_isMunch h) (k := 0) (by
    show munch col rules input ≠ none
    simp [h])

end CqIrc.Flex
