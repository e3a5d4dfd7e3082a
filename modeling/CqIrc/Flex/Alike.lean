import CqIrc.Flex.Munch

/-! Rule sets that select alike scan alike. The scan goes on while some rule has not
jammed; a solid pattern, each of whose classes has a letter, jams exactly when no
text is left for it. So the result of a scan, and where it leaves its table, depend
on nothing but the rule that is selected for each text. -/

namespace CqIrc.Flex
variable {α ρ σ : Type*}

namespace Pattern

/-- No part of the pattern is impossible to match. -/
def Solid : Pattern α → Prop
  | fail => False
  | eps => True
  | cls p => ∃ a, p a = true
  | seq p q => p.Solid ∧ q.Solid
  | alt p q => p.Solid ∧ q.Solid
  | star p => p.Solid

variable {p q : Pattern α}

theorem Solid.exists_mem (h : p.Solid) : ∃ w, w ∈ p.language := by
  induction p with
  | fail => cases h
  | eps => exact ⟨[], rfl⟩
  | cls p =>
    obtain ⟨a, ha⟩ := h
    exact ⟨[a], a, ha, rfl⟩
  | seq p q ihp ihq =>
    obtain ⟨u, hu⟩ := ihp h.1
    obtain ⟨v, hv⟩ := ihq h.2
    exact ⟨u ++ v, mem_seq.mpr ⟨u, hu, v, hv, rfl⟩⟩
  | alt p q ihp _ =>
    obtain ⟨u, hu⟩ := ihp h.1
    exact ⟨u, mem_alt.mpr (.inl hu)⟩
  | star p => exact ⟨[], Language.nil_mem_kstar _⟩

theorem solid_seq' (hp : p = fail ∨ p.Solid) (hq : q.Solid) :
    seq' p q = fail ∨ (seq' p q).Solid := by
  cases p with
  | fail => exact .inl rfl
  | eps => exact .inr hq
  | _ => exact .inr ⟨hp.resolve_left (by simp), hq⟩

theorem solid_alt' (hp : p = fail ∨ p.Solid) (hq : q = fail ∨ q.Solid) :
    alt' p q = fail ∨ (alt' p q).Solid := by
  rcases hp with rfl | hp
  · exact hq
  by_cases hqf : q = fail
  · have same : alt' p q = p := by
      rw [hqf]
      cases p <;> rfl
    exact .inr (same.symm ▸ hp)
  · have hpf : p ≠ fail := by
      rintro rfl
      exact hp
    have same : alt' p q = alt p q := by
      cases p <;> cases q <;> first | rfl | contradiction
    exact .inr (same.symm ▸ ⟨hp, hq.resolve_left hqf⟩)

/-- What is left of a solid pattern is solid, unless it has jammed. -/
theorem Solid.deriv (h : p.Solid) (a : α) : p.deriv a = fail ∨ (p.deriv a).Solid := by
  induction p with
  | fail => cases h
  | eps => exact .inl rfl
  | cls p =>
    rw [Pattern.deriv]
    split
    · exact .inr trivial
    · exact .inl rfl
  | seq p q ihp ihq =>
    have first := solid_seq' (ihp h.1) h.2
    rw [Pattern.deriv]
    split
    · exact solid_alt' first (ihq h.2)
    · exact first
  | alt p q ihp ihq => exact solid_alt' (ihp h.1) (ihq h.2)
  | star p ih => exact solid_seq' (ih h) h

theorem solid_word {ps : List (α → Bool)} (h : ∀ p ∈ ps, ∃ a, p a = true) : (word ps).Solid := by
  induction ps with
  | nil => trivial
  | cons p ps ih =>
    obtain ⟨hp, hps⟩ := List.forall_mem_cons.mp h
    exact ⟨hp, ih hps⟩

theorem solid_rep (h : p.Solid) (n : Nat) : (rep p n).Solid := by
  induction n with
  | zero => trivial
  | succ n ih => exact ⟨h, ih⟩

theorem solid_upTo (h : p.Solid) (n : Nat) : (upTo p n).Solid := by
  induction n with
  | zero => trivial
  | succ n ih => exact ⟨trivial, h, ih⟩

end Pattern

def SolidRules (rules : Rules α ρ) : Prop := ∀ x ∈ rules, x.2.Solid

theorem SolidRules.advance {rules : Rules α ρ} (h : SolidRules rules) (a : α) :
    SolidRules (advance rules a) := by
  intro x hx
  obtain ⟨y, hy, kept⟩ := List.mem_filterMap.mp hx
  simp only at kept
  split at kept
  · cases kept
  · next live =>
    obtain rfl := Option.some.inj kept
    refine ((h y hy).deriv a).resolve_left fun jammed => live ?_
    rw [jammed]
    rfl

/-- A scan of solid rules stops exactly when no rule is selected any more. -/
theorem SolidRules.isEmpty_iff {rules : Rules α ρ} (h : SolidRules rules) :
    rules.isEmpty = true ↔ ∀ w, select rules w = none := by
  cases rules with
  | nil => simp
  | cons x rules =>
    obtain ⟨r, p⟩ := x
    refine ⟨by simp, fun dead => ?_⟩
    obtain ⟨w, hw⟩ := (h (r, p) (by simp)).exists_mem
    have none := dead w
    rw [select_cons, if_pos hw] at none
    cases none

variable {R : Rules α ρ} {S : Rules α σ} {f : ρ → σ}

theorem munchFrom_map (hR : SolidRules R) (hS : SolidRules S)
    (same : ∀ w, select S w = (select R w).map f) (col : α → Bool) (k : Nat)
    (best : Option (ρ × Nat)) (input : List α) :
    munchFrom col S k (best.map (Prod.map f id)) input =
      (munchFrom col R k best input).map (Option.map (Prod.map f id)) := by
  induction input generalizing R S k best with
  | nil =>
    simp only [munchFrom, same, Option.map_some, Option.map_or, Option.map_map]
    rfl
  | cons a input ih =>
    have empty : S.isEmpty = R.isEmpty := by
      rw [Bool.eq_iff_iff, hS.isEmpty_iff, hR.isEmpty_iff]
      simp only [same, Option.map_eq_none_iff]
    have next : ∀ w, select (advance S a) w = (select (advance R a) w).map f := by
      intro w
      rw [select_advance, select_advance, same]
    have best' : ((select S []).map (·, k)).or (best.map (Prod.map f id)) =
        (((select R []).map (·, k)).or best).map (Prod.map f id) := by
      simp only [same, Option.map_or, Option.map_map]
      rfl
    rw [munchFrom, munchFrom, empty, best']
    split
    · rfl
    · split
      · exact ih (hR.advance a) (hS.advance a) next _ _
      · rfl

/-- Renaming the selected rules renames the result of the scan and changes nothing else. -/
theorem munch_map (hR : SolidRules R) (hS : SolidRules S)
    (same : ∀ w, select S w = (select R w).map f) (col : α → Bool) (input : List α) :
    munch col S input = (munch col R input).map (Option.map (Prod.map f id)) :=
  munchFrom_map hR hS same col 0 none input

/-- A text that can still become a match is looked up whole, and so is the letter behind it. -/
theorem munchFrom_behind {rules : Rules α ρ} {col : α → Bool} {x y z : List α} {a : α} {r : ρ}
    (live : select rules (x ++ z) = some r) (ha : col a = false) (k : Nat)
    (best : Option (ρ × Nat)) : munchFrom col rules k best (x ++ a :: y) = none := by
  have busy {rules : Rules α ρ} {w : List α} (hs : select rules w = some r) :
      rules.isEmpty = false := by
    cases rules with
    | nil => cases hs
    | cons => rfl
  induction x generalizing rules k best with
  | nil => simp [munchFrom, busy live, ha]
  | cons b x ih =>
    rw [List.cons_append, munchFrom, if_neg (by simp [busy live])]
    split
    · exact ih (by rw [select_advance]; exact live) _ _
    · rfl

theorem exists_of_munchFrom (hR : SolidRules R) {col : α → Bool} {k : Nat}
    {best : Option (ρ × Nat)} {input : List α} (h : munchFrom col R k best input = none) :
    ∃ x a y z r, input = x ++ a :: y ∧ col a = false ∧ select R (x ++ z) = some r := by
  induction input generalizing R k best with
  | nil => cases h
  | cons a input ih =>
    rw [munchFrom] at h
    split at h
    · cases h
    · next busy =>
      split at h
      · obtain ⟨x, b, y, z, r, rfl, hb, live⟩ := ih (hR.advance a) h
        exact ⟨a :: x, b, y, z, r, rfl, hb, by rw [List.cons_append, ← select_advance]; exact live⟩
      · next ha =>
        obtain ⟨w, hw⟩ := not_forall.mp (mt hR.isEmpty_iff.mpr busy)
        obtain ⟨r, hr⟩ := Option.ne_none_iff_exists'.mp hw
        exact ⟨[], a, input, w, r, rfl, by simpa using ha, hr⟩

/-- A scan of solid rules leaves its table exactly at a letter without a column behind a
text that can still become a match. -/
theorem munch_eq_none_iff (hR : SolidRules R) {col : α → Bool} {input : List α} :
    munch col R input = none ↔
      ∃ x a y z r, input = x ++ a :: y ∧ col a = false ∧ select R (x ++ z) = some r := by
  refine ⟨exists_of_munchFrom hR, ?_⟩
  rintro ⟨x, a, y, z, r, rfl, ha, live⟩
  exact munchFrom_behind live ha 0 none

end CqIrc.Flex
