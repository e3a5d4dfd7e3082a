import Mathlib.Computability.Language

/-! Patterns over an arbitrary alphabet, with their languages and derivatives.
A character class is a predicate on letters, as in a scanner generator, so a
class costs one node whatever its size. The derivative constructors drop
failing branches, hence a pattern that has jammed is literally `fail`. -/

namespace CqIrc.Flex
open scoped Computability

inductive Pattern (α : Type*) where
  | fail
  | eps
  | cls (p : α → Bool)
  | seq (p q : Pattern α)
  | alt (p q : Pattern α)
  | star (p : Pattern α)

namespace Pattern
variable {α : Type*}

def letters (p : α → Bool) : Language α := {w | ∃ a, p a = true ∧ w = [a]}

def language : Pattern α → Language α
  | fail => 0
  | eps => 1
  | cls p => letters p
  | seq p q => p.language * q.language
  | alt p q => p.language + q.language
  | star p => p.language∗

def nullable : Pattern α → Bool
  | fail => false
  | eps => true
  | cls _ => false
  | seq p q => p.nullable && q.nullable
  | alt p q => p.nullable || q.nullable
  | star _ => true

def isFail : Pattern α → Bool
  | fail => true
  | _ => false

def seq' : Pattern α → Pattern α → Pattern α
  | fail, _ => fail
  | eps, q => q
  | p, q => seq p q

def alt' : Pattern α → Pattern α → Pattern α
  | fail, q => q
  | p, fail => p
  | p, q => alt p q

def deriv : Pattern α → α → Pattern α
  | fail, _ => fail
  | eps, _ => fail
  | cls p, a => if p a then eps else fail
  | seq p q, a =>
    if p.nullable then alt' (seq' (p.deriv a) q) (q.deriv a) else seq' (p.deriv a) q
  | alt p q, a => alt' (p.deriv a) (q.deriv a)
  | star p, a => seq' (p.deriv a) (star p)

def accepts (p : Pattern α) : List α → Bool
  | [] => p.nullable
  | a :: w => (p.deriv a).accepts w

@[simp] theorem language_seq' (p q : Pattern α) :
    (seq' p q).language = p.language * q.language := by
  cases p <;> simp [seq', language]

@[simp] theorem language_alt' (p q : Pattern α) :
    (alt' p q).language = p.language + q.language := by
  cases p <;> cases q <;> simp [alt', language]

theorem mem_cls {p : α → Bool} {w : List α} :
    w ∈ (cls p).language ↔ ∃ a, p a = true ∧ w = [a] := Iff.rfl

theorem mem_seq {p q : Pattern α} {w : List α} :
    w ∈ (seq p q).language ↔ ∃ u ∈ p.language, ∃ v ∈ q.language, u ++ v = w :=
  Language.mem_mul

theorem mem_alt {p q : Pattern α} {w : List α} :
    w ∈ (alt p q).language ↔ w ∈ p.language ∨ w ∈ q.language :=
  Language.mem_add _ _ _

theorem nullable_iff (p : Pattern α) : p.nullable = true ↔ [] ∈ p.language := by
  induction p with
  | fail => simp [nullable, language, Language.notMem_zero]
  | eps => simp [nullable, language]
  | cls p => simp [nullable, mem_cls]
  | seq p q ihp ihq => simp [nullable, mem_seq, ihp, ihq]
  | alt p q ihp ihq => simp [nullable, mem_alt, ihp, ihq]
  | star p _ => simp [nullable, language, Language.nil_mem_kstar]

private theorem cons_mem_mul (l m : Language α) (a : α) (w : List α) :
    a :: w ∈ l * m ↔
      (∃ u v, a :: u ∈ l ∧ v ∈ m ∧ u ++ v = w) ∨ ([] ∈ l ∧ a :: w ∈ m) := by
  rw [Language.mem_mul]
  constructor
  · rintro ⟨u, hu, v, hv, e⟩
    cases u with
    | nil => exact .inr ⟨hu, by simpa using e ▸ hv⟩
    | cons b u =>
      obtain ⟨rfl, rfl⟩ : b = a ∧ u ++ v = w := by simpa using e
      exact .inl ⟨u, v, hu, hv, rfl⟩
  · rintro (⟨u, v, hu, hv, rfl⟩ | ⟨hn, hw⟩)
    · exact ⟨a :: u, hu, v, hv, rfl⟩
    · exact ⟨[], hn, a :: w, hw, rfl⟩

private theorem cons_mem_kstar (l : Language α) (a : α) (w : List α) :
    a :: w ∈ l∗ ↔ ∃ u v, a :: u ∈ l ∧ v ∈ l∗ ∧ u ++ v = w := by
  constructor
  · intro h
    obtain ⟨ws, e, hws⟩ := Language.mem_kstar_iff_exists_nonempty.mp h
    cases ws with
    | nil => simp at e
    | cons x xs =>
      have hx := hws x (by simp)
      cases x with
      | nil => simp at hx
      | cons b u =>
        obtain ⟨rfl, rfl⟩ : a = b ∧ w = u ++ xs.flatten := by simpa using e
        refine ⟨u, xs.flatten, hx.1, ?_, rfl⟩
        exact Language.join_mem_kstar fun y hy => (hws y (by simp [hy])).1
  · rintro ⟨u, v, hu, hv, rfl⟩
    obtain ⟨vs, rfl, hvs⟩ := Language.mem_kstar.mp hv
    refine Language.mem_kstar.mpr ⟨(a :: u) :: vs, by simp, ?_⟩
    intro y hy
    rcases List.mem_cons.mp hy with rfl | hy
    · exact hu
    · exact hvs y hy

theorem deriv_mem (p : Pattern α) (a : α) (w : List α) :
    w ∈ (p.deriv a).language ↔ a :: w ∈ p.language := by
  induction p generalizing w with
  | fail => simp [deriv, language, Language.notMem_zero]
  | eps => simp [deriv, language, Language.notMem_zero]
  | cls p =>
    rw [mem_cls]
    by_cases h : p a = true
    · simp [deriv, h, language]
    · simp [deriv, h, language, Language.notMem_zero]
  | seq p q ihp ihq =>
    have split := cons_mem_mul p.language q.language a w
    have first : w ∈ (p.deriv a).language * q.language ↔
        ∃ u v, a :: u ∈ p.language ∧ v ∈ q.language ∧ u ++ v = w := by
      simp only [Language.mem_mul, ihp]
      exact ⟨fun ⟨u, hu, v, hv, e⟩ => ⟨u, v, hu, hv, e⟩,
        fun ⟨u, v, hu, hv, e⟩ => ⟨u, hu, v, hv, e⟩⟩
    rw [language, split, ← first, ← nullable_iff, ← ihq]
    by_cases h : p.nullable = true
    · rw [deriv, if_pos h, language_alt', Language.mem_add, language_seq']
      simp [h]
    · simp [deriv, h]
  | alt p q ihp ihq => rw [deriv, language_alt', Language.mem_add, ihp, ihq, mem_alt]
  | star p ih =>
    rw [language, cons_mem_kstar, deriv, language_seq', Language.mem_mul]
    constructor
    · rintro ⟨u, hu, v, hv, e⟩
      exact ⟨u, v, (ih u).mp hu, hv, e⟩
    · rintro ⟨u, v, hu, hv, e⟩
      exact ⟨u, (ih u).mpr hu, v, hv, e⟩

theorem accepts_iff (p : Pattern α) (w : List α) : p.accepts w = true ↔ w ∈ p.language := by
  induction w generalizing p with
  | nil => exact nullable_iff p
  | cons a w ih => rw [accepts, ih, deriv_mem]

instance (p : Pattern α) (w : List α) : Decidable (w ∈ p.language) :=
  decidable_of_iff _ (accepts_iff p w)

theorem not_mem_of_isFail {p : Pattern α} (h : p.isFail = true) (w : List α) :
    w ∉ p.language := by
  cases p <;> simp_all [isFail, language, Language.notMem_zero]

/-! The derived forms of a pattern file: `x+`, `x{n}`, `x{0,n}` and words given
letter by letter, which covers both literal and case-insensitive strings. -/

def plus (p : Pattern α) : Pattern α := seq p (star p)

def rep (p : Pattern α) : Nat → Pattern α
  | 0 => eps
  | n + 1 => seq p (rep p n)

def upTo (p : Pattern α) : Nat → Pattern α
  | 0 => eps
  | n + 1 => alt eps (seq p (upTo p n))

def word : List (α → Bool) → Pattern α
  | [] => eps
  | p :: ps => seq (cls p) (word ps)

theorem mem_star_cls {p : α → Bool} {w : List α} :
    w ∈ (star (cls p)).language ↔ ∀ a ∈ w, p a = true := by
  induction w with
  | nil => simp [language, Language.nil_mem_kstar]
  | cons a w ih =>
    rw [language, cons_mem_kstar, List.forall_mem_cons, ← ih]
    constructor
    · rintro ⟨u, v, ⟨b, hb, e⟩, hv, rfl⟩
      obtain ⟨rfl, rfl⟩ : a = b ∧ u = [] := by simpa using e
      exact ⟨hb, hv⟩
    · rintro ⟨ha, hw⟩
      exact ⟨[], w, ⟨a, ha, rfl⟩, hw, rfl⟩

theorem mem_cls_seq {p : α → Bool} {q : Pattern α} {w : List α} :
    w ∈ (seq (cls p) q).language ↔ ∃ a v, w = a :: v ∧ p a = true ∧ v ∈ q.language := by
  rw [mem_seq]
  constructor
  · rintro ⟨u, ⟨a, ha, rfl⟩, v, hv, rfl⟩
    exact ⟨a, v, rfl, ha, hv⟩
  · rintro ⟨a, v, rfl, ha, hv⟩
    exact ⟨[a], ⟨a, ha, rfl⟩, v, hv, rfl⟩

theorem mem_cls_seq_star {p q : α → Bool} {w : List α} :
    w ∈ (seq (cls p) (star (cls q))).language ↔
      ∃ a v, w = a :: v ∧ p a = true ∧ ∀ b ∈ v, q b = true := by
  simp only [mem_cls_seq, mem_star_cls]

theorem mem_plus_cls {p : α → Bool} {w : List α} :
    w ∈ (plus (cls p)).language ↔ w ≠ [] ∧ ∀ a ∈ w, p a = true := by
  rw [plus, mem_cls_seq_star]
  constructor
  · rintro ⟨a, v, rfl, ha, hv⟩
    exact ⟨by simp, List.forall_mem_cons.mpr ⟨ha, hv⟩⟩
  · rintro ⟨hw, h⟩
    obtain ⟨a, v, rfl⟩ := List.exists_cons_of_ne_nil hw
    exact ⟨a, v, rfl, (List.forall_mem_cons.mp h).1, (List.forall_mem_cons.mp h).2⟩

theorem mem_rep_cls {p : α → Bool} {n : Nat} {w : List α} :
    w ∈ (rep (cls p) n).language ↔ w.length = n ∧ ∀ a ∈ w, p a = true := by
  induction n generalizing w with
  | zero =>
    rw [rep, language, Language.mem_one]
    constructor
    · rintro rfl
      simp
    · rintro ⟨h, -⟩
      exact List.length_eq_zero_iff.mp h
  | succ n ih =>
    rw [rep, mem_cls_seq]
    constructor
    · rintro ⟨a, v, rfl, ha, hv⟩
      obtain ⟨hl, hp⟩ := ih.mp hv
      exact ⟨by simp [hl], List.forall_mem_cons.mpr ⟨ha, hp⟩⟩
    · rintro ⟨hl, h⟩
      obtain ⟨a, v, rfl⟩ := List.exists_cons_of_length_eq_add_one hl
      refine ⟨a, v, rfl, (List.forall_mem_cons.mp h).1, ih.mpr ⟨by simpa using hl, ?_⟩⟩
      exact (List.forall_mem_cons.mp h).2

theorem mem_word {ps : List (α → Bool)} {w : List α} :
    w ∈ (word ps).language ↔ List.Forall₂ (fun p a => p a = true) ps w := by
  induction ps generalizing w with
  | nil => simp [word, language, Language.mem_one, List.forall₂_nil_left_iff]
  | cons p ps ih =>
    rw [word, mem_cls_seq]
    constructor
    · rintro ⟨a, v, rfl, ha, hv⟩
      exact .cons ha (ih.mp hv)
    · rintro (_ | ⟨ha, hv⟩)
      exact ⟨_, _, rfl, ha, ih.mpr hv⟩

/-- Bounding the repetitions of a star changes nothing once one is allowed. -/
theorem language_upTo_star (p : Pattern α) (n : Nat) :
    (upTo (star p) (n + 1)).language = (star p).language := by
  induction n with
  | zero =>
    ext w
    rw [upTo, upTo, mem_alt, mem_seq]
    constructor
    · rintro (rfl | ⟨u, hu, v, rfl, rfl⟩)
      · exact Language.nil_mem_kstar _
      · simpa using hu
    · exact fun hw => .inr ⟨w, hw, [], rfl, by simp⟩
  | succ n ih =>
    ext w
    rw [upTo, mem_alt, mem_seq, ih]
    constructor
    · rintro (rfl | ⟨u, hu, v, hv, rfl⟩)
      · exact Language.nil_mem_kstar _
      · have join := Language.append_mem_mul hu hv
        simpa only [language, kstar_mul_kstar] using join
    · exact fun hw => .inr ⟨w, hw, [], Language.nil_mem_kstar _, by simp⟩

/-- Every class of the pattern stays inside this set of letters. -/
def Within (q : α → Prop) : Pattern α → Prop
  | fail => True
  | eps => True
  | cls p => ∀ a, p a = true → q a
  | seq p r => p.Within q ∧ r.Within q
  | alt p r => p.Within q ∧ r.Within q
  | star p => p.Within q

theorem Within.mem {q : α → Prop} {p : Pattern α} (h : p.Within q) {w : List α}
    (hw : w ∈ p.language) : ∀ a ∈ w, q a := by
  induction p generalizing w with
  | fail => exact absurd hw (Language.notMem_zero w)
  | eps =>
    obtain rfl := (Language.mem_one w).mp hw
    simp
  | cls p =>
    obtain ⟨a, ha, rfl⟩ := hw
    simpa using h a ha
  | seq p r ihp ihr =>
    obtain ⟨u, hu, v, hv, rfl⟩ := mem_seq.mp hw
    intro a ha
    rcases List.mem_append.mp ha with ha | ha
    · exact ihp h.1 hu a ha
    · exact ihr h.2 hv a ha
  | alt p r ihp ihr =>
    rcases mem_alt.mp hw with hw | hw
    · exact ihp h.1 hw
    · exact ihr h.2 hw
  | star p ih =>
    obtain ⟨ws, rfl, hws⟩ := Language.mem_kstar.mp hw
    intro a ha
    obtain ⟨u, hu, ha⟩ := List.mem_flatten.mp ha
    exact ih h (hws u hu) a ha

end Pattern
end CqIrc.Flex
