import Mathlib.Data.Nat.Basic

/-! Runs of a machine whose steps are chosen by its surroundings. A step is a partial
function of the act and the state; `allowed` restricts the acts that may occur in a
state. Invariants and bounds are proved for one step and hold for runs. -/

namespace CqIrc.Machine
variable {σ α : Type*}

/-- A run of this many steps. -/
inductive Run (step : α → σ → Option σ) (allowed : σ → α → Prop) (s : σ) : Nat → σ → Prop where
  | refl : Run step allowed s 0 s
  | tail {n t a u} : Run step allowed s n t → allowed t a → step a t = some u →
      Run step allowed s (n + 1) u

/-- Every act is allowed. -/
def free (_ : σ) (_ : α) : Prop := True

instance (s : σ) (a : α) : Decidable (free s a) := inferInstanceAs (Decidable True)

/-- Taking the acts of a list in turn. -/
def exec (step : α → σ → Option σ) (allowed : σ → α → Prop) [∀ s a, Decidable (allowed s a)] :
    List α → σ → Option σ
  | [], s => some s
  | a :: as, s => if allowed s a then (step a s).bind (exec step allowed as) else none

variable {step : α → σ → Option σ} {allowed : σ → α → Prop} {s t : σ} {n : Nat}

theorem Run.head {a : α} (ha : allowed s a) (hs : step a s = some t) {u : σ}
    (h : Run step allowed t n u) : Run step allowed s (n + 1) u := by
  induction h with
  | refl => exact .tail .refl ha hs
  | tail _ hb hu ih => exact .tail ih hb hu

theorem Run.of_exec [∀ s a, Decidable (allowed s a)] (as : List α)
    (h : exec step allowed as s = some t) : Run step allowed s as.length t := by
  induction as generalizing s with
  | nil =>
    obtain rfl := Option.some.inj h
    exact .refl
  | cons a as ih =>
    rw [exec] at h
    split at h
    · next ha =>
      obtain ⟨u, hu, rest⟩ := Option.bind_eq_some_iff.mp h
      exact .head ha hu (ih rest)
    · cases h

theorem exists_run (step : α → σ → Option σ) (allowed : σ → α → Prop)
    [∀ s a, Decidable (allowed s a)] {β : Type*} {f : σ → β} {b : β}
    (as : List α) (h : (exec step allowed as s).map f = some b) :
    ∃ t, Run step allowed s as.length t ∧ f t = b := by
  obtain ⟨t, ht, hb⟩ := Option.map_eq_some_iff.mp h
  exact ⟨t, .of_exec as ht, hb⟩

theorem exec_append [∀ s a, Decidable (allowed s a)] (as bs : List α) (s : σ) :
    exec step allowed (as ++ bs) s =
      (exec step allowed as s).bind (exec step allowed bs) := by
  induction as generalizing s with
  | nil => rfl
  | cons a as ih =>
    rw [List.cons_append, exec, exec]
    split
    · rw [Option.bind_assoc]
      exact congrArg _ (funext ih)
    · rfl

theorem exec_trans {as bs : List α} {u : σ} (h : exec step free as s = some t)
    (k : exec step free bs t = some u) : exec step free (as ++ bs) s = some u := by
  rw [exec_append, h]
  exact k

/-- A map that carries the allowed steps to steps of another machine carries their runs. -/
theorem exec_map [∀ s a, Decidable (allowed s a)] {τ : Type*} {other : α → τ → Option τ}
    {f : σ → τ} {P : σ → Prop} (as : List α) (h : exec step allowed as s = some t) (start : P s)
    (carry : ∀ a u v, P u → allowed u a → step a u = some v → P v ∧ other a (f u) = some (f v)) :
    exec other free as (f s) = some (f t) := by
  induction as generalizing s with
  | nil =>
    obtain rfl := Option.some.inj h
    rfl
  | cons a as ih =>
    rw [exec] at h
    split at h
    · next ha =>
      obtain ⟨u, hu, rest⟩ := Option.bind_eq_some_iff.mp h
      obtain ⟨kept, moved⟩ := carry a s u start ha hu
      rw [exec, if_pos (show free (f s) a from trivial), moved]
      exact ih rest kept
    · cases h

/-- A map under which the steps agree, those that fail as well. -/
theorem exec_agree {τ : Type*} {other : α → τ → Option τ} {f : σ → τ} {P : σ → Prop}
    {Q : α → Prop} {as : List α} (ok : ∀ a ∈ as, Q a) (start : P s)
    (same : ∀ a u, P u → Q a → (step a u).map f = other a (f u))
    (keep : ∀ a u v, P u → Q a → step a u = some v → P v) :
    (exec step free as s).map f = exec other free as (f s) := by
  induction as generalizing s with
  | nil => rfl
  | cons a as ih =>
    obtain ⟨ha, later⟩ := List.forall_mem_cons.mp ok
    have free_s : free s a := trivial
    have free_f : free (f s) a := trivial
    rw [exec, exec, if_pos free_s, if_pos free_f, ← same a s start ha]
    cases hs : step a s with
    | none => rfl
    | some u => exact ih later (keep a s u start ha hs)

/-- What the start has and every allowed step keeps, every state of a run has. -/
theorem Run.invariant {P : σ → Prop} (h : Run step allowed s n t) (start : P s)
    (keep : ∀ a u v, P u → allowed u a → step a u = some v → P v) : P t := by
  induction h with
  | refl => exact start
  | tail _ ha hs ih => exact keep _ _ _ ih ha hs

/-- Steps that make a measure smaller are bounded in number. -/
theorem Run.bounded {P : σ → Prop} {μ : σ → Nat} (h : Run step allowed s n t) (start : P s)
    (keep : ∀ a u v, P u → allowed u a → step a u = some v → P v)
    (less : ∀ a u v, P u → allowed u a → step a u = some v → μ v < μ u) : n + μ t ≤ μ s := by
  induction h with
  | refl => omega
  | tail run ha hs ih =>
    have := less _ _ _ (run.invariant start keep) ha hs
    omega

end CqIrc.Machine
