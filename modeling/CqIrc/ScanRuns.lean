import CqIrc.Scan

/-! Runs of the scanner. `Runs` is the big-step relation of the view; `yylex` always
ends, and its result is one of `Runs`. On seven-bit lines the converse holds. -/

namespace CqIrc
open Flex Flex.Pattern

inductive Runs (cb : Callbacks) (g : Bool) : Scan → Except Fault Exit → Prop where
  | ret {s e} : Turn cb g s (.ret e) → Runs cb g s (.ok e)
  | fault {s f} : Turn cb g s (.fault f) → Runs cb g s (.error f)
  | next {s s' r} : Turn cb g s (.next s') → Runs cb g s' r → Runs cb g s r

def Reaches (cb : Callbacks) (g : Bool) : Scan → Scan → Prop :=
  Relation.ReflTransGen fun s s' => Turn cb g s (.next s')

theorem Turn.input {cb : Callbacks} {g : Bool} {s s' : Scan} (h : Turn cb g s (.next s')) :
    ∃ w, w ≠ [] ∧ s.input = w ++ s'.input := by
  cases h with
  | @skip _ b => exact ⟨[b], by simp, rfl⟩
  | enterPrefix => exact ⟨[CqIrc.colon], by simp, rfl⟩
  | word h _ => exact ⟨_, h.ne_nil, rfl⟩
  | source h _ =>
    obtain ⟨b, t, rfl, -⟩ := source_head h
    exact ⟨_, by simp, rfl⟩
  | user => exact ⟨quotedUser, by decide, rfl⟩
  | host => exact ⟨quotedHost, by decide, rfl⟩
  | leavePrefix => exact ⟨[sp], by simp, rfl⟩
  | space => exact ⟨[sp], by simp, rfl⟩
  | colon => exact ⟨[CqIrc.colon], by simp, rfl⟩
  | middle h _ _ =>
    obtain ⟨b, t, rfl, -⟩ := mem_middle.mp h
    exact ⟨_, by simp, rfl⟩
  | trailing ne _ _ => exact ⟨_, ne, rfl⟩

theorem Turn.input_length {cb : Callbacks} {g : Bool} {s s' : Scan}
    (h : Turn cb g s (.next s')) : s'.input.length < s.input.length := by
  obtain ⟨w, hw, e⟩ := h.input
  have := List.length_pos_iff.mpr hw
  rw [e, List.length_append]
  omega

theorem begin_state (g : Bool) (line : Bytes) : begin g line = (Scan.begin line).state g := by
  cases g <;> rfl

theorem run_runs (cb : Callbacks) (g : Bool) (n : Nat) (s : Scan) (h : s.input.length < n) :
    ∃ r, run cb n (s.state g) = some r ∧ Runs cb g s r := by
  induction n generalizing s with
  | zero => omega
  | succ n ih =>
    obtain ⟨res, ht, hs⟩ := step_turn cb g s
    cases res with
    | next s' =>
      have shorter := ht.input_length
      obtain ⟨r, hr, hruns⟩ := ih s' (by omega)
      exact ⟨r, by rw [run, hs]; exact hr, .next ht hruns⟩
    | ret e => exact ⟨.ok e, by rw [run, hs]; rfl, .ret ht⟩
    | fault f => exact ⟨.error f, by rw [run, hs]; rfl, .fault ht⟩

/-- The scanner ends within one action more than there are bytes. -/
theorem yylex_runs (cb : Callbacks) (g : Bool) (line : Bytes) :
    ∃ r, yylex cb g line = some r ∧ Runs cb g (Scan.begin line) r := by
  rw [yylex, begin_state]
  exact run_runs cb g _ _ (by simp [Scan.begin])

theorem runs_of_yylex {cb : Callbacks} {g : Bool} {line : Bytes} {r : Except Fault Exit}
    (h : yylex cb g line = some r) : Runs cb g (Scan.begin line) r := by
  obtain ⟨r', h', hr⟩ := yylex_runs cb g line
  rw [h] at h'
  exact Option.some.inj h' ▸ hr

theorem exists_exit_view {β : Type*} {cb : Callbacks} {g : Bool} {line : Bytes} {f : Exit → β}
    {b : β} (h : (yylex cb g line).map (fun r => r.map f) = some (.ok b)) :
    ∃ e, yylex cb g line = some (.ok e) ∧ f e = b := by
  obtain ⟨r, hr, view⟩ := Option.map_eq_some_iff.mp h
  cases r with
  | error fault => cases view
  | ok e => exact ⟨e, hr, Except.ok.inj view⟩

theorem Runs.run {cb : Callbacks} {g : Bool} {s : Scan} {r : Except Fault Exit} (h : Runs cb g s r)
    (hc : ∀ b ∈ s.input, inTable b = true) (n : Nat) (hn : s.input.length < n) :
    run cb n (s.state g) = some r := by
  induction h generalizing n with
  | ret ht =>
    obtain ⟨k, rfl⟩ := Nat.exists_eq_add_of_le' (Nat.zero_lt_of_lt hn)
    rw [CqIrc.run, ht.step hc]
    rfl
  | fault ht =>
    obtain ⟨k, rfl⟩ := Nat.exists_eq_add_of_le' (Nat.zero_lt_of_lt hn)
    rw [CqIrc.run, ht.step hc]
    rfl
  | next ht _ ih =>
    obtain ⟨k, rfl⟩ := Nat.exists_eq_add_of_le' (Nat.zero_lt_of_lt hn)
    obtain ⟨w, -, e⟩ := ht.input
    have shorter := ht.input_length
    rw [CqIrc.run, ht.step hc]
    exact ih (fun b hb => hc b (by simp [e, hb])) k (by omega)

theorem Runs.yylex {cb : Callbacks} {g : Bool} {line : Bytes} {r : Except Fault Exit}
    (h : Runs cb g (Scan.begin line) r) (hc : ∀ b ∈ line, inTable b = true) :
    yylex cb g line = some r := by
  rw [CqIrc.yylex, begin_state]
  exact h.run hc _ (by simp [Scan.begin])

theorem reaches_of_steps {cb : Callbacks} {g : Bool} {a : Scan} {s : State}
    (h : Steps cb (a.state g) s) : ∃ b, s = b.state g ∧ Reaches cb g a b := by
  induction h with
  | refl => exact ⟨a, rfl, .refl⟩
  | tail _ hs ih =>
    obtain ⟨b, rfl, hr⟩ := ih
    obtain ⟨res, ht, e⟩ := step_turn cb g b
    rw [e] at hs
    cases res with
    | next c => exact ⟨c, (Outcome.next.inj hs).symm, hr.tail ht⟩
    | ret e => cases hs
    | fault f => cases hs

theorem reaches_of_begin {cb : Callbacks} {g : Bool} {line : Bytes} {s : State}
    (h : Steps cb (begin g line) s) : ∃ b, s = b.state g ∧ Reaches cb g (Scan.begin line) b :=
  reaches_of_steps (begin_state g line ▸ h)

theorem Reaches.runs {cb : Callbacks} {g : Bool} {s s' : Scan} {r : Except Fault Exit}
    (h : Reaches cb g s s') (hr : Runs cb g s' r) : Runs cb g s r := by
  induction h using Relation.ReflTransGen.head_induction_on with
  | refl => exact hr
  | head ht _ ih => exact .next ht ih

/-- The invariant rule: what the start has and every turn keeps, every reached view has. -/
theorem Reaches.invariant {cb : Callbacks} {g : Bool} {s s' : Scan} {P : Scan → Prop}
    (h : Reaches cb g s s') (start : P s)
    (keep : ∀ a b, P a → Turn cb g a (.next b) → P b) : P s' := by
  induction h with
  | refl => exact start
  | tail _ ht ih => exact keep _ _ ih ht

theorem Reaches.suffix {cb : Callbacks} {g : Bool} {s s' : Scan} (h : Reaches cb g s s') :
    ∃ w, s.input = w ++ s'.input := by
  refine h.invariant (P := fun b => ∃ w, s.input = w ++ b.input) ⟨[], rfl⟩ ?_
  rintro a b ⟨w, e⟩ ht
  obtain ⟨u, -, e'⟩ := ht.input
  exact ⟨w ++ u, by rw [e, e', List.append_assoc]⟩

theorem Reaches.columns {cb : Callbacks} {g : Bool} {s s' : Scan} (h : Reaches cb g s s')
    (hc : ∀ b ∈ s.input, inTable b = true) : ∀ b ∈ s'.input, inTable b = true := by
  obtain ⟨w, e⟩ := h.suffix
  exact fun b hb => hc b (by simp [e, hb])

theorem Reaches.steps {cb : Callbacks} {g : Bool} {s s' : Scan} (h : Reaches cb g s s')
    (hc : ∀ b ∈ s.input, inTable b = true) : Steps cb (s.state g) (s'.state g) := by
  induction h with
  | refl => exact .refl
  | tail reach ht ih => exact ih.tail (ht.step (Reaches.columns reach hc))

theorem Runs.last {cb : Callbacks} {g : Bool} {s : Scan} {r : Except Fault Exit}
    (h : Runs cb g s r) : ∃ s', Reaches cb g s s' ∧
      ((∃ e, r = .ok e ∧ Turn cb g s' (.ret e)) ∨ ∃ f, r = .error f ∧ Turn cb g s' (.fault f)) := by
  induction h with
  | ret ht => exact ⟨_, .refl, .inl ⟨_, rfl, ht⟩⟩
  | fault ht => exact ⟨_, .refl, .inr ⟨_, rfl, ht⟩⟩
  | next ht _ ih =>
    obtain ⟨s', hs', last⟩ := ih
    exact ⟨s', .head ht hs', last⟩

theorem Runs.last_ret {cb : Callbacks} {g : Bool} {s : Scan} {e : Exit}
    (h : Runs cb g s (.ok e)) : ∃ s', Reaches cb g s s' ∧ Turn cb g s' (.ret e) := by
  obtain ⟨s', reach, ⟨e', same, turn⟩ | ⟨f, same, -⟩⟩ := h.last
  · exact ⟨s', reach, Except.ok.inj same ▸ turn⟩
  · cases same

/-- A message is handed over at a line end, from the view the run has then. -/
theorem Runs.called {cb : Callbacks} {g : Bool} {s : Scan} {e : Exit} {i : Invocation}
    (h : Runs cb g s (.ok e)) (call : i ∈ e.calls) :
    ∃ s' t, Reaches cb g s s' ∧ s'.phase = .params t ∧ i = t.invocation s'.message := by
  obtain ⟨s', reach, turn⟩ := h.last_ret
  cases turn with
  | eof | missing => simp at call
  | @crlf t => exact ⟨_, t, reach, rfl, by simpa using call⟩

end CqIrc
