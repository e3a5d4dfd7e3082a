import CqIrc.RunInvariant
import CqIrc.Stream.Delimited

/-! Two ideas of where a line ends. `on_read` hands over the bytes up to the first
CR LF; the scanner stops at the first `{crlf}` behind the command, which may also be
an LF CR, and whatever follows it in the buffer is dropped unread. -/

namespace CqIrc
open Flex

/-- A buffer of `on_read`: the bytes up to and including their first CR LF. -/
abbrev EndsAtFirstCrlf (buf : Bytes) : Prop := Stream.EndsAtFirst [cr, lf] buf

theorem EndsAtFirstCrlf.rest {x y : Bytes} (h : EndsAtFirstCrlf (x ++ cr :: lf :: y)) :
    y = [] := by
  have whole := h.first (x ++ [cr, lf]) ⟨y, by simp⟩ ⟨x, rfl⟩
  simpa using whole

def ReadsAll (cb : Callbacks) (g : Bool) (buf : Bytes) : Prop :=
  ∀ e, yylex cb g buf = some (.ok e) → e.code = 0 → e.rest = []

/-- The first line end behind the command is an LF CR. -/
def StopsAtLfCr (buf : Bytes) : Prop := ∃ v, (walk .initial buf).2 = some (lf :: cr :: v)

section tables
variable {cb : Callbacks} {s : State}

/-- A turn is that of the full table, unless it meets a NULL entry. -/
theorem step_full (cb : Callbacks) (s : State) :
    step cb s = step .full s ∨ ∃ e, step cb s = .ret e ∧ e.code = 1 := by
  unfold step
  split
  · exact .inl rfl
  · split
    · exact .inl rfl
    · exact .inl rfl
    · next r n _ =>
      cases r with
      | event f =>
        by_cases hf : cb.has f = true
        · exact .inl (by simp [action, eventTest, hf])
        · exact .inr ⟨_, if_neg hf, rfl⟩
      | command =>
        by_cases hf : cb.has .unknown = true
        · exact .inl (by simp [action, eventTestExtra, hf])
        · exact .inr ⟨_, if_neg hf, rfl⟩
      | _ => exact .inl rfl

theorem step_full_next {s' : State} (h : step cb s = .next s') : step .full s = .next s' := by
  rcases step_full cb s with same | ⟨e, missing, -⟩
  · exact same.symm.trans h
  · cases h.symm.trans missing

theorem step_full_ret {e : Exit} (h : step cb s = .ret e) (code : e.code ≠ 1) :
    step .full s = .ret e := by
  rcases step_full cb s with same | ⟨e', missing, one⟩
  · exact same.symm.trans h
  · obtain rfl := Outcome.ret.inj (h.symm.trans missing)
    exact absurd one code

theorem step_full_fault {f : Fault} (h : step cb s = .fault f) : step .full s = .fault f := by
  rcases step_full cb s with same | ⟨e, missing, -⟩
  · exact same.symm.trans h
  · cases h.symm.trans missing

theorem run_full {n : Nat} {e : Exit} (h : run cb n s = some (.ok e)) (code : e.code ≠ 1) :
    run .full n s = some (.ok e) := by
  induction n generalizing s with
  | zero => cases h
  | succ n ih =>
    rw [run] at h ⊢
    cases hs : step cb s with
    | next s' =>
      rw [hs] at h
      rw [step_full_next hs]
      exact ih h
    | ret e' =>
      rw [hs] at h
      obtain rfl : e' = e := Except.ok.inj (Option.some.inj h)
      rw [step_full_ret hs code]
    | fault f =>
      rw [hs] at h
      cases h

end tables

/-- Where the scanner reports a message: at the first line end behind the command. -/
theorem exit_at_line_end {cb : Callbacks} {g : Bool} {buf : Bytes} {e : Exit}
    (he : yylex cb g buf = some (.ok e)) (code : e.code = 0) :
    ∃ x w, buf = x ++ (w ++ e.rest) ∧ w ∈ crlf.language ∧
      (walk .initial buf).2 = some (w ++ e.rest) ∧ middleCount buf ≤ 14 := by
  obtain ⟨s, reach, turn⟩ := (runs_of_yylex he).last_ret
  have total := reach.total
  have slots := reach.length_le_slots
  obtain ⟨x, hx⟩ := reach.suffix
  cases turn with
  | eof => cases code
  | missing => cases code
  | crlf hw =>
    simp only [Scan.total, Phase.mode, walk_crlf hw] at total
    refine ⟨x, _, hx, hw, (congrArg Prod.snd total).symm, ?_⟩
    rw [middleCount, ← total]
    exact slots

theorem code_of_line_end {g : Bool} {buf rest : Bytes} {e : Exit}
    (he : yylex .full g buf = some (.ok e)) (stop : (walk .initial buf).2 = some rest) :
    e.code = 0 := by
  obtain ⟨s, reach, turn⟩ := (runs_of_yylex he).last_ret
  cases turn with
  | eof =>
    have total := congrArg Prod.snd reach.total
    rw [stop] at total
    cases total
  | missing _ hf => simp at hf
  | crlf => rfl

/-- Every table agrees with the framing of `on_read` unless the scanner gets through to
an LF CR. -/
theorem readsAll_iff {buf : Bytes} (h : EndsAtFirstCrlf buf) (g : Bool) :
    (∀ cb, ReadsAll cb g buf) ↔
      ¬ (StopsAtLfCr buf ∧ middleCount buf ≤ 14 ∧ ∀ b ∈ lookups .initial 14 buf, b < 0x80) := by
  constructor
  · rintro all ⟨⟨v, stop⟩, count, clear⟩
    obtain ⟨-, e, -, -, he⟩ := exists_exit count (staysInTable_full_iff.mpr clear)
    have code := code_of_line_end he stop
    obtain ⟨x, w, split, hw, stop', -⟩ := exit_at_line_end he code
    rw [all .full e he code, List.append_nil] at split stop'
    have lfcr : w = [lf, cr] := by
      rcases mem_crlf.mp hw with rfl | rfl
      · simp [stop, cr, lf] at stop'
      · rfl
    obtain ⟨front, ends⟩ := h.ends
    rw [split, lfcr] at ends
    exact absurd (List.append_inj_right' ends rfl) (by decide)
  · intro clear cb e he code
    obtain ⟨x, w, split, hw, stop, count⟩ := exit_at_line_end he code
    rcases mem_crlf.mp hw with rfl | rfl
    · exact (split ▸ h).rest
    · have full := run_full he (by simp [code])
      exact absurd ⟨⟨_, stop⟩, count, staysInTable_full_iff.mp (staysInTable_of_exit full)⟩ clear

def folded : Bytes :=
  ascii ['P', 'I', 'N', 'G', ' ', 'a', '\n', '\r', 'f', 'o', 'o', '\r', '\n']

theorem not_readsAll_folded : EndsAtFirstCrlf folded ∧ ¬ ReadsAll .full false folded := by
  refine ⟨by decide, fun all => ?_⟩
  obtain ⟨e, he, view⟩ : ∃ e, yylex .full false folded = some (.ok e) ∧
      (e.code, e.rest) = (0, ascii ['f', 'o', 'o', '\r', '\n']) :=
    exists_exit_view (f := fun e => (e.code, e.rest)) (by decide +kernel)
  obtain ⟨code, rest⟩ := Prod.mk.inj view
  rw [all e he code] at rest
  cases rest

theorem readsAll_iff_filled : EndsAtFirstCrlf filled ∧ ∀ cb, ReadsAll cb false filled := by
  refine ⟨by decide, (readsAll_iff (by decide) false).mpr ?_⟩
  rintro ⟨⟨v, stop⟩, -⟩
  have ends : (walk .initial filled).2 = some [cr, lf] := by decide
  rw [ends] at stop
  cases stop

end CqIrc
