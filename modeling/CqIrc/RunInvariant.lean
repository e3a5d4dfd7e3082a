import CqIrc.Columns

/-! What holds in every state of a run: the depth of the stack, the pointers that will
be called, the result. The phase of the view determines stack and pointers, and a
turn changes what will be called only at the command word. -/

namespace CqIrc
open Flex

section targets
variable {cb : Callbacks} {g : Bool} {s s' : Scan} {t : Target}

theorem Turn.target (h : Turn cb g s (.next s')) :
    s'.phase.target? = s.phase.target? ∨
      s.phase = .head ∧ ∃ t, s'.phase = .params t ∧ cb.has t.signal = true := by
  cases h with
  | word _ hf => exact .inr ⟨rfl, _, rfl, hf⟩
  | _ => exact .inl rfl

theorem Reaches.target (h : Reaches cb g s s') (ht : s.phase.target? = some t) :
    s'.phase.target? = some t := by
  refine h.invariant (P := fun b => b.phase.target? = some t) ht fun a b ha turn => ?_
  rcases turn.target with same | ⟨head, -⟩
  · exact same.trans ha
  · rw [head] at ha
    cases ha

theorem Reaches.has {line : Bytes} (h : Reaches cb g (Scan.begin line) s)
    (ht : s.phase.target? = some t) : cb.has t.signal = true := by
  refine h.invariant (P := fun b => ∀ t, b.phase.target? = some t → cb.has t.signal = true)
    (by rintro _ ⟨⟩) (fun a b ha turn t hb => ?_) t ht
  rcases turn.target with same | ⟨-, u, hu, hf⟩
  · exact ha t (same ▸ hb)
  · rw [hu] at hb
    exact Option.some.inj hb ▸ hf

end targets

theorem Phase.stack_length (p : Phase) (g : Bool) : (p.stack g).length ≤ 4 := by
  cases p <;> cases g <;> simp [Phase.stack, Phase.homeStack]

theorem Phase.start_of_target {p : Phase} {t : Target} (h : p.target? = some t) (g : Bool) :
    p.start g ≠ .initial ∧ p.start g ≠ .genericInitial ∧ p.start g ≠ .pfx := by
  cases p with
  | params t => cases t <;> simp [Phase.start, Target.paramsStart]
  | param t => simp [Phase.start]
  | trailing t => simp [Phase.start]
  | _ => cases h

theorem phase_params {p : Phase} {g : Bool} (h : p.start g = .params) :
    ∃ f, p.target? = some (.event f) := by
  cases p with
  | params t => cases t with
    | event f => exact ⟨f, rfl⟩
    | extra w => cases h
  | head => cases g <;> cases h
  | _ => cases h

theorem phase_genericParams {p : Phase} {g : Bool} (h : p.start g = .genericParams) :
    ∃ w, p.target? = some (.extra w) := by
  cases p with
  | params t => cases t with
    | event f => cases h
    | extra w => exact ⟨w, rfl⟩
  | head => cases g <;> cases h
  | _ => cases h

theorem Token.of_head {c : StartCondition} {r : Rule} {w v : Bytes} (h : Token c r w v)
    (hr : (∃ f, r = .event f) ∨ r = .command) : c = .initial ∨ c = .genericInitial := by
  cases h with
  | word => exact .inl rfl
  | genericWord => exact .inr rfl
  | _ => simp at hr

theorem State.Selects.start {s : State} {f : Signal} (h : s.Selects f) :
    s.start = .initial ∨ s.start = .genericInitial := by
  obtain ⟨n, h | ⟨h, -⟩⟩ := h
  · exact h.token.of_head (.inl ⟨f, rfl⟩)
  · exact h.token.of_head (.inr rfl)

theorem State.Selects.next {s s' : State} {f : Signal} {cb : Callbacks} (h : s.Selects f)
    (hs : step cb s = .next s') : s'.start = .params ∨ s'.start = .genericParams := by
  obtain ⟨n, h | ⟨h, -⟩⟩ := h
  · rw [h.step, action, eventTest] at hs
    split at hs
    · cases hs
      exact .inl rfl
    · cases hs
  · rw [h.step, action, eventTestExtra] at hs
    split at hs
    · cases hs
      exact .inr rfl
    · cases hs

/-- The run invariant of the scanner on one line, with one table and in one mode. -/
structure ScanInvariant (cb : Callbacks) (g : Bool) (line : Bytes) : Prop where
  /-- `yylex` allows one action more than there are bytes; no fault, so no empty pop. -/
  ends : ∃ e, yylex cb g line = some (.ok e)
  consumes : ∀ s r n, Steps cb (begin g line) s → s.Fires r n → 0 < n
  depth : ∀ s, Steps cb (begin g line) s → s.stack.length ≤ 4
  settled : ∀ s s', Steps cb (begin g line) s →
    s.start = .params ∨ s.start = .genericParams → Steps cb s s' →
    s'.start ≠ .initial ∧ s'.start ≠ .genericInitial ∧ s'.start ≠ .pfx
  event : ∀ s s', Steps cb (begin g line) s → s.start = .params → Steps cb s s' →
    ∃ f, s'.eventSignal = some f ∧ cb.has f = true
  extra : ∀ s s', Steps cb (begin g line) s → s.start = .genericParams → Steps cb s s' →
    ∃ f w, s'.extraEventSignal = some f ∧ cb.has f = true ∧ s'.command = some w
  code : ∀ e, yylex cb g line = some (.ok e) → e.code = 0 ∨ e.code = 1 ∨ e.code = -2
  calls : ∀ e, yylex cb g line = some (.ok e) →
    (e.code = 0 → ∃ i, e.calls = [i]) ∧ (e.code ≠ 0 → e.calls = [])
  /-- The result 1: the first command token of the line selects a NULL entry. -/
  missing : ∀ e, yylex cb g line = some (.ok e) → e.code = 1 →
    ∃ s f, Steps cb (begin g line) s ∧ s.Selects f ∧ cb.has f = false ∧
      ∀ s' f', Steps cb (begin g line) s' → Steps cb s' s → s'.Selects f' → s' = s

theorem run_rest {cb : Callbacks} {n : Nat} {s s' : State} {r : Except Fault Exit}
    (h : Steps cb s s') (hr : run cb n s = some r) : ∃ m, run cb (m + 1) s' = some r := by
  induction h using Relation.ReflTransGen.head_induction_on generalizing n with
  | refl => cases n with
    | zero => cases hr
    | succ n => exact ⟨n, hr⟩
  | head hs _ ih => cases n with
    | zero => cases hr
    | succ n =>
      rw [run, hs] at hr
      exact ih hr

theorem run_fault {cb : Callbacks} {n : Nat} {s s' : State} {f : Fault} {r : Except Fault Exit}
    (h : Steps cb s s') (hf : step cb s' = .fault f) (hr : run cb n s = some r) :
    r = .error f := by
  obtain ⟨m, rest⟩ := run_rest h hr
  rw [run, hf] at rest
  exact (Option.some.inj rest).symm

theorem pop_ne_ret {s : State} {k : State → Outcome} {e : Exit} (hk : ∀ s, k s ≠ .ret e) :
    s.pop k ≠ .ret e := by
  unfold State.pop
  split
  · exact nofun
  · exact hk _

theorem selects_of_one {cb : Callbacks} {s : State} {e : Exit} (h : step cb s = .ret e)
    (one : e.code = 1) : ∃ f, s.Selects f ∧ cb.has f = false := by
  unfold step at h
  split at h
  · cases h
    cases one
  · next b v hi =>
    split at h
    · cases h
    · cases h
    · next r n hm =>
      have fires : s.Fires r n := ⟨by simp [hi], hm⟩
      cases r with
      | event f =>
        by_cases hf : cb.has f = true
        · simp [action, eventTest, hf] at h
        · exact ⟨f, ⟨n, .inl fires⟩, by simpa using hf⟩
      | command =>
        by_cases hf : cb.has .unknown = true
        · simp [action, eventTestExtra, hf] at h
        · exact ⟨.unknown, ⟨n, .inr ⟨fires, rfl⟩⟩, by simpa using hf⟩
      | leavePrefix =>
        rw [action] at h
        exact absurd h (pop_ne_ret fun s => pop_ne_ret fun s => by simp)
      | trailing =>
        rw [action] at h
        exact absurd h (pop_ne_ret fun s => pop_ne_ret fun s => by simp)
      | middle =>
        rw [action] at h
        refine absurd h (pop_ne_ret fun s => ?_)
        unfold addParam
        split <;> simp
      | genericCrlf =>
        rw [action] at h
        split at h <;> cases h
        cases one
      | crlf =>
        rw [action] at h
        split at h <;> cases h
        cases one
      | _ => cases h

section runs
variable {cb : Callbacks} {g : Bool} {line : Bytes}

theorem settled_of_steps {s s' : State} (hs : Steps cb (begin g line) s)
    (start : s.start = .params ∨ s.start = .genericParams) (hs' : Steps cb s s') :
    s'.start ≠ .initial ∧ s'.start ≠ .genericInitial ∧ s'.start ≠ .pfx := by
  obtain ⟨a, rfl, -⟩ := reaches_of_begin hs
  obtain ⟨b, rfl, reach⟩ := reaches_of_steps hs'
  rcases start with h | h
  · obtain ⟨f, ht⟩ := phase_params h
    exact Phase.start_of_target (reach.target ht) g
  · obtain ⟨w, ht⟩ := phase_genericParams h
    exact Phase.start_of_target (reach.target ht) g

theorem first_of_selects {s s' : State} {f f' : Signal} (hs' : Steps cb (begin g line) s')
    (between : Steps cb s' s) (h : s.Selects f) (h' : s'.Selects f') : s' = s := by
  rcases between.cases_head with same | ⟨c, hc, rest⟩
  · exact same
  · have start := settled_of_steps (hs'.tail hc) (h'.next hc) rest
    rcases h.start with e | e
    · exact absurd e start.1
    · exact absurd e start.2.1

theorem staysInTable_of_sevenBit (hc : ∀ b ∈ line, inTable b = true) (cb : Callbacks)
    (g : Bool) : StaysInTable cb g line := by
  intro s hs _
  obtain ⟨a, rfl, reach⟩ := reaches_of_begin hs
  exact munchFrom_ne_none (reach.columns hc) _ 0 none

/-- A run with a result has stayed in the table. -/
theorem staysInTable_of_exit {e : Exit} (he : yylex cb g line = some (.ok e)) :
    StaysInTable cb g line := by
  intro s hs ne hm
  obtain ⟨b, v, hi⟩ := List.exists_cons_of_ne_nil ne
  have out : step cb s = .fault .outOfTable := by
    rw [hi] at hm
    simp only [step, hi, hm]
  cases run_fault hs out he

theorem exists_exit (count : middleCount line ≤ 14) (inside : StaysInTable cb g line) :
    ∃ s e, Steps cb (begin g line) s ∧ step cb s = .ret e ∧ yylex cb g line = some (.ok e) := by
  obtain ⟨r, hr, -⟩ := yylex_runs cb g line
  obtain ⟨s, hs, ⟨e, rfl, he⟩ | ⟨f, rfl, hf⟩⟩ := run_last hr
  · exact ⟨s, e, hs, he, hr⟩
  · obtain ⟨a, rfl, reach⟩ := reaches_of_begin hs
    obtain ⟨res, turn, he⟩ := step_turn cb g a
    rw [hf] at he
    cases res with
    | next b => cases he
    | ret e => cases he
    | fault f' =>
      cases turn with
      | outOfTable ne hm => exact absurd hm (inside _ hs ne)
      | overflow hw _ full =>
        have room := lt_of_lt_of_le (reach.room hw) count
        rw [← Params.add_isSome, full] at room
        simp at room

theorem exit_calls {s : State} {e : Exit} (hs : Steps cb (begin g line) s)
    (he : step cb s = .ret e) :
    (e.code = 0 ∧ ∃ i, e.calls = [i]) ∨ (e.code = 1 ∧ e.calls = []) ∨
      (e.code = -2 ∧ e.calls = []) := by
  obtain ⟨a, rfl, -⟩ := reaches_of_begin hs
  obtain ⟨res, turn, out⟩ := step_turn cb g a
  rw [he] at out
  cases res with
  | next b => cases out
  | fault f => cases out
  | ret e' =>
    obtain rfl : e = e' := Outcome.ret.inj out
    cases turn with
    | eof => exact .inr (.inr ⟨rfl, rfl⟩)
    | missing => exact .inr (.inl ⟨rfl, rfl⟩)
    | crlf => exact .inl ⟨rfl, _, rfl⟩

theorem scanInvariant_of_staysInTable (count : middleCount line ≤ 14)
    (inside : StaysInTable cb g line) : ScanInvariant cb g line := by
  obtain ⟨last, e, steps, he, hr⟩ := exists_exit count inside
  have only {e' : Exit} (h : yylex cb g line = some (.ok e')) : e' = e := by
    rw [hr] at h
    exact (Except.ok.inj (Option.some.inj h)).symm
  constructor
  case ends => exact ⟨e, hr⟩
  case consumes =>
    intro s r n _ fires
    have ne := fires.token.ne_nil
    exact Nat.pos_of_ne_zero fun zero => ne (by simp [zero])
  case depth =>
    intro s hs
    obtain ⟨a, rfl, -⟩ := reaches_of_begin hs
    exact a.phase.stack_length g
  case settled => exact fun s s' hs start hs' => settled_of_steps hs start hs'
  case event =>
    intro s s' hs start hs'
    obtain ⟨a, rfl, ha⟩ := reaches_of_begin hs
    obtain ⟨b, rfl, hb⟩ := reaches_of_steps hs'
    obtain ⟨f, ht⟩ := phase_params start
    have target := hb.target ht
    exact ⟨f, by simp [Scan.state, Phase.eventSignal, target], ha.has ht⟩
  case extra =>
    intro s s' hs start hs'
    obtain ⟨a, rfl, ha⟩ := reaches_of_begin hs
    obtain ⟨b, rfl, hb⟩ := reaches_of_steps hs'
    obtain ⟨w, ht⟩ := phase_genericParams start
    have target := hb.target ht
    exact ⟨.unknown, w, by simp [Scan.state, Phase.extraEventSignal, target], ha.has ht,
      by simp [Scan.state, Phase.command, target, Target.word?]⟩
  case code =>
    intro e' h
    obtain rfl := only h
    rcases exit_calls steps he with ⟨code, -⟩ | ⟨code, -⟩ | ⟨code, -⟩ <;> simp [code]
  case calls =>
    intro e' h
    obtain rfl := only h
    rcases exit_calls steps he with ⟨code, calls⟩ | ⟨code, calls⟩ | ⟨code, calls⟩ <;>
      simp [code, calls]
  case missing =>
    intro e' h one
    obtain rfl := only h
    obtain ⟨f, selects, hf⟩ := selects_of_one he one
    exact ⟨last, f, steps, selects, hf,
      fun s' f' hs' between h' => first_of_selects hs' between selects h'⟩

end runs

/-- With at most fourteen middles the invariant holds for all tables and modes exactly if the
bytes up to the one behind the line end are below 0x80, and for one of them exactly where no
lookup of its run leaves the table, as on every line of seven-bit bytes. -/
theorem scanInvariant_iff {line : Bytes} (count : middleCount line ≤ 14) :
    ((∀ cb g, ScanInvariant cb g line) ↔ ∀ b ∈ lookups .initial 14 line, b < 0x80) ∧
      ∀ cb g, (ScanInvariant cb g line ↔ StaysInTable cb g line) ∧
        ((∀ b ∈ line, inTable b = true) → StaysInTable cb g line) := by
  have inside (cb : Callbacks) (g : Bool) : ScanInvariant cb g line ↔ StaysInTable cb g line := by
    refine ⟨fun h => ?_, scanInvariant_of_staysInTable count⟩
    obtain ⟨e, he⟩ := h.ends
    exact staysInTable_of_exit he
  refine ⟨⟨fun all => ?_, fun clear cb g => (inside cb g).mpr (staysInTable_of_lookups clear)⟩,
    fun cb g => ⟨inside cb g, fun hc => staysInTable_of_sevenBit hc cb g⟩⟩
  exact staysInTable_full_iff.mp ((inside .full false).mp (all .full false))

theorem scanInvariant_filled :
    (∀ cb g, ScanInvariant cb g filled) ∧
      ∃ e i, yylex .full false filled = some (.ok e) ∧ e.code = 0 ∧ e.calls = [i] := by
  have all : ∀ cb g, ScanInvariant cb g filled := (scanInvariant_iff (by decide)).1.mpr
    fun b hb => inTable_iff.mp (List.all_eq_true.mp (by decide) b hb)
  obtain ⟨e, he, code⟩ : ∃ e, yylex .full false filled = some (.ok e) ∧ e.code = 0 :=
    exists_exit_view (by decide +kernel)
  obtain ⟨i, called⟩ := ((all .full false).calls e he).1 code
  exact ⟨all, e, i, he, code, called⟩

def accented : Bytes := ascii ['P', 'I', 'N', 'G', ' ', ':'] ++ [0xC3, 0xA9, cr, lf]

theorem not_scanInvariant_accented :
    middleCount accented ≤ 14 ∧ ¬ ScanInvariant .full false accented := by
  refine ⟨by decide, fun h => ?_⟩
  obtain ⟨e, he⟩ := h.ends
  have out : yylex .full false accented = some (.error .outOfTable) := by decide +kernel
  rw [out] at he
  cases he

end CqIrc
