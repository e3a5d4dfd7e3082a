import CqIrc.LineModes

/-! The room for parameters. A view holds some middles and has others before it;
their number is fixed by the line, so the line alone decides whether a run writes
behind the array. -/

namespace CqIrc
open Flex

/-- The rule `r` is about to act on the next `n` bytes. -/
def State.Fires (s : State) (r : Rule) (n : Nat) : Prop :=
  s.input ≠ [] ∧ munch inTable (rules s.start) s.input = some (some (r, n))

/-- A command token is about to select this signal. -/
def State.Selects (s : State) (f : Signal) : Prop :=
  ∃ n, s.Fires (.event f) n ∨ (s.Fires .command n ∧ f = .unknown)

/-- `IRC_ADD_PARAM` writes inside the array, and the length fits. -/
def ParamsSafe (cb : Callbacks) (g : Bool) (line : Bytes) : Prop :=
  ∀ s, Steps cb (begin g line) s → s.message.params.length.toNat ≤ 14 ∧
    ∀ n, s.Fires .middle n → s.message.params.length.toNat < 14

theorem State.Fires.token {s : State} {r : Rule} {n : Nat} (h : s.Fires r n) :
    Token s.start r (s.input.take n) (s.input.drop n) := by
  obtain ⟨ne, hm⟩ := h
  obtain ⟨b, v, e⟩ := List.exists_cons_of_ne_nil ne
  rw [e] at hm ⊢
  exact munch_token hm

theorem State.Fires.step {s : State} {r : Rule} {n : Nat} (h : s.Fires r n) (cb : Callbacks) :
    step cb s = action cb { s with input := s.input.drop n } (s.input.take n) r := by
  obtain ⟨ne, hm⟩ := h
  obtain ⟨b, v, e⟩ := List.exists_cons_of_ne_nil ne
  rw [e] at hm
  simp only [CqIrc.step, e, hm]

theorem fires_of_token {s : State} {r : Rule} {w v : Bytes} (token : Token s.start r w v)
    (hi : s.input = w ++ v) (hc : ∀ b ∈ s.input, inTable b = true) : s.Fires r w.length :=
  ⟨by simp [hi, token.ne_nil], munch_of_isMunch hc (hi ▸ token.isMunch)⟩

theorem Reaches.room {cb : Callbacks} {g : Bool} {line w v : Bytes} {t : Target} {m : Message}
    {al : List Bytes} (h : Reaches cb g (Scan.begin line) ⟨.param t, w ++ v, m, al⟩)
    (hw : w ∈ middle.language) : m.params.length.toNat < middleCount line := by
  have total := h.total
  simp only [Scan.total, Phase.mode] at total
  rw [walk_middle hw] at total
  have count := congrArg Prod.fst total
  simp only at count
  rw [middleCount, ← count]
  omega

theorem Reaches.length_le {cb : Callbacks} {g : Bool} {line : Bytes} {s : Scan}
    (h : Reaches cb g (Scan.begin line) s) :
    s.message.params.length.toNat ≤ middleCount line := by
  rw [middleCount, ← h.total]
  exact Nat.le_add_right _ _

theorem Token.of_middle {c : StartCondition} {w v : Bytes} (h : Token c .middle w v) :
    c = .param ∧ w ∈ CqIrc.middle.language := by
  generalize hr : Rule.middle = r at h
  cases h with
  | middle hw _ => exact ⟨rfl, hw⟩
  | word =>
    unfold wordRule at hr
    split at hr <;> cases hr
  | _ => cases hr

theorem phase_param {p : Phase} {g : Bool} (h : p.start g = .param) : ∃ t, p = .param t := by
  cases p with
  | param t => exact ⟨t, rfl⟩
  | params t => cases t <;> cases h
  | head => cases g <;> cases h
  | _ => cases h

theorem paramsSafe_of_middleCount {line : Bytes} (h : middleCount line ≤ 14) (cb : Callbacks)
    (g : Bool) : ParamsSafe cb g line := by
  intro s hs
  obtain ⟨⟨p, input, m, al⟩, rfl, reach⟩ := reaches_of_begin hs
  refine ⟨reach.length_le.trans h, fun n fires => ?_⟩
  obtain ⟨hc, hw⟩ := fires.token.of_middle
  obtain ⟨t, rfl⟩ := phase_param hc
  change input.take n ∈ middle.language at hw
  rw [← List.take_append_drop n input] at reach
  exact lt_of_lt_of_le (reach.room hw) h

theorem middleCount_le_of_paramsSafe {cb : Callbacks} (hcb : ∀ f, cb.has f = true) {g : Bool}
    {line : Bytes} (hc : ∀ b ∈ line, inTable b = true) (h : ParamsSafe cb g line) :
    middleCount line ≤ 14 := by
  obtain ⟨r, -, runs⟩ := yylex_runs cb g line
  obtain ⟨s, reach, last⟩ := runs.last
  obtain ⟨bound, fires⟩ := h _ (begin_state g line ▸ reach.steps hc)
  have count : s.message.params.length.toNat + (walk s.phase.mode s.input).1 = middleCount line :=
    congrArg Prod.fst reach.total
  rcases last with ⟨e, -, ht⟩ | ⟨f, -, ht⟩
  · cases ht with
    | eof => exact count ▸ bound
    | missing _ hf => simp [hcb] at hf
    | crlf hw =>
      simp only [Phase.mode] at count
      rw [walk_crlf hw] at count
      exact count ▸ bound
  · have columns := reach.columns hc
    cases ht with
    | outOfTable _ hm => exact absurd hm (munchFrom_ne_none columns _ 0 none)
    | overflow hw stop full =>
      have lt := fires _ (fires_of_token (.middle hw stop) rfl columns)
      rw [← Params.add_isSome, Scan.state, full] at lt
      simp at lt

def fifteen : Bytes :=
  ascii ['P', 'I', 'N', 'G', ' ', '1', ' ', '2', ' ', '3', ' ', '4', ' ', '5', ' ', '6', ' ', '7',
    ' ', '8', ' ', '9', ' ', 'a', ' ', 'b', ' ', 'c', ' ', 'd', ' ', 'e', ' ', 'f', '\r', '\n']

/-- The fifteenth parameter is written behind the array, over the length itself. -/
theorem not_paramsSafe_fifteen : ¬ ParamsSafe .full false fifteen := fun h =>
  absurd (middleCount_le_of_paramsSafe Callbacks.full_has (List.all_eq_true.mp (by decide)) h)
    (by decide)

def pingLine : Bytes := ascii ['P', 'I', 'N', 'G', ' ', 'a', '\r', '\n']

/-- A run writes inside the array whenever the line has at most fourteen middles; on
lines of seven-bit bytes no other line is safe for every table. -/
theorem paramsSafe_iff_middleCount (line : Bytes) :
    (middleCount line ≤ 14 → ∀ cb g, ParamsSafe cb g line) ∧
      ((∀ b ∈ line, inTable b = true) → (∀ cb g, ParamsSafe cb g line) →
        middleCount line ≤ 14) :=
  ⟨fun h cb g => paramsSafe_of_middleCount h cb g,
    fun hc h => middleCount_le_of_paramsSafe Callbacks.full_has hc (h .full false)⟩

def fourteen : Bytes := fifteen.take 32 ++ [cr, lf]

theorem paramsSafe_fourteen :
    middleCount fourteen = 14 ∧ ParamsSafe .full false fourteen ∧ ParamsSafe .full true fourteen :=
  have safe := (paramsSafe_iff_middleCount fourteen).1 (by decide) .full
  ⟨by decide, safe false, safe true⟩

/-- `:n!{user}@{host} FOO a :t`, which fills every field of the message. -/
def filled : Bytes :=
  ascii [':', 'n', '!', '{', 'u', 's', 'e', 'r', '}', '@', '{', 'h', 'o', 's', 't', '}', ' ', 'F',
    'O', 'O', ' ', 'a', ' ', ':', 't', '\r', '\n']

end CqIrc
