import CqIrc.Flex.Alike
import CqIrc.ScanRuns

/-! The generic start conditions read a line as the others do. They have fewer rules,
but a keyword is also a command word, so at every text the generic rule set selects
the renamed rule of the other one, and the two scanners take the same steps, also where
they leave their tables. -/

namespace CqIrc
open Flex Flex.Pattern

def StartCondition.generic : StartCondition → StartCondition
  | initial => .genericInitial
  | params => .genericParams
  | c => c

def Rule.generic : Rule → Rule
  | event _ => .command
  | crlf => .genericCrlf
  | r => r

theorem solid_of_letter {p : Byte → Bool} (b : Byte) (h : p b = true) : (cls p).Solid := ⟨b, h⟩

theorem solid_quoted (text : List Char) : (quoted text).Solid := by
  refine solid_word fun p hp => ?_
  obtain ⟨c, -, rfl⟩ := List.mem_map.mp hp
  exact ⟨UInt8.ofNat c.toNat, by simp [chr]⟩

theorem solid_anyCase (text : List Char) : (anyCase text).Solid := by
  refine solid_word fun p hp => ?_
  obtain ⟨b, -, rfl⟩ := List.mem_map.mp hp
  exact ⟨b, by simp⟩

theorem solid_chr (c : Char) : (cls (chr c)).Solid :=
  solid_of_letter (UInt8.ofNat c.toNat) (by simp [chr])

theorem solid_alpha : (cls alpha).Solid := solid_of_letter 0x41 (by decide)
theorem solid_digit : (cls digit).Solid := solid_of_letter 0x30 (by decide)
theorem solid_alnum : (cls alnum).Solid := solid_of_letter 0x41 (by decide)

theorem solid_command : command.Solid := ⟨⟨solid_alpha, solid_alpha⟩, solid_rep solid_digit 3⟩

theorem solid_source : source.Solid := by
  have special : (cls special).Solid := solid_of_letter 0x5B (by decide)
  have short : shortname.Solid := ⟨solid_alnum, ⟨solid_alnum, solid_chr '-'⟩, solid_alnum⟩
  have letters : (star (alt (alt (cls alnum) (cls CqIrc.special)) (cls (chr '-')))).Solid :=
    ⟨⟨solid_alnum, special⟩, solid_chr '-'⟩
  exact ⟨⟨⟨solid_alpha, special⟩, solid_upTo letters 8⟩, short, solid_chr '.', short⟩

theorem solid_crlf : crlf.Solid :=
  ⟨⟨solid_chr '\r', solid_chr '\n'⟩, solid_chr '\n', solid_chr '\r'⟩

theorem solid_middle : middle.Solid :=
  ⟨solid_of_letter 0x41 (by decide), solid_of_letter 0x41 (by decide)⟩

theorem solid_echo : echo.2.Solid := solid_of_letter 0x41 (by decide)

theorem solid_rules (c : StartCondition) : SolidRules (rules c) := by
  cases c with
  | initial =>
    simp only [SolidRules, rules, List.forall_mem_cons]
    exact ⟨solid_quoted _, solid_anyCase _, solid_anyCase _, solid_anyCase _, solid_anyCase _,
      solid_anyCase _, solid_command, solid_echo, by simp⟩
  | genericInitial =>
    simp only [SolidRules, rules, List.forall_mem_cons]
    exact ⟨solid_quoted _, solid_command, solid_echo, by simp⟩
  | pfx =>
    simp only [SolidRules, rules, List.forall_mem_cons]
    exact ⟨solid_source, solid_echo, by simp⟩
  | prefixOpt =>
    simp only [SolidRules, rules, List.forall_mem_cons]
    exact ⟨solid_quoted _, solid_quoted _, solid_quoted _, solid_echo, by simp⟩
  | genericParams | params =>
    simp only [SolidRules, rules, List.forall_mem_cons]
    exact ⟨solid_quoted _, solid_crlf, solid_echo, by simp⟩
  | param =>
    simp only [SolidRules, rules, List.forall_mem_cons]
    exact ⟨solid_quoted _, solid_middle, solid_echo, by simp⟩
  | trailing =>
    simp only [SolidRules, rules, List.forall_mem_cons]
    exact ⟨solid_of_letter 0x41 (by decide), solid_echo, by simp⟩

theorem wordRule_generic (w : Bytes) : (wordRule w).generic = .command := by
  unfold wordRule
  split <;> rfl

/-- The rule selected in the generic start condition is the other one's, renamed. -/
theorem select_generic (c : StartCondition) (w : Bytes) :
    select (rules c.generic) w = (select (rules c) w).map Rule.generic := by
  cases c with
  | initial =>
    change select (rules .genericInitial) w = _
    rw [select_initial, select_genericInitial]
    split_ifs
    · rfl
    · rw [Option.map_some, wordRule_generic]
    · rfl
    · rfl
  | genericInitial =>
    change select (rules .genericInitial) w = _
    rw [select_genericInitial]
    split_ifs <;> rfl
  | pfx =>
    change select (rules .pfx) w = _
    rw [select_pfx]
    split_ifs <;> rfl
  | prefixOpt =>
    change select (rules .prefixOpt) w = _
    rw [select_prefixOpt]
    split_ifs <;> rfl
  | params =>
    change select (rules .genericParams) w = _
    rw [select_params, select_genericParams]
    split_ifs <;> rfl
  | genericParams =>
    change select (rules .genericParams) w = _
    rw [select_genericParams]
    split_ifs <;> rfl
  | param =>
    change select (rules .param) w = _
    rw [select_param]
    split_ifs <;> rfl
  | trailing =>
    change select (rules .trailing) w = _
    rw [select_trailing]
    split_ifs <;> rfl

theorem munch_generic (c : StartCondition) (input : Bytes) :
    munch inTable (rules c.generic) input =
      (munch inTable (rules c) input).map (Option.map (Prod.map Rule.generic id)) :=
  munch_map (solid_rules c) (solid_rules c.generic) (select_generic c) inTable input

inductive SamePhase : Phase → Phase → Prop where
  | head : SamePhase .head .head
  | pfx : SamePhase .pfx .pfx
  | prefixOpt : SamePhase .prefixOpt .prefixOpt
  | params (w) : SamePhase (.params (target false w)) (.params (target true w))
  | param (w) : SamePhase (.param (target false w)) (.param (target true w))
  | trailing (w) : SamePhase (.trailing (target false w)) (.trailing (target true w))

theorem target_generic_start (w : Bytes) :
    (target true w).paramsStart = (target false w).paramsStart.generic := by
  rw [target_of_unknown (.inl rfl)]
  by_cases known : commandSignal w = .unknown
  · rw [target_of_unknown (.inr known)]
    rfl
  · rw [target_of_known known]
    rfl

theorem SamePhase.start {p q : Phase} (h : SamePhase p q) :
    q.start true = (p.start false).generic := by
  cases h with
  | params w => exact target_generic_start w
  | _ => rfl

/-- What is left to read and what has been read are the same in both runs; only the copy
of the command word makes a difference. -/
structure SameView (a b : Scan) : Prop where
  phase : SamePhase a.phase b.phase
  input : b.input = a.input
  message : b.message = a.message

def keyword : Signal → Option (List Char)
  | .welcome => some ['0', '0', '4']
  | .ping => some ['P', 'I', 'N', 'G']
  | .privmsg => some ['P', 'R', 'I', 'V', 'M', 'S', 'G']
  | .notice => some ['N', 'O', 'T', 'I', 'C', 'E']
  | .error => some ['E', 'R', 'R', 'O', 'R']
  | .connect | .unknown | .disconnect => none

/-- `j` reports through `signal_unknown` what `i` reports: the same message, and the
command word of the signal or the one `i` hands over. -/
structure Reported (i j : Invocation) : Prop where
  signal : j.signal = .unknown
  message : j.message = i.message
  command : ∃ w, j.command = some w ∧ ((i.signal = .unknown ∧ i.command = some w) ∨
    ∃ text, keyword i.signal = some text ∧ sameText w text)

structure SameExit (e e' : Exit) : Prop where
  code : e'.code = e.code
  rest : e'.rest = e.rest
  calls : List.Forall₂ Reported e.calls e'.calls

inductive SameOutcome : Outcome → Outcome → Prop where
  | next {a b} : SameView a b → SameOutcome (.next (a.state false)) (.next (b.state true))
  | ret {e e'} : SameExit e e' → SameOutcome (.ret e) (.ret e')
  | fault {f} : SameOutcome (.fault f) (.fault f)

theorem keyword_of_known {w : Bytes} (h : commandSignal w ≠ .unknown) :
    ∃ text, keyword (commandSignal w) = some text ∧ sameText w text := by
  unfold commandSignal at h ⊢
  split_ifs at h ⊢ with h1 h2 h3 h4 h5
  · exact ⟨_, rfl, h1⟩
  · exact ⟨_, rfl, h2⟩
  · exact ⟨_, rfl, h3⟩
  · exact ⟨_, rfl, h4⟩
  · exact ⟨_, rfl, h5⟩
  · exact absurd rfl h

theorem reported_word (w : Bytes) (m : Message) :
    Reported ((target false w).invocation m) ((target true w).invocation m) := by
  rw [target_of_unknown (g := true) (.inl rfl)]
  refine ⟨rfl, rfl, w, rfl, ?_⟩
  by_cases known : commandSignal w = .unknown
  · rw [target_of_unknown (.inr known)]
    exact .inl ⟨rfl, rfl⟩
  · rw [target_of_known known]
    exact .inr (keyword_of_known known)

section steps
variable {cb : Callbacks} {p q : Phase} {m : Message} {al al' : List Bytes} {w v : Bytes}

theorem SamePhase.echo (h : SamePhase p q) :
    SameOutcome (action cb (Scan.state false ⟨p, v, m, al⟩) w .echo)
      (action cb (Scan.state true ⟨q, v, m, al'⟩) w .echo) :=
  .next (a := ⟨p, v, m, al⟩) (b := ⟨q, v, m, al'⟩) ⟨h, rfl, rfl⟩

theorem SamePhase.word (hcb : ∀ f, cb.has f = true) (h : CommandWord w v) :
    SameOutcome (action cb (Scan.state false ⟨.head, v, m, al⟩) w (wordRule w))
      (action cb (Scan.state true ⟨.head, v, m, al'⟩) w .command) := by
  have specific : action cb (Scan.state false ⟨.head, v, m, al⟩) w (wordRule w) = _ :=
    action_word h (hcb (target false w).signal)
  have generic : action cb (Scan.state true ⟨.head, v, m, al'⟩) w .command = _ :=
    action_word h (hcb (target true w).signal)
  rw [specific, generic]
  exact .next ⟨.params w, rfl, rfl⟩

theorem SamePhase.crlf (x : Bytes) :
    SameOutcome (action cb (Scan.state false ⟨.params (target false x), v, m, al⟩) w
        (crlfRule (target false x)))
      (action cb (Scan.state true ⟨.params (target true x), v, m, al'⟩) w .genericCrlf) := by
  have generic : action cb (Scan.state true ⟨.params (target true x), v, m, al'⟩) w
      .genericCrlf = _ := action_crlf
  rw [action_crlf, generic]
  exact .ret ⟨rfl, rfl, .cons (reported_word x m) .nil⟩

theorem SamePhase.middle (x : Bytes) (h : w ∈ middle.language) :
    SameOutcome (action cb (Scan.state false ⟨.param (target false x), v, m, al⟩) w .middle)
      (action cb (Scan.state true ⟨.param (target true x), v, m, al'⟩) w .middle) := by
  cases hp : m.params.add w with
  | none =>
    rw [action_overflow h hp, action_overflow h hp]
    exact .fault
  | some ps =>
    rw [action_middle h hp, action_middle h hp]
    exact .next ⟨.params x, rfl, rfl⟩

/-- Between parameters the two runs have rules of their own for the same three tokens. -/
theorem SamePhase.inParams (x : Bytes) {r : Rule}
    (token : Token (target false x).paramsStart r w v) :
    SameOutcome (action cb (Scan.state false ⟨.params (target false x), v, m, al⟩) w r)
      (action cb (Scan.state true ⟨.params (target true x), v, m, al'⟩) w r.generic) := by
  have space : SameOutcome
      (action cb (Scan.state false ⟨.params (target false x), v, m, al⟩) w .space)
      (action cb (Scan.state true ⟨.params (target true x), v, m, al'⟩) w .space) :=
    .next (a := ⟨.param (target false x), v, m, al⟩) (b := ⟨.param (target true x), v, m, al'⟩)
      ⟨.param x, rfl, rfl⟩
  have crlf : SameOutcome
      (action cb (Scan.state false ⟨.params (target false x), v, m, al⟩) w
        (crlfRule (target false x)))
      (action cb (Scan.state true ⟨.params (target true x), v, m, al'⟩) w .genericCrlf) :=
    SamePhase.crlf x
  have skip : SameOutcome
      (action cb (Scan.state false ⟨.params (target false x), v, m, al⟩) w .echo)
      (action cb (Scan.state true ⟨.params (target true x), v, m, al'⟩) w .echo) :=
    (SamePhase.params x).echo
  cases ht : target false x with
  | event f =>
    rw [ht] at token space crlf skip
    change Token .params r w v at token
    cases token with
    | space => exact space
    | crlf => exact crlf
    | skipParams => exact skip
  | extra y =>
    rw [ht] at token space crlf skip
    change Token .genericParams r w v at token
    cases token with
    | genericSpace => exact space
    | genericCrlf => exact crlf
    | genericSkipParams => exact skip

theorem SamePhase.action (hcb : ∀ f, cb.has f = true) (h : SamePhase p q) {r : Rule}
    (token : Token (p.start false) r w v) :
    SameOutcome (action cb (Scan.state false ⟨p, v, m, al⟩) w r)
      (action cb (Scan.state true ⟨q, v, m, al'⟩) w r.generic) := by
  cases h with
  | head =>
    change Token .initial r w v at token
    cases token with
    | enterPrefix =>
      exact .next (a := ⟨.pfx, v, m, al⟩) (b := ⟨.pfx, v, m, al'⟩) ⟨.pfx, rfl, rfl⟩
    | word hw =>
      rw [wordRule_generic]
      exact SamePhase.word hcb hw
    | skipInitial => exact SamePhase.head.echo
  | pfx =>
    change Token .pfx r w v at token
    cases token with
    | source hw _ =>
      change SameOutcome _ (CqIrc.action cb _ w .source)
      rw [action_source hw, action_source hw]
      exact .next ⟨.prefixOpt, rfl, rfl⟩
    | skipPrefix => exact SamePhase.pfx.echo
  | prefixOpt =>
    change Token .prefixOpt r w v at token
    cases token with
    | user =>
      exact .next (a := ⟨.prefixOpt, v, m.withUser quotedUser.tail, al ++ [quotedUser.tail]⟩)
        (b := ⟨.prefixOpt, v, m.withUser quotedUser.tail, al' ++ [quotedUser.tail]⟩)
        ⟨.prefixOpt, rfl, rfl⟩
    | host =>
      exact .next (a := ⟨.prefixOpt, v, m.withHost quotedHost.tail, al ++ [quotedHost.tail]⟩)
        (b := ⟨.prefixOpt, v, m.withHost quotedHost.tail, al' ++ [quotedHost.tail]⟩)
        ⟨.prefixOpt, rfl, rfl⟩
    | leavePrefix =>
      exact .next (a := ⟨.head, v, m, al⟩) (b := ⟨.head, v, m, al'⟩) ⟨.head, rfl, rfl⟩
    | skipPrefixOpt => exact SamePhase.prefixOpt.echo
  | params x =>
    exact SamePhase.inParams x token
  | param x =>
    change Token .param r w v at token
    cases token with
    | colon =>
      exact .next (a := ⟨.trailing (target false x), v, m, al⟩)
        (b := ⟨.trailing (target true x), v, m, al'⟩) ⟨.trailing x, rfl, rfl⟩
    | middle hw _ => exact SamePhase.middle x hw
    | skipParam => exact (SamePhase.param x).echo
  | trailing x =>
    change Token .trailing r w v at token
    cases token with
    | trailing _ hw _ =>
      change SameOutcome _ (CqIrc.action cb _ w .trailing)
      rw [action_trailing hw, action_trailing hw]
      exact .next ⟨.params x, rfl, rfl⟩
    | skipTrailing => exact (SamePhase.trailing x).echo

theorem SameView.step {a b : Scan} (hcb : ∀ f, cb.has f = true) (h : SameView a b) :
    SameOutcome (step cb (a.state false)) (step cb (b.state true)) := by
  obtain ⟨p, input, m, al⟩ := a
  obtain ⟨q, input', m', al'⟩ := b
  obtain ⟨phase, rfl, rfl⟩ : SamePhase p q ∧ input' = input ∧ m' = m :=
    ⟨h.phase, h.input, h.message⟩
  cases input' with
  | nil => exact .ret ⟨rfl, rfl, .nil⟩
  | cons c u =>
    have rename := munch_generic (p.start false) (c :: u)
    rw [← phase.start] at rename
    simp only [CqIrc.step, Scan.state, rename]
    cases hm : munch inTable (rules (p.start false)) (c :: u) with
    | none => exact .fault
    | some res =>
      cases res with
      | none => exact .fault
      | some hit => exact phase.action hcb (munch_token hm)

end steps

def SameResult : Except Fault Exit → Except Fault Exit → Prop
  | .ok e, .ok e' => SameExit e e'
  | .error f, .error f' => f = f'
  | .ok _, .error _ | .error _, .ok _ => False

theorem SameView.run {cb : Callbacks} (hcb : ∀ f, cb.has f = true) (n : Nat) {a b : Scan}
    (h : SameView a b) {r r' : Except Fault Exit} (hr : run cb n (a.state false) = some r)
    (hr' : run cb n (b.state true) = some r') : SameResult r r' := by
  induction n generalizing a b with
  | zero => cases hr
  | succ n ih =>
    rw [CqIrc.run] at hr hr'
    have outcome := h.step hcb
    generalize CqIrc.step cb (a.state false) = x at outcome hr
    generalize CqIrc.step cb (b.state true) = y at outcome hr'
    cases outcome with
    | next same => exact ih same hr hr'
    | ret same =>
      obtain rfl := Option.some.inj hr
      obtain rfl := Option.some.inj hr'
      exact same
    | fault =>
      obtain rfl := Option.some.inj hr
      obtain rfl := Option.some.inj hr'
      rfl

/-- Generic mode simulates specific mode, on every line: both runs end with the same
return value at the same byte, or break the table's bounds in the same place, and what
the one reports the other reports through `signal_unknown`. -/
theorem generic_simulates (cb : Callbacks) (hcb : ∀ f, cb.has f = true) (line : Bytes) :
    ∃ r r', yylex cb false line = some r ∧ yylex cb true line = some r' ∧ SameResult r r' := by
  obtain ⟨r, hr, -⟩ := yylex_runs cb false line
  obtain ⟨r', hr', -⟩ := yylex_runs cb true line
  refine ⟨r, r', hr, hr', ?_⟩
  have start : SameView (Scan.begin line) (Scan.begin line) := ⟨.head, rfl, rfl⟩
  rw [yylex, begin_state] at hr hr'
  exact start.run hcb _ hr hr'

theorem generic_simulates_ping :
    ∃ r r', yylex .full false (ascii ['p', 'i', 'n', 'g', '\n', '\r']) = some r ∧
      yylex .full true (ascii ['p', 'i', 'n', 'g', '\n', '\r']) = some r' ∧ SameResult r r' :=
  generic_simulates .full Callbacks.full_has _

end CqIrc
