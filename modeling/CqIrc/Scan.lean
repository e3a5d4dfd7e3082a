import CqIrc.LexerSteps

/-! The scanner without its stack. A phase names the part of the line being read and,
once a command word has been seen, what will be called; stack, start condition and
the function pointers of `yylex` are functions of it. `Turn` gives the transitions
on this view, and the lexer refines them in both modes. -/

namespace CqIrc
open Flex Flex.Pattern

/-- What a command word selects: a signal of its own, or `signal_unknown` with a copy
of the word. -/
inductive Target where
  | event (f : Signal)
  | extra (word : Bytes)
  deriving DecidableEq, Repr

inductive Phase where
  | head
  | pfx
  | prefixOpt
  | params (t : Target)
  | param (t : Target)
  | trailing (t : Target)
  deriving DecidableEq, Repr

def target (g : Bool) (w : Bytes) : Target :=
  if g = true ∨ commandSignal w = .unknown then .extra w else .event (commandSignal w)

namespace Target

def signal : Target → Signal
  | event f => f
  | extra _ => .unknown

def word? : Target → Option Bytes
  | event _ => none
  | extra w => some w

def invocation (t : Target) (m : Message) : Invocation := ⟨t.signal, t.word?, m⟩

def paramsStart : Target → StartCondition
  | event _ => .params
  | extra _ => .genericParams

end Target

namespace Phase

def home (g : Bool) : StartCondition := if g then .genericInitial else .initial

def homeStack (g : Bool) : List StartCondition := if g then [.initial] else []

def start (g : Bool) : Phase → StartCondition
  | head => home g
  | pfx => .pfx
  | prefixOpt => .prefixOpt
  | params t => t.paramsStart
  | param _ => .param
  | trailing _ => .trailing

def stack (g : Bool) : Phase → List StartCondition
  | head => homeStack g
  | pfx => home g :: homeStack g
  | prefixOpt => .pfx :: home g :: homeStack g
  | params _ => home g :: homeStack g
  | param t => t.paramsStart :: home g :: homeStack g
  | trailing t => .param :: t.paramsStart :: home g :: homeStack g

def target? : Phase → Option Target
  | params t | param t | trailing t => some t
  | _ => none

def eventSignal (p : Phase) : Option Signal :=
  match p.target? with
  | some (.event f) => some f
  | _ => none

def extraEventSignal (p : Phase) : Option Signal :=
  match p.target? with
  | some (.extra _) => some .unknown
  | _ => none

def command (p : Phase) : Option Bytes := p.target?.bind Target.word?

end Phase

structure Scan where
  phase : Phase
  input : Bytes
  message : Message
  allocated : List Bytes

def Scan.state (g : Bool) (s : Scan) : State :=
  ⟨s.phase.start g, s.phase.stack g, s.input, s.phase.eventSignal, s.phase.extraEventSignal,
    s.phase.command, s.message, s.allocated, []⟩

def Scan.begin (line : Bytes) : Scan := ⟨.head, line, .zero, []⟩

namespace Message

def withSource (m : Message) (w : Bytes) : Message :=
  { m with pfx := { m.pfx with source := some w } }

def withUser (m : Message) (w : Bytes) : Message :=
  { m with pfx := { m.pfx with user := some w } }

def withHost (m : Message) (w : Bytes) : Message :=
  { m with pfx := { m.pfx with host := some w } }

def withParams (m : Message) (ps : Params) : Message := { m with params := ps }

def withTrailing (m : Message) (w : Bytes) : Message := { m with trailing := some w }

end Message

/-- The bytes for which a phase has no rule; the default rule drops them. -/
inductive Skip : Phase → Byte → Bytes → Prop where
  | head {b v} : b ≠ colon → (∀ w u, b :: v = w ++ u → ¬ CommandWord w u) → Skip .head b v
  | pfx {b v} : alnum b = false → special b = false → Skip .pfx b v
  | prefixOpt {b v} : b ≠ sp → ¬ quotedUser <+: b :: v → ¬ quotedHost <+: b :: v →
      Skip .prefixOpt b v
  | params {t b v} : b ≠ sp → (∀ w u, b :: v = w ++ u → w ∉ crlf.language) →
      Skip (.params t) b v
  | param {t b v} : b ≠ colon → middleStart b = false → Skip (.param t) b v
  | trailing {t b v} : trailingChar b = false → Skip (.trailing t) b v

inductive Result where
  | next (s : Scan)
  | ret (e : Exit)
  | fault (f : Fault)

def Result.outcome (g : Bool) : Result → Outcome
  | next s => .next (s.state g)
  | ret e => .ret e
  | fault f => .fault f

/-- One turn of the scanner. Where a lookup leaves the table the run ends. -/
inductive Turn (cb : Callbacks) (g : Bool) : Scan → Result → Prop where
  | eof {p m al} :
      Turn cb g ⟨p, [], m, al⟩ (.ret ⟨-2, [], [], al, destroyMessage m ++ [p.command]⟩)
  | outOfTable {s} : s.input ≠ [] → munch inTable (rules (s.phase.start g)) s.input = none →
      Turn cb g s (.fault .outOfTable)
  | skip {p b v m al} : inTable b = true → Skip p b v →
      Turn cb g ⟨p, b :: v, m, al⟩ (.next ⟨p, v, m, al⟩)
  | enterPrefix {v m al} : Turn cb g ⟨.head, colon :: v, m, al⟩ (.next ⟨.pfx, v, m, al⟩)
  | word {w v m al} : CommandWord w v → cb.has (target g w).signal = true →
      Turn cb g ⟨.head, w ++ v, m, al⟩
        (.next ⟨.params (target g w), v, m, al ++ (target g w).word?.toList⟩)
  | missing {w v m al} : CommandWord w v → cb.has (target g w).signal = false →
      Turn cb g ⟨.head, w ++ v, m, al⟩
        (.ret ⟨1, [], v, al ++ (target g w).word?.toList,
          destroyMessage m ++ (target g w).word?.toList.map some⟩)
  | source {w v m al} : w ∈ source.language →
      (∀ x y, v = x ++ y → x ≠ [] → w ++ x ∉ source.language) →
      Turn cb g ⟨.pfx, w ++ v, m, al⟩ (.next ⟨.prefixOpt, v, m.withSource w, al ++ [w]⟩)
  | user {v m al} : Turn cb g ⟨.prefixOpt, quotedUser ++ v, m, al⟩
      (.next ⟨.prefixOpt, v, m.withUser quotedUser.tail, al ++ [quotedUser.tail]⟩)
  | host {v m al} : Turn cb g ⟨.prefixOpt, quotedHost ++ v, m, al⟩
      (.next ⟨.prefixOpt, v, m.withHost quotedHost.tail, al ++ [quotedHost.tail]⟩)
  | leavePrefix {v m al} : Turn cb g ⟨.prefixOpt, sp :: v, m, al⟩ (.next ⟨.head, v, m, al⟩)
  | space {t v m al} : Turn cb g ⟨.params t, sp :: v, m, al⟩ (.next ⟨.param t, v, m, al⟩)
  | crlf {t w v m al} : w ∈ crlf.language →
      Turn cb g ⟨.params t, w ++ v, m, al⟩
        (.ret ⟨0, [t.invocation m], v, al, destroyMessage m ++ t.word?.toList.map some⟩)
  | colon {t v m al} : Turn cb g ⟨.param t, colon :: v, m, al⟩ (.next ⟨.trailing t, v, m, al⟩)
  | middle {t w v m al ps} : w ∈ middle.language → Stops middleChar v →
      m.params.add w = some ps →
      Turn cb g ⟨.param t, w ++ v, m, al⟩ (.next ⟨.params t, v, m.withParams ps, al ++ [w]⟩)
  | overflow {t w v m al} : w ∈ middle.language → Stops middleChar v →
      m.params.add w = none → Turn cb g ⟨.param t, w ++ v, m, al⟩ (.fault .paramOverflow)
  | trailing {t w v m al} : w ≠ [] → (∀ b ∈ w, trailingChar b = true) →
      Stops trailingChar v →
      Turn cb g ⟨.trailing t, w ++ v, m, al⟩ (.next ⟨.params t, v, m.withTrailing w, al ++ [w]⟩)

/-! No token holds a NUL, so `strndup` copies it whole. -/

theorem strndup_letters {p : Byte → Bool} {w : Bytes} (hn : p nul = false)
    (h : ∀ b ∈ w, p b = true) : strndup w = w := by
  refine strndup_eq fun b hb e => ?_
  simp [← e, h b hb] at hn

theorem strndup_command {w v : Bytes} (h : CommandWord w v) : strndup w = w := by
  cases h with
  | letters _ hw _ => exact strndup_letters (by decide) hw
  | digits _ hw => exact strndup_letters (by decide) hw

theorem strndup_source {w : Bytes} (h : w ∈ source.language) : strndup w = w := by
  rcases mem_alt.mp h with h | h
  · obtain ⟨b, t, rfl, hb, ht⟩ := mem_nickname.mp h
    refine strndup_letters (p := nicknameChar) (by decide) (List.forall_mem_cons.mpr ⟨?_, ht⟩)
    grind [nicknameStart, nicknameChar, alnum]
  · exact strndup_letters (p := servernameChar) (by decide) (mem_servername h).2

theorem middleChar_of_start {b : Byte} (h : middleStart b = true) : middleChar b = true := by
  have h := negated_iff.mp h
  refine negated_iff.mpr ⟨h.1, fun hb => h.2 ?_⟩
  revert hb
  simp +contextual [ascii]
  grind

theorem middle_chars {w : Bytes} (h : w ∈ middle.language) : ∀ b ∈ w, middleChar b = true := by
  obtain ⟨b, t, rfl, hb, ht⟩ := mem_middle.mp h
  exact List.forall_mem_cons.mpr ⟨middleChar_of_start hb, ht⟩

theorem middle_inTable {w : Bytes} (h : w ∈ middle.language) : ∀ b ∈ w, inTable b = true :=
  fun b hb => inTable_of_negated (middle_chars h b hb)

theorem strndup_middle {w : Bytes} (h : w ∈ middle.language) : strndup w = w :=
  strndup_letters (p := middleChar) (by decide) (middle_chars h)

theorem target_of_known {w : Bytes} (h : commandSignal w ≠ .unknown) :
    target false w = .event (commandSignal w) := by
  simp [target, h]

theorem target_of_unknown {g : Bool} {w : Bytes} (h : g = true ∨ commandSignal w = .unknown) :
    target g w = .extra w := by
  rw [target, if_pos h]

/-- The rule that reads a command word in either mode. -/
def headRule (g : Bool) (w : Bytes) : Rule := if g then .command else wordRule w

theorem headRule_of_unknown {g : Bool} {w : Bytes} (h : g = true ∨ commandSignal w = .unknown) :
    headRule g w = .command := by
  rcases h with rfl | hu
  · rfl
  · simp [headRule, wordRule, hu]

theorem headRule_of_known {w : Bytes} (h : commandSignal w ≠ .unknown) :
    headRule false w = .event (commandSignal w) := by
  simp [headRule, wordRule, h]

section actions
variable {cb : Callbacks} {g : Bool} {t : Target} {w v : Bytes} {m : Message} {al : List Bytes}

theorem action_word (h : CommandWord w v) (hf : cb.has (target g w).signal = true) :
    action cb (Scan.state g ⟨.head, v, m, al⟩) w (headRule g w) =
      .next (Scan.state g ⟨.params (target g w), v, m, al ++ (target g w).word?.toList⟩) := by
  by_cases known : g = true ∨ commandSignal w = .unknown
  · rw [target_of_unknown known] at hf ⊢
    rw [headRule_of_unknown known]
    change cb.has .unknown = true at hf
    simp only [action, eventTestExtra, State.dup, strndup_command h, hf, if_true]
    rfl
  · obtain ⟨hg, hu⟩ := not_or.mp known
    obtain rfl : g = false := by simpa using hg
    rw [target_of_known hu] at hf ⊢
    rw [headRule_of_known hu]
    change cb.has (commandSignal w) = true at hf
    simp only [action, eventTest, hf, if_true, Target.word?, Option.toList_none, List.append_nil]
    rfl

theorem action_missing (h : CommandWord w v) (hf : cb.has (target g w).signal = false) :
    action cb (Scan.state g ⟨.head, v, m, al⟩) w (headRule g w) =
      .ret ⟨1, [], v, al ++ (target g w).word?.toList,
        destroyMessage m ++ (target g w).word?.toList.map some⟩ := by
  by_cases known : g = true ∨ commandSignal w = .unknown
  · rw [target_of_unknown known] at hf ⊢
    rw [headRule_of_unknown known]
    change cb.has .unknown = false at hf
    simp only [action, eventTestExtra, State.dup, strndup_command h, hf]
    rfl
  · obtain ⟨hg, hu⟩ := not_or.mp known
    obtain rfl : g = false := by simpa using hg
    rw [target_of_known hu] at hf ⊢
    rw [headRule_of_known hu]
    change cb.has (commandSignal w) = false at hf
    simp only [action, eventTest, hf, Target.word?, Option.toList_none, List.append_nil,
      List.map_nil]
    rfl

def crlfRule : Target → Rule
  | .event _ => .crlf
  | .extra _ => .genericCrlf

theorem action_crlf :
    action cb (Scan.state g ⟨.params t, v, m, al⟩) w (crlfRule t) =
      .ret ⟨0, [t.invocation m], v, al, destroyMessage m ++ t.word?.toList.map some⟩ := by
  cases t with
  | event f =>
    change Outcome.ret ⟨0, _, v, al, destroyMessage m⟩ = _
    simp only [Target.word?, Option.toList_none, List.map_nil, List.append_nil]
    rfl
  | extra x => rfl

theorem action_middle {ps : Params} (h : w ∈ middle.language) (hp : m.params.add w = some ps) :
    action cb (Scan.state g ⟨.param t, v, m, al⟩) w .middle =
      .next (Scan.state g ⟨.params t, v, m.withParams ps, al ++ [w]⟩) := by
  change addParam w (Scan.state g ⟨.params t, v, m, al⟩) = _
  simp only [addParam, State.dup, strndup_middle h, Scan.state, hp]
  rfl

theorem action_overflow (h : w ∈ middle.language) (hp : m.params.add w = none) :
    action cb (Scan.state g ⟨.param t, v, m, al⟩) w .middle = .fault .paramOverflow := by
  change addParam w (Scan.state g ⟨.params t, v, m, al⟩) = _
  simp only [addParam, strndup_middle h, Scan.state, hp]

theorem action_source (h : w ∈ source.language) :
    action cb (Scan.state g ⟨.pfx, v, m, al⟩) w .source =
      .next (Scan.state g ⟨.prefixOpt, v, m.withSource w, al ++ [w]⟩) := by
  simp only [action, State.dup, strndup_source h]
  rfl

theorem action_trailing (h : ∀ b ∈ w, trailingChar b = true) :
    action cb (Scan.state g ⟨.trailing t, v, m, al⟩) w .trailing =
      .next (Scan.state g ⟨.params t, v, m.withTrailing w, al ++ [w]⟩) := by
  have copy : strndup w = w := strndup_letters (by decide) h
  simp only [action, State.dup, copy]
  rfl

end actions

theorem turn_of_token {cb : Callbacks} {g : Bool} {p : Phase} {w v : Bytes} (m : Message)
    (al : List Bytes) {r : Rule} (token : Token (p.start g) r w v)
    (hw : ∀ b ∈ w, inTable b = true) :
    ∃ res, Turn cb g ⟨p, w ++ v, m, al⟩ res ∧
      action cb (Scan.state g ⟨p, v, m, al⟩) w r = res.outcome g := by
  have word (h : CommandWord w v) : ∃ res, Turn cb g ⟨.head, w ++ v, m, al⟩ res ∧
      action cb (Scan.state g ⟨.head, v, m, al⟩) w (headRule g w) = res.outcome g := by
    by_cases hf : cb.has (target g w).signal = true
    · exact ⟨_, .word h hf, action_word h hf⟩
    · have hf : cb.has (target g w).signal = false := by simpa using hf
      exact ⟨_, .missing h hf, action_missing h hf⟩
  cases p with
  | head =>
    cases g with
    | false =>
      change Token .initial r w v at token
      cases token with
      | enterPrefix => exact ⟨_, .enterPrefix, rfl⟩
      | word h => exact word h
      | skipInitial hb hc h => exact ⟨_, .skip hb (.head hc h), rfl⟩
    | true =>
      change Token .genericInitial r w v at token
      cases token with
      | genericEnterPrefix => exact ⟨_, .enterPrefix, rfl⟩
      | genericWord h => exact word h
      | genericSkip hb hc h => exact ⟨_, .skip hb (.head hc h), rfl⟩
  | pfx =>
    change Token .pfx r w v at token
    cases token with
    | source h longest => exact ⟨_, .source h longest, action_source h⟩
    | skipPrefix hb ha hs => exact ⟨_, .skip hb (.pfx ha hs), rfl⟩
  | prefixOpt =>
    change Token .prefixOpt r w v at token
    cases token with
    | user => exact ⟨_, .user, rfl⟩
    | host => exact ⟨_, .host, rfl⟩
    | leavePrefix => exact ⟨_, .leavePrefix, rfl⟩
    | skipPrefixOpt hb hs hu hh => exact ⟨_, .skip hb (.prefixOpt hs hu hh), rfl⟩
  | params t =>
    cases t with
    | event f =>
      change Token .params r w v at token
      cases token with
      | space => exact ⟨_, .space, rfl⟩
      | crlf h => exact ⟨_, .crlf h, action_crlf⟩
      | skipParams hb hs h => exact ⟨_, .skip hb (.params hs h), rfl⟩
    | extra x =>
      change Token .genericParams r w v at token
      cases token with
      | genericSpace => exact ⟨_, .space, rfl⟩
      | genericCrlf h => exact ⟨_, .crlf h, action_crlf⟩
      | genericSkipParams hb hs h => exact ⟨_, .skip hb (.params hs h), rfl⟩
  | param t =>
    change Token .param r w v at token
    cases token with
    | colon => exact ⟨_, .colon, rfl⟩
    | middle h stop =>
      cases hp : m.params.add w with
      | none => exact ⟨_, .overflow h stop hp, action_overflow h hp⟩
      | some ps => exact ⟨_, .middle h stop hp, action_middle h hp⟩
    | skipParam hb hc hs => exact ⟨_, .skip hb (.param hc hs), rfl⟩
  | trailing t =>
    change Token .trailing r w v at token
    cases token with
    | trailing ne h stop => exact ⟨_, .trailing ne h stop, action_trailing h⟩
    | skipTrailing hb ht => exact ⟨_, .skip hb (.trailing ht), rfl⟩

/-- The lexer refines the view: each of its turns is a turn of the view. -/
theorem step_turn (cb : Callbacks) (g : Bool) (s : Scan) :
    ∃ res, Turn cb g s res ∧ step cb (s.state g) = res.outcome g := by
  obtain ⟨p, input, m, al⟩ := s
  rcases step_cases cb (Scan.state g ⟨p, input, m, al⟩) with
    ⟨hi, hs⟩ | ⟨ne, hm, hs⟩ | ⟨r, w, v, hi, hw, token, hs⟩
  · obtain rfl : input = [] := hi
    exact ⟨_, .eof, hs⟩
  · exact ⟨_, .outOfTable ne hm, hs⟩
  · obtain rfl : input = w ++ v := hi
    obtain ⟨res, ht, ha⟩ := turn_of_token m al token hw
    exact ⟨res, ht, hs.trans ha⟩

/-- On seven-bit input the view has no further turns: the lexer takes each of them. -/
theorem Turn.step {cb : Callbacks} {g : Bool} {s : Scan} {res : Result} (h : Turn cb g s res)
    (hc : ∀ b ∈ s.input, inTable b = true) : step cb (s.state g) = res.outcome g := by
  have by_token {p : Phase} {w v : Bytes} {m : Message} {al : List Bytes} {r : Rule}
      (token : Token (p.start g) r w v) (hc : ∀ b ∈ w ++ v, inTable b = true) :
      CqIrc.step cb (Scan.state g ⟨p, w ++ v, m, al⟩) =
        action cb (Scan.state g ⟨p, v, m, al⟩) w r := step_of_token token rfl hc
  cases h with
  | eof => rfl
  | outOfTable _ hm => exact absurd hm (munchFrom_ne_none hc _ 0 none)
  | @skip p b v m al hb hs =>
    have token : Token (p.start g) .echo [b] v := by
      cases hs with
      | head hn h => cases g with
        | false => exact .skipInitial hb hn h
        | true => exact .genericSkip hb hn h
      | pfx ha hs => exact .skipPrefix hb ha hs
      | prefixOpt hs hu hh => exact .skipPrefixOpt hb hs hu hh
      | @params t _ _ hs h => cases t with
        | event f => exact .skipParams hb hs h
        | extra x => exact .genericSkipParams hb hs h
      | param hn hs => exact .skipParam hb hn hs
      | trailing ht => exact .skipTrailing hb ht
    exact by_token token hc
  | enterPrefix => cases g with
    | false => exact by_token (w := [CqIrc.colon]) (p := .head) .enterPrefix hc
    | true => exact by_token (w := [CqIrc.colon]) (p := .head) .genericEnterPrefix hc
  | @word w v _ _ h hf =>
    have token : Token (Phase.start g .head) (headRule g w) w v := by
      cases g with
      | false => exact .word h
      | true => exact .genericWord h
    exact (by_token token hc).trans (action_word h hf)
  | @missing w v _ _ h hf =>
    have token : Token (Phase.start g .head) (headRule g w) w v := by
      cases g with
      | false => exact .word h
      | true => exact .genericWord h
    exact (by_token token hc).trans (action_missing h hf)
  | source h longest => exact (by_token (p := .pfx) (.source h longest) hc).trans (action_source h)
  | user => exact by_token (p := .prefixOpt) .user hc
  | host => exact by_token (p := .prefixOpt) .host hc
  | leavePrefix => exact by_token (w := [sp]) (p := .prefixOpt) .leavePrefix hc
  | @space t => cases t with
    | event f => exact by_token (w := [sp]) (p := .params (.event f)) .space hc
    | extra x => exact by_token (w := [sp]) (p := .params (.extra x)) .genericSpace hc
  | @crlf t w v _ _ h =>
    have token : Token (Phase.start g (.params t)) (crlfRule t) w v := by
      cases t with
      | event f => exact .crlf h
      | extra x => exact .genericCrlf h
    exact (by_token token hc).trans action_crlf
  | @colon t => exact by_token (w := [CqIrc.colon]) (p := .param t) .colon hc
  | @middle t _ _ _ _ _ h stop hp =>
    exact (by_token (p := .param t) (.middle h stop) hc).trans (action_middle h hp)
  | @overflow t _ _ _ _ h stop hp =>
    exact (by_token (p := .param t) (.middle h stop) hc).trans (action_overflow h hp)
  | @trailing t _ _ _ _ ne h stop =>
    exact (by_token (p := .trailing t) (.trailing ne h stop) hc).trans (action_trailing h)

end CqIrc
