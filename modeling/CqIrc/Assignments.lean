import CqIrc.LineEnds

/-! The strings of a run. Each token that fills a field of the message is copied, and
`destroy_message` frees what the fields hold in the end: a field that is filled twice
leaks its first string. How often a line fills a field is a count over its bytes. -/

namespace CqIrc
open Flex Flex.Pattern

/-- The fields that hold one string each; the rules for them can be reached again. -/
inductive Field where
  | source
  | user
  | host
  | trailing
  deriving DecidableEq, Repr

namespace Message

def field (m : Message) : Field → Option Bytes
  | .source => m.pfx.source
  | .user => m.pfx.user
  | .host => m.pfx.host
  | .trailing => m.trailing

def assign (m : Message) : Field → Bytes → Message
  | .source => m.withSource
  | .user => m.withUser
  | .host => m.withHost
  | .trailing => m.withTrailing

theorem assign_same (m : Message) (f : Field) (w : Bytes) : (m.assign f w).field f = some w := by
  cases f <;> rfl

theorem assign_other (m : Message) {f h : Field} (w : Bytes) (ne : h ≠ f) :
    (m.assign f w).field h = m.field h := by
  cases f <;> cases h <;> first | rfl | exact absurd rfl ne

end Message

def Rule.assigns : Rule → Option Field
  | .source => some .source
  | .user => some .user
  | .host => some .host
  | .trailing => some .trailing
  | .enterPrefix | .event _ | .command | .leavePrefix | .space | .genericCrlf | .crlf | .colon
  | .middle | .echo => none

/-- Every assigning action finds its field NULL, and at an exit the strings that are
freed are the strings that were allocated. -/
def AssignsOnce (cb : Callbacks) (g : Bool) (line : Bytes) : Prop :=
  (∀ s, Steps cb (begin g line) s → ∀ r n, s.Fires r n →
      (∀ f ∈ r.assigns, s.message.field f = none) ∧ (r = .command → s.command = none)) ∧
    ∀ e, yylex cb g line = some (.ok e) → (e.freed.filterMap id).Perm e.allocated

def Field.counts : Field → Mode → Byte → Bytes → Nat
  | source, .pfx, b, _ => if alnum b || special b then 1 else 0
  | user, .prefixOpt, b, v => if quotedUser <+: b :: v then 1 else 0
  | host, .prefixOpt, b, v => if quotedHost <+: b :: v then 1 else 0
  | trailing, .trailing, b, _ => if trailingChar b then 1 else 0
  | _, _, _, _ => 0

def tally (f : Field) : Mode → Bytes → Nat
  | _, [] => 0
  | q, b :: v =>
    match q.next b v with
    | none => 0
    | some q' => f.counts q b v + tally f q' v

/-- The number of tokens of a line that fill this field. -/
def assignments (f : Field) (line : Bytes) : Nat := tally f .initial line

def Field.weight (f : Field) (r : Rule) : Nat := if r.assigns = some f then 1 else 0

section tallies
variable {f : Field} {q p : Mode} {w v : Bytes} {n : Nat}

theorem Field.weight_eq {r : Rule} (fills : r.assigns = some f) (k : Field) :
    k.weight r = if k = f then 1 else 0 := by
  rw [Field.weight, fills]
  exact if_congr (by simp [eq_comm]) rfl rfl

theorem Field.weighs (f : Field) : Weighs f.counts f.weight := by
  constructor
  case user =>
    intro v
    have user : quotedUser <+: UInt8.ofNat '!'.toNat :: (quotedUser.tail ++ v) := ⟨v, rfl⟩
    have host : ¬ quotedHost <+: UInt8.ofNat '!'.toNat :: (quotedUser.tail ++ v) :=
      fun h => absurd (List.cons_prefix_cons.mp h).1 (by decide)
    cases f with
    | user => exact (if_pos user : (if _ then 1 else 0) = 1)
    | host => exact (if_neg host : (if _ then 1 else 0) = 0)
    | source | trailing => rfl
  case host =>
    intro v
    have user : ¬ quotedUser <+: UInt8.ofNat '@'.toNat :: (quotedHost.tail ++ v) :=
      fun h => absurd (List.cons_prefix_cons.mp h).1 (by decide)
    have host : quotedHost <+: UInt8.ofNat '@'.toNat :: (quotedHost.tail ++ v) := ⟨v, rfl⟩
    cases f with
    | user => exact (if_neg user : (if _ then 1 else 0) = 0)
    | host => exact (if_pos host : (if _ then 1 else 0) = 1)
    | source | trailing => rfl
  case unquoted =>
    intro b v hu hh
    cases f <;> simp [Field.counts, hu, hh]
  all_goals
    intro b v
    cases f <;> simp [Field.counts, Field.weight, Rule.assigns]

theorem tally_some {b : Byte} (h : q.next b v = some p) :
    tally f q (b :: v) = f.counts q b v + tally f p v := by
  rw [tally, h]

theorem tally_text (h : Stops trailingChar v) : tally f .text v = tally f .params v := by
  cases v with
  | nil => rfl
  | cons b v => rw [tally, tally, next_text h, f.weighs.text, f.weighs.params]

theorem tally_path (h : Path f.counts q w v p n) : tally f q (w ++ v) = n + tally f p v := by
  induction h with
  | refl => exact (Nat.zero_add _).symm
  | step next _ ih => rw [List.cons_append, tally_some next, ih, Nat.add_assoc]
  | close stop _ ih => rw [tally_text stop, ih]

theorem tally_pass (h : Path f.counts q w v p 0) : tally f q (w ++ v) = tally f p v :=
  (tally_path h).trans (Nat.zero_add _)

theorem tally_crlf (h : w ∈ crlf.language) : tally f .params (w ++ v) = 0 := by
  rcases mem_crlf.mp h with rfl | rfl <;> rfl

end tallies

def StartCondition.mode : StartCondition → Mode
  | initial | genericInitial => .initial
  | pfx => .pfx
  | prefixOpt => .prefixOpt
  | genericParams | params => .params
  | param => .param
  | trailing => .trailing

theorem Phase.mode_start (p : Phase) (g : Bool) : (p.start g).mode = p.mode := by
  cases p with
  | head => cases g <;> rfl
  | params t => cases t <;> rfl
  | _ => rfl

theorem Token.tally {c : StartCondition} {r : Rule} {w v : Bytes} {f : Field}
    (token : Token c r w v) (fills : r.assigns = some f) : 1 ≤ tally f c.mode (w ++ v) := by
  obtain ⟨p, path⟩ : ∃ p, Path f.counts c.mode w v p (f.weight r) := by
    cases token with
    | source hw _ => exact ⟨_, f.weighs.path_source hw⟩
    | user => exact ⟨_, f.weighs.path_user⟩
    | host => exact ⟨_, f.weighs.path_host⟩
    | trailing ne hw stop => exact ⟨_, f.weighs.path_trailing ne hw stop⟩
    | word =>
      unfold wordRule at fills
      split at fills <;> cases fills
    | _ => cases fills
  rw [tally_path path, Field.weight_eq fills, if_pos rfl]
  exact Nat.le_add_right _ _

namespace Scan

def tally (s : Scan) (f : Field) : Nat := CqIrc.tally f s.phase.mode s.input

def uses (s : Scan) (f : Field) : Nat := (s.message.field f).toList.length + s.tally f

def held (s : Scan) : List Bytes := (destroyMessage s.message ++ [s.phase.command]).filterMap id

end Scan

structure Fills (g : Bool) (s s' : Scan) (f : Field) (r : Rule) (x w : Bytes) : Prop where
  rule : r.assigns = some f
  token : Token (s.phase.start g) r x s'.input
  input : s.input = x ++ s'.input
  message : s'.message = s.message.assign f w
  command : s'.phase.command = s.phase.command
  allocated : s'.allocated = s.allocated ++ [w]
  count : ∀ h, s.tally h = (if h = f then 1 else 0) + s'.tally h

structure Keeps (s s' : Scan) (new : List Bytes) : Prop where
  field : ∀ f, s'.message.field f = s.message.field f
  count : ∀ f, s.tally f = s'.tally f
  allocated : s'.allocated = s.allocated ++ new
  held : s'.held.Perm (s.held ++ new)

theorem Keeps.same {s s' : Scan} (message : s'.message = s.message)
    (command : s'.phase.command = s.phase.command) (allocated : s'.allocated = s.allocated)
    (count : ∀ f, s.tally f = s'.tally f) : Keeps s s' [] := by
  refine ⟨fun f => by rw [message], count, by simpa using allocated, ?_⟩
  rw [Scan.held, Scan.held, message, command, List.append_nil]

theorem held_insert (a b : List (Option Bytes)) (w : Bytes) :
    ((a ++ some w :: b).filterMap id).Perm ((a ++ b).filterMap id ++ [w]) := by
  simp only [List.filterMap_append, List.filterMap_cons, id_eq]
  exact List.perm_middle.trans (List.perm_append_singleton w _).symm

/-- What a turn stores: nothing, a parameter or the command word, or one field. -/
theorem Turn.stores {cb : Callbacks} {g : Bool} {s s' : Scan} (h : Turn cb g s (.next s')) :
    (∃ f r x w, Fills g s s' f r x w) ∨ ∃ new, Keeps s s' new := by
  have weight {f : Field} {r : Rule} {q p : Mode} {w v : Bytes} (fills : r.assigns = some f)
      (path : ∀ k : Field, Path k.counts q w v p (k.weight r)) (k : Field) :
      tally k q (w ++ v) = (if k = f then 1 else 0) + tally k p v := by
    rw [tally_path (path k), Field.weight_eq fills]
  cases h with
  | skip _ hs => exact .inr ⟨[], .same rfl rfl rfl fun f => tally_pass (f.weighs.path_skip hs)⟩
  | enterPrefix =>
    exact .inr ⟨[], .same rfl rfl rfl fun f =>
      tally_pass (.single (q := .initial) rfl (f.weighs.head _ _))⟩
  | @word w v m al hw _ =>
    refine .inr ⟨_, fun f => rfl, fun f => tally_pass (f.weighs.path_word hw), rfl, ?_⟩
    simp only [Scan.held, Phase.command, Phase.target?, Option.bind_none, Option.bind_some,
      List.filterMap_append]
    cases (CqIrc.target g w).word? <;> simp
  | @source w _ _ _ hw longest =>
    exact .inl ⟨.source, _, w, w, rfl, .source hw longest, rfl, rfl, rfl, rfl,
      weight rfl fun k => k.weighs.path_source hw⟩
  | user =>
    exact .inl ⟨.user, _, _, _, rfl, .user, rfl, rfl, rfl, rfl,
      weight rfl fun k => k.weighs.path_user⟩
  | host =>
    exact .inl ⟨.host, _, _, _, rfl, .host, rfl, rfl, rfl, rfl,
      weight rfl fun k => k.weighs.path_host⟩
  | @leavePrefix v =>
    obtain ⟨hu, hh⟩ := not_quoted (b := sp) (by decide) (by decide) v
    exact .inr ⟨[], .same rfl rfl rfl fun f =>
      tally_pass (.single (q := .prefixOpt) rfl (f.weighs.unquoted _ _ hu hh))⟩
  | space =>
    exact .inr ⟨[], .same rfl rfl rfl fun f =>
      tally_pass (.single (q := .params) rfl (f.weighs.params _ _))⟩
  | colon =>
    exact .inr ⟨[], .same rfl rfl rfl fun f =>
      tally_pass (.single (q := .param) rfl (f.weighs.middle _ _))⟩
  | @middle t w v m al ps hw _ hp =>
    refine .inr ⟨[w], fun f => by cases f <;> rfl,
      fun f => tally_pass (f.weighs.path_middle hw), rfl, ?_⟩
    have inserted := held_insert ([m.pfx.host, m.pfx.source, m.pfx.user] ++ m.params.listed)
      [m.trailing, (Phase.params t).command] w
    simp only [Scan.held, Message.withParams, destroyMessage, Params.add_listed hp,
      List.append_assoc, List.cons_append, List.nil_append] at inserted ⊢
    exact inserted
  | @trailing t w _ _ _ ne hw stop =>
    exact .inl ⟨.trailing, _, w, w, rfl, .trailing ne hw stop, rfl, rfl, rfl, rfl,
      weight rfl fun k => k.weighs.path_trailing ne hw stop⟩

theorem destroyMessage_assign {m : Message} {f : Field} (null : m.field f = none) (w : Bytes) :
    ∃ a b, destroyMessage m = a ++ none :: b ∧
      destroyMessage (m.assign f w) = a ++ some w :: b := by
  obtain ⟨⟨host, user, source⟩, params, trailing⟩ := m
  cases f with
  | source =>
    obtain rfl : source = none := null
    exact ⟨[host], user :: (params.listed ++ [trailing]), rfl, rfl⟩
  | user =>
    obtain rfl : user = none := null
    exact ⟨[host, source], params.listed ++ [trailing], rfl, rfl⟩
  | host =>
    obtain rfl : host = none := null
    exact ⟨[], source :: user :: (params.listed ++ [trailing]), rfl, rfl⟩
  | trailing =>
    obtain rfl : trailing = none := null
    exact ⟨[host, source, user] ++ params.listed, [], rfl, rfl⟩

section fields
variable {g : Bool} {s s' : Scan} {f : Field} {r : Rule} {x w : Bytes} {new : List Bytes}

theorem Fills.held (h : Fills g s s' f r x w) (null : s.message.field f = none) :
    s'.held.Perm (s.held ++ [w]) := by
  obtain ⟨a, b, old, assigned⟩ := destroyMessage_assign null w
  have inserted := held_insert a (b ++ [s.phase.command]) w
  simp only [Scan.held, h.message, h.command, old, assigned, List.append_assoc, List.cons_append,
    List.filterMap_append, List.filterMap_cons, id_eq] at inserted ⊢
  exact inserted

theorem Fills.uses (h : Fills g s s' f r x w) (null : s.message.field f = none) (k : Field) :
    s'.uses k = s.uses k := by
  rw [Scan.uses, Scan.uses, h.count k, h.message]
  by_cases same : k = f
  · rw [same, Message.assign_same, null, if_pos rfl]
    simp
  · rw [Message.assign_other _ _ same, if_neg same, Nat.zero_add]

theorem Keeps.uses (h : Keeps s s' new) (k : Field) : s'.uses k = s.uses k := by
  rw [Scan.uses, Scan.uses, h.field, h.count]

theorem null_of_uses (once : s.uses f ≤ 1) (ahead : 1 ≤ s.tally f) : s.message.field f = none := by
  rw [Scan.uses] at once
  exact Option.toList_eq_nil_iff.mp (List.eq_nil_of_length_eq_zero (by omega))

end fields

/-- What is allocated is held, and every field is filled at most once. -/
structure Tidy (s : Scan) : Prop where
  once : ∀ f, s.uses f ≤ 1
  held : s.held.Perm s.allocated

theorem Fills.ahead {g : Bool} {s s' : Scan} {f : Field} {r : Rule} {x w : Bytes}
    (h : Fills g s s' f r x w) : 1 ≤ s.tally f := by
  rw [h.count f, if_pos rfl]
  exact Nat.le_add_right _ _

theorem Turn.tidy {cb : Callbacks} {g : Bool} {s s' : Scan} (h : Turn cb g s (.next s'))
    (tidy : Tidy s) : Tidy s' := by
  rcases h.stores with ⟨f, r, x, w, fills⟩ | ⟨new, keeps⟩
  · have null := null_of_uses (tidy.once f) fills.ahead
    refine ⟨fun k => (fills.uses null k).trans_le (tidy.once k), ?_⟩
    rw [fills.allocated]
    exact (fills.held null).trans (tidy.held.append_right _)
  · refine ⟨fun k => (keeps.uses k).trans_le (tidy.once k), ?_⟩
    rw [keeps.allocated]
    exact keeps.held.trans (tidy.held.append_right _)

theorem Turn.freed {cb : Callbacks} {g : Bool} {s : Scan} {e : Exit} (h : Turn cb g s (.ret e))
    (held : s.held.Perm s.allocated) : (e.freed.filterMap id).Perm e.allocated := by
  cases h with
  | eof => exact held
  | @missing w =>
    simp only [Scan.held, Phase.command, Phase.target?, Option.bind_none, List.filterMap_append]
      at held ⊢
    refine List.Perm.append (by simpa using held) ?_
    cases (CqIrc.target g w).word? <;> simp
  | @crlf t =>
    simp only [Scan.held, Phase.command, Phase.target?, Option.bind_some, List.filterMap_append]
      at held ⊢
    cases ht : t.word? <;> simpa [ht] using held

theorem begin_tidy {line : Bytes} (h : ∀ f, assignments f line ≤ 1) : Tidy (Scan.begin line) := by
  refine ⟨fun f => ?_, by rfl⟩
  have none : (Scan.begin line).message.field f = none := by cases f <;> rfl
  rw [Scan.uses, none, Option.toList_none, List.length_nil, Nat.zero_add]
  exact h f

theorem assignsOnce_of_assignments {line : Bytes} (h : ∀ f, assignments f line ≤ 1)
    (cb : Callbacks) (g : Bool) : AssignsOnce cb g line := by
  have tidy {s : Scan} (reach : Reaches cb g (Scan.begin line) s) : Tidy s :=
    reach.invariant (begin_tidy h) fun a b ha ht => ht.tidy ha
  constructor
  · intro s hs r n fires
    obtain ⟨s, rfl, reach⟩ := reaches_of_begin hs
    refine ⟨fun f hf => ?_, fun hr => ?_⟩
    · have ahead := fires.token.tally hf
      have mode : (s.state g).start.mode = s.phase.mode := s.phase.mode_start g
      rw [List.take_append_drop, mode] at ahead
      exact null_of_uses ((tidy reach).once f) ahead
    · obtain ⟨p, input, m, al⟩ := s
      have home := fires.token.of_head (.inr hr)
      cases p with
      | params t | param t | trailing t =>
        cases t <;> simp [Scan.state, Phase.start, Target.paramsStart] at home
      | _ => rfl
  · intro e he
    obtain ⟨s, reach, turn⟩ := (runs_of_yylex he).last_ret
    exact turn.freed (tidy reach).held

theorem assignments_le_of_assignsOnce {cb : Callbacks} (hcb : ∀ f, cb.has f = true) {g : Bool}
    {line : Bytes} (hc : ∀ b ∈ line, inTable b = true) (count : middleCount line ≤ 14)
    (h : AssignsOnce cb g line) (f : Field) : assignments f line ≤ 1 := by
  obtain ⟨r, -, runs⟩ := yylex_runs cb g line
  obtain ⟨s, reach, last⟩ := runs.last
  have uses : s.uses f = assignments f line := by
    have start : (Scan.begin line).uses f = assignments f line := by
      have none : (Scan.begin line).message.field f = none := by cases f <;> rfl
      rw [Scan.uses, none, Option.toList_none, List.length_nil, Nat.zero_add]
      rfl
    have kept : ∀ {s}, Reaches cb g (Scan.begin line) s → s.uses f = assignments f line := by
      intro s reach
      induction reach with
      | refl => exact start
      | @tail a b reach turn ih =>
        rcases turn.stores with ⟨k, r, x, w, fills⟩ | ⟨new, keeps⟩
        · have steps := begin_state g line ▸ Reaches.steps reach hc
          have fires := fires_of_token (s := a.state g) fills.token fills.input
            (Reaches.columns reach hc)
          exact (fills.uses ((h.1 _ steps _ _ fires).1 k fills.rule) f).trans ih
        · exact (keeps.uses f).trans ih
    exact kept reach
  have filled : (s.message.field f).toList.length ≤ 1 := by cases s.message.field f <;> simp
  have rest : s.tally f = 0 := by
    rcases last with ⟨e, -, turn⟩ | ⟨f', -, turn⟩
    · cases turn with
      | eof => rfl
      | missing _ hf => simp [hcb] at hf
      | crlf hw => exact tally_crlf hw
    · cases turn with
      | outOfTable _ hm => exact absurd hm (munchFrom_ne_none (reach.columns hc) _ 0 none)
      | overflow hw _ full =>
        have room := lt_of_lt_of_le (reach.room hw) count
        rw [← Params.add_isSome, full] at room
        simp at room
  rw [← uses, Scan.uses, rest]
  exact filled

/-- A run assigns no field twice and frees what it allocates whenever the line fills each
field at most once; on lines of seven-bit bytes with room for their middles no other line
does so for every table. -/
theorem assignsOnce_iff_assignments (line : Bytes) :
    ((∀ f, assignments f line ≤ 1) → ∀ cb g, AssignsOnce cb g line) ∧
      ((∀ b ∈ line, inTable b = true) → middleCount line ≤ 14 →
        (∀ cb g, AssignsOnce cb g line) → ∀ f, assignments f line ≤ 1) :=
  ⟨fun h cb g => assignsOnce_of_assignments h cb g, fun hc count h f =>
    assignments_le_of_assignsOnce Callbacks.full_has hc count (h .full false) f⟩

theorem assignsOnce_filled :
    (∀ f, assignments f filled = 1) ∧ AssignsOnce .full false filled ∧
      AssignsOnce .full true filled := by
  have one : ∀ f, assignments f filled = 1 := fun f => by cases f <;> decide
  have once := (assignsOnce_iff_assignments filled).1 (fun f => (one f).le) .full
  exact ⟨one, once false, once true⟩

def twoPrefixes : Bytes :=
  ascii [':', 'a', ' ', ':', 'b', ' ', 'P', 'I', 'N', 'G', '\r', '\n']

theorem not_assignsOnce_twoPrefixes : ¬ AssignsOnce .full false twoPrefixes := fun h =>
  absurd (assignments_le_of_assignsOnce Callbacks.full_has (List.all_eq_true.mp (by decide))
    (by decide) h .source) (by decide)

end CqIrc
