import CqIrc.WellFormed

/-! What a callback receives for a well-formed line: the pieces of the line, with the
exception of user and host, whose rules are quoted and read their own text only. -/

namespace CqIrc
open Flex Flex.Pattern

def delivered (r : Option (Except Fault Exit)) : Option Invocation :=
  match r with
  | some (.ok ⟨0, [i], _, _, _⟩) => some i
  | _ => none

theorem delivered_ok {e : Exit} {i : Invocation} (hc : e.code = 0) (hi : e.calls = [i]) :
    delivered (some (.ok e)) = some i := by
  obtain ⟨code, calls, rest, al, freed⟩ := e
  subst hc hi
  rfl

def originBytes : Option Origin → Bytes
  | none => []
  | some o => o.bytes

theorem originBytes_inTable (o : Option Origin) : ∀ b ∈ originBytes o, inTable b = true := by
  cases o with
  | none => simp [originBytes]
  | some o => exact o.inTable

theorem line_inTable (o : Option Origin) (body : Body) :
    ∀ b ∈ originBytes o ++ body.bytes, inTable b = true := by
  intro b hb
  rcases List.mem_append.mp hb with hb | hb
  · exact originBytes_inTable o b hb
  · exact body.inTable b hb

theorem target_signal (w : Bytes) : (target false w).signal = commandSignal w := by
  by_cases h : commandSignal w = .unknown
  · rw [target_of_unknown (.inr h), h]
    rfl
  · rw [target_of_known h]
    rfl

theorem target_word (w : Bytes) :
    (target false w).word? = if commandSignal w = .unknown then some w else none := by
  by_cases h : commandSignal w = .unknown
  · rw [target_of_unknown (.inr h), if_pos h]
    rfl
  · rw [target_of_known h, if_neg h]
    rfl

theorem reach_bare_origin (cb : Callbacks) (g : Bool) (o : Option Origin)
    (bare : ∀ x ∈ o, x.user = none ∧ x.host = none) (v : Bytes) :
    ∃ m al, Reaches cb g (Scan.begin (originBytes o ++ v)) ⟨.head, v, m, al⟩ ∧
      m.params = Message.zero.params ∧ m.trailing = none ∧
      m.pfx = ⟨none, none, o.map (·.source)⟩ := by
  cases o with
  | none => exact ⟨.zero, [], .refl, rfl, rfl, rfl⟩
  | some o =>
    obtain ⟨hu, hh⟩ := bare o rfl
    have reach := o.reach_source cb g v .zero []
    rw [hu, hh] at reach
    exact ⟨_, _, reach.trans (reach_spaces_head o.extra v _ _), rfl, rfl, rfl⟩

/-- The decoding law: a well-formed line without user and host is delivered to the
callback of its command word, piece for piece. -/
theorem yylex_decodes (cb : Callbacks) (hcb : ∀ f, cb.has f = true) (origin : Option Origin)
    (bare : ∀ o ∈ origin, o.user = none ∧ o.host = none) (body : Body) :
    ∃ e i, yylex cb false (originBytes origin ++ body.bytes) = some (.ok e) ∧
      e.code = 0 ∧ e.calls = [i] ∧
      i.signal = commandSignal body.command ∧
      i.command = (if commandSignal body.command = .unknown then some body.command else none) ∧
      i.message.pfx = ⟨none, none, origin.map (·.source)⟩ ∧
      i.message.params.length.toNat = body.middles.length ∧
      i.message.params.listed = body.middles.map (fun x => some x.2) ∧
      i.message.trailing = body.trailing.map (·.2) := by
  obtain ⟨m, al, reach, params, trailing, pfx⟩ := reach_bare_origin cb false
    origin bare body.bytes
  obtain ⟨ps, hp, listed, len⟩ := body.exists_params
  obtain ⟨e, runs, code, -, calls⟩ := body.runs cb false al (params ▸ hp) (hcb _)
  refine ⟨e, _, (reach.runs runs).yylex (line_inTable origin body), code, calls,
    target_signal _, target_word _, ?_, ?_, ?_, ?_⟩
  · exact (Message.withTrailing?_pfx _ _).trans pfx
  · simpa [Target.invocation, Message.withParams] using len
  · simpa [Target.invocation, Message.withParams] using listed
  · simp [Target.invocation, Message.withParams, trailing]

def bareNick : Origin :=
  ⟨ascii ['n', 'i'], none, none, 0, by decide, by decide, by decide⟩

def pingBody : Body :=
  ⟨ascii ['P', 'i', 'n', 'g'], [(0, ascii ['a'])], some (1, ascii ['h', ' ', 'i']),
    by decide, by decide, by decide, trailing_of_all (by decide) (by decide)⟩

theorem yylex_decodes_ping :
    ∃ e i, yylex .full false (originBytes (some bareNick) ++ pingBody.bytes) = some (.ok e) ∧
      e.code = 0 ∧ e.calls = [i] ∧
      i.signal = commandSignal pingBody.command ∧
      i.command =
        (if commandSignal pingBody.command = .unknown then some pingBody.command else none) ∧
      i.message.pfx = ⟨none, none, (some bareNick).map (·.source)⟩ ∧
      i.message.params.length.toNat = pingBody.middles.length ∧
      i.message.params.listed = pingBody.middles.map (fun x => some x.2) ∧
      i.message.trailing = pingBody.trailing.map (·.2) :=
  yylex_decodes .full Callbacks.full_has (some bareNick) (by decide) pingBody

/-- Reading with the prefix gives the message read without it, plus the three parts. -/
def PrefixDecoded (cb : Callbacks) (g : Bool) (o : Origin) (body : Body) : Prop :=
  ∃ i, delivered (yylex cb g body.bytes) = some i ∧
    delivered (yylex cb g (o.bytes ++ body.bytes)) =
      some { i with message := { i.message with pfx := ⟨o.host, o.user, some o.source⟩ } }

section origins
variable {cb : Callbacks} {g : Bool} (o : Origin) (body : Body)
  (hf : cb.has (target g body.command).signal = true)
include hf

theorem delivered_behind {m : Message} {al : List Bytes} {ps : Params}
    (reach : Reaches cb g (Scan.begin (o.bytes ++ body.bytes)) ⟨.head, body.bytes, m, al⟩)
    (params : m.params = Message.zero.params)
    (hp : Message.zero.params.addAll (body.middles.map (·.2)) = some ps) :
    delivered (yylex cb g (o.bytes ++ body.bytes)) =
      some ((target g body.command).invocation ((m.withParams ps).withTrailing? body.trailing)) := by
  obtain ⟨e, runs, code, -, calls⟩ := body.runs cb g al (params ▸ hp) hf
  rw [(reach.runs runs).yylex (line_inTable (some o) body)]
  exact delivered_ok code calls

theorem delivered_alone {ps : Params}
    (hp : Message.zero.params.addAll (body.middles.map (·.2)) = some ps) :
    delivered (yylex cb g body.bytes) = some ((target g body.command).invocation
      ((Message.zero.withParams ps).withTrailing? body.trailing)) := by
  obtain ⟨e, runs, code, -, calls⟩ := body.runs cb g (m := .zero) [] hp hf
  rw [Runs.yylex runs body.inTable]
  exact delivered_ok code calls

theorem prefixDecoded_of_reach {m : Message} {al : List Bytes}
    (reach : Reaches cb g (Scan.begin (o.bytes ++ body.bytes)) ⟨.head, body.bytes, m, al⟩)
    (params : m.params = Message.zero.params) (trailing : m.trailing = none) :
    PrefixDecoded cb g o body ↔ m.pfx = ⟨o.host, o.user, some o.source⟩ := by
  obtain ⟨ps, hp, -⟩ := body.exists_params
  have behind := delivered_behind o body hf reach params hp
  have alone := delivered_alone body hf hp
  rw [PrefixDecoded, behind, alone]
  constructor
  · rintro ⟨i, hi, e⟩
    obtain rfl := Option.some.inj hi
    have same := congrArg (fun i : Invocation => i.message.pfx) (Option.some.inj e)
    exact (Message.withTrailing?_pfx (m.withParams ps) body.trailing).symm.trans same
  · intro pfx
    refine ⟨_, rfl, ?_⟩
    obtain ⟨mp, mparams, mtrailing⟩ := m
    subst pfx trailing
    cases body.trailing <;> rfl

end origins

/-- The prefix is decoded in full exactly when it has no host and no user, or a user
spelled like the quoted pattern. -/
theorem prefixDecoded_iff (cb : Callbacks) (g : Bool) (o : Origin) (body : Body)
    (hf : cb.has (target g body.command).signal = true) :
    PrefixDecoded cb g o body ↔
      o.host = none ∧ (o.user = none ∨ o.user = some (ascii ['{', 'u', 's', 'e', 'r', '}'])) := by
  have source := o.reach_source cb g body.bytes .zero []
  constructor
  · intro decoded
    obtain ⟨m, al, reach, params, trailing, -, user, host⟩ := reach_options cb g
      o.extra body.bytes _ (Message.zero.withSource o.source) ([] ++ [o.source])
      o.marked_letters
    have pfx := (prefixDecoded_of_reach o body hf (source.trans reach) params trailing).mp decoded
    rw [pfx] at user host
    refine ⟨?_, user⟩
    rcases host with none | some
    · exact none
    · exact absurd rfl (host_within.mem (o.host_mem _ some) _ (by decide :
        UInt8.ofNat '{'.toNat ∈ quotedHost.tail)).2.2
  · rintro ⟨hh, hu | hu⟩
    · rw [hu, hh] at source
      have reach := source.trans (reach_spaces_head o.extra body.bytes _ _)
      rw [prefixDecoded_of_reach o body hf reach rfl rfl, hu, hh]
      rfl
    · rw [hu, hh] at source
      have reach := source.trans (.head .user (reach_spaces_head o.extra body.bytes _ _))
      rw [prefixDecoded_of_reach o body hf reach rfl rfl, hu, hh]
      rfl

def bracedNick : Origin :=
  ⟨ascii ['n', 'i'], some (ascii ['{', 'u', 's', 'e', 'r', '}']), none, 0,
    by decide, by decide, by decide⟩

theorem prefixDecoded_iff_braced :
    PrefixDecoded .full false bracedNick pingBody ↔
      bracedNick.host = none ∧ (bracedNick.user = none ∨
        bracedNick.user = some (ascii ['{', 'u', 's', 'e', 'r', '}'])) :=
  prefixDecoded_iff .full false bracedNick pingBody (by decide)

def fullNick : Origin :=
  ⟨ascii ['n', 'i'], some (ascii ['u']), some (ascii ['h']), 0, by decide, by decide, by decide⟩

theorem not_prefixDecoded_fullNick : ¬ PrefixDecoded .full false fullNick pingBody := by
  rintro ⟨i, -, h⟩
  have user : (delivered (yylex .full false (fullNick.bytes ++ pingBody.bytes))).map
      (·.message.pfx.user) = some none := by decide +kernel
  rw [h] at user
  have none : fullNick.user = none := Option.some.inj user
  exact absurd none (by decide)

/-- Command and middles, and behind them an empty last parameter. -/
def Body.emptied (body : Body) (n : Nat) : Bytes :=
  body.command ++ (middleBytes body.middles ++ (spaces n ++ [colon, cr, lf]))

theorem Body.emptied_inTable (body : Body) (n : Nat) :
    ∀ b ∈ body.emptied n, CqIrc.inTable b = true := by
  intro b hb
  simp only [Body.emptied, List.mem_append] at hb
  rcases hb with hb | hb | hb | hb
  · exact command_inTable body.command_mem b hb
  · exact middleBytes_inTable body.middles_mem b hb
  · exact spaces_inTable hb
  · exact List.all_eq_true.mp (by decide : [colon, cr, lf].all CqIrc.inTable = true) b hb

theorem reach_emptied (cb : Callbacks) (g : Bool) (t : Target) (n : Nat) (m : Message)
    (al : List Bytes) :
    Reaches cb g ⟨.params t, spaces n ++ [colon, cr, lf], m, al⟩ ⟨.trailing t, [], m, al⟩ := by
  have dropped : Reaches cb g ⟨.trailing t, [cr, lf] ++ [], m, al⟩ ⟨.trailing t, [], m, al⟩ := by
    refine Reaches.skips [cr, lf] fun b hb => ?_
    have stop : inTable b = true ∧ trailingChar b = false := by
      rcases List.mem_pair.mp hb with rfl | rfl <;> decide
    exact ⟨stop.1, fun u => .trailing stop.2⟩
  exact (reach_space n).trans (.head .colon dropped)

/-- With an empty last parameter the message is that of the line without it, and its
trailing is empty. -/
def EmptyDelivered (cb : Callbacks) (g : Bool) (origin : Option Origin) (body : Body) (n : Nat) :
    Prop :=
  ∃ i e, delivered (yylex cb g (originBytes origin ++
      (body.command ++ (middleBytes body.middles ++ [cr, lf])))) = some i ∧
    yylex cb g (originBytes origin ++ body.emptied n) = some (.ok e) ∧ e.code = 0 ∧
    e.calls = [{ i with message := { i.message with trailing := some [] } }]

/-- No line with an empty last parameter is delivered: the scanner runs into the end of
the buffer. -/
theorem not_emptyDelivered (cb : Callbacks) (hcb : ∀ f, cb.has f = true) (g : Bool)
    (origin : Option Origin) (bare : ∀ o ∈ origin, o.user = none ∧ o.host = none) (body : Body)
    (n : Nat) :
    (∃ e, yylex cb g (originBytes origin ++ body.emptied n) = some (.ok e) ∧ e.code = -2 ∧
        e.calls = []) ∧
      ¬ EmptyDelivered cb g origin body n := by
  have columns : ∀ b ∈ originBytes origin ++ body.emptied n, inTable b = true := by
    intro b hb
    rcases List.mem_append.mp hb with hb | hb
    · exact originBytes_inTable origin b hb
    · exact body.emptied_inTable n b hb
  have stop {p : Byte → Bool} (hs : p sp = false) : Stops p (spaces n ++ [colon, cr, lf]) :=
    stops_spaces hs n
  obtain ⟨m, al, lead, params, -⟩ := reach_bare_origin cb g origin bare (body.emptied n)
  obtain ⟨ps, hp, -⟩ := body.exists_params
  have next : Stops alpha (middleBytes body.middles ++ (spaces n ++ [colon, cr, lf])) := by
    cases body.middles with
    | nil => exact stop (by decide)
    | cons x ms =>
      simp only [middleBytes, List.flatMap_cons, List.append_assoc]
      exact stops_spaces (by decide) _
  have word := reach_word cb g al (m := m) body.command_mem next (hcb _)
  obtain ⟨al', middles⟩ := reach_middles cb g (target g body.command)
    (al ++ (target g body.command).word?.toList) body.middles_mem (stop (by decide))
    (params ▸ hp)
  have reach := lead.trans (word.trans (middles.trans (reach_emptied cb g _ n _ al')))
  have run := Runs.yylex (Reaches.runs reach (.ret .eof)) columns
  refine ⟨⟨_, run, rfl, rfl⟩, ?_⟩
  rintro ⟨i, e, -, he, -, calls⟩
  rw [run] at he
  obtain rfl := Except.ok.inj (Option.some.inj he)
  cases calls

def bareBody : Body :=
  ⟨ascii ['P', 'I', 'N', 'G'], [(0, ascii ['a'])], none, by decide, by decide, by decide, by simp⟩

theorem not_emptyDelivered_ping :
    (∃ e, yylex .full false (originBytes (some bareNick) ++ bareBody.emptied 0) = some (.ok e) ∧
        e.code = -2 ∧ e.calls = []) ∧
      ¬ EmptyDelivered .full false (some bareNick) bareBody 0 :=
  not_emptyDelivered .full Callbacks.full_has false (some bareNick) (by decide) bareBody 0

theorem empty_trailing_lost :
    delivered (yylex .full false bareBody.bytes) ≠ none ∧
      (yylex .full false (bareBody.emptied 0)).map (fun r => r.map fun e => (e.code, e.calls)) =
        some (.ok (-2, [])) ∧
      ¬ EmptyDelivered .full false none bareBody 0 := by
  have lost : (yylex .full false (bareBody.emptied 0)).map
      (fun r => r.map fun e => (e.code, e.calls)) = some (.ok (-2, [])) := by decide +kernel
  refine ⟨by decide +kernel, lost, ?_⟩
  rintro ⟨i, e, -, he, code, -⟩
  rw [show originBytes none ++ bareBody.emptied 0 = bareBody.emptied 0 from rfl] at he
  rw [he] at lost
  have minus := congrArg Prod.fst (Except.ok.inj (Option.some.inj lost))
  exact absurd (code.symm.trans minus) (by decide)

end CqIrc
