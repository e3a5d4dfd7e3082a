import CqIrc.Shape
import CqIrc.Writing

/-! A callback that answers: the texts it was given go into a line, and the line is
scanned again. A parameter is sent where the scanner reads a parameter and a trailing
where it reads a trailing, so `cq_irc_session_privmsg` echoes faithfully; with
`cq_irc_session_pong` a trailing comes back as a parameter. -/

namespace CqIrc
open Flex Flex.Pattern

/-- Outside a blocking write, the call puts this buffer behind the waiting ones and
does nothing else. -/
def Queues (c : Call) (buffer : Bytes) : Prop :=
  ∀ o : Output, o.sync = none →
    o.call c = some { o with pending := o.pending ++ [⟨buffer, 0⟩], calls := o.calls ++ [c] }

theorem queues_iff {c : Call} (h : c.formats = true) {buffer : Bytes} :
    Queues c buffer ↔ c.buffer = .ok (some buffer) := by
  have async : c.isSync = false := by
    cases c with
    | write | writeSync => cases h
    | _ => rfl
  constructor
  · intro queues
    have first := queues .fresh rfl
    unfold Output.call at first
    split at first
    · simpa [Output.fresh] using congrArg Output.pending (Option.some.inj first)
    · next made _ hb =>
      rw [async] at first
      have same := congrArg Output.pending (Option.some.inj first)
      obtain rfl : made = buffer := by simpa [Output.fresh] using same
      exact hb
    · cases first
  · intro hb o idle
    simp [Output.call, idle, hb, async]

theorem commandSignal_of_signal {g : Bool} {w : Bytes} {f : Signal} (hf : f ≠ .unknown)
    (h : f = (target g w).signal) : g = false ∧ commandSignal w = f := by
  by_cases known : g = true ∨ commandSignal w = .unknown
  · rw [target_of_unknown known] at h
    exact absurd h hf
  · obtain ⟨hg, hu⟩ := not_or.mp known
    obtain rfl : g = false := by simpa using hg
    rw [target_of_known hu] at h
    exact ⟨rfl, h.symm⟩

theorem yylex_body (cb : Callbacks) (g : Bool) (body : Body)
    (hf : cb.has (target g body.command).signal = true) :
    ∃ e j, yylex cb g body.bytes = some (.ok e) ∧ e.code = 0 ∧ e.calls = [j] ∧
      j.signal = (target g body.command).signal ∧ j.command = (target g body.command).word? ∧
      j.message.pfx = ⟨none, none, none⟩ ∧
      j.message.params.listed = body.middles.map (fun x => some x.2) ∧
      j.message.trailing = body.trailing.map (·.2) := by
  obtain ⟨ps, hp, listed, -⟩ := body.exists_params
  obtain ⟨e, runs, code, -, calls⟩ := body.runs cb g (m := .zero) [] hp hf
  refine ⟨e, _, Runs.yylex runs body.inTable, code, calls, rfl, rfl, ?_, ?_, ?_⟩
  · exact Message.withTrailing?_pfx _ _
  · simpa [Target.invocation, Message.withParams] using listed
  · simp [Target.invocation, Message.withParams, Message.zero]

/-- `PRIVMSG channel :message`. -/
def privmsgBody (channel message : Bytes) (hc : channel ∈ middle.language)
    (hm : message ≠ [] ∧ ∀ b ∈ message, trailingChar b = true) : Body :=
  ⟨ascii ['P', 'R', 'I', 'V', 'M', 'S', 'G'], [(0, channel)], some (0, message), by decide,
    by simp, by simpa using hc,
    trailing_of_all (x := (0, message)) hm.1 (List.all_eq_true.mpr hm.2)⟩

theorem middle_clean {w : Bytes} (h : w ∈ middle.language) : nul ∉ w ∧ cr ∉ w ∧ lf ∉ w := by
  have letters := (middle_shape h).2.2
  exact ⟨fun hb => (letters _ hb).1 rfl, fun hb => (letters _ hb).2.1 rfl,
    fun hb => (letters _ hb).2.2.1 rfl⟩

theorem trailing_clean {w : Bytes} (h : ∀ b ∈ w, trailingChar b = true) :
    nul ∉ w ∧ cr ∉ w ∧ lf ∉ w := by
  have letters := trailing_shape h
  exact ⟨fun hb => (letters _ hb).1 rfl, fun hb => (letters _ hb).2.1 rfl,
    fun hb => (letters _ hb).2.2 rfl⟩

/-- The echo of a message is delivered as the message: the same channel and trailing, and
no prefix. -/
theorem privmsg_echoes {cb : Callbacks} {g : Bool} {line : Bytes} {e : Exit} {i : Invocation}
    {p t : Bytes} {others : List (Option Bytes)} (he : yylex cb g line = some (.ok e))
    (call : i ∈ e.calls) (privmsg : i.signal = .privmsg)
    (hp : i.message.params.listed = some p :: others) (ht : i.message.trailing = some t)
    (short : line.length < 2 ^ 31 - 64) :
    ∃ buffer e' j, Queues (.privmsg (some p) (some t)) buffer ∧ Call.OneLine buffer ∧
      yylex cb g buffer = some (.ok e') ∧ e'.code = 0 ∧ e'.calls = [j] ∧ j.signal = .privmsg ∧
      j.message.pfx = ⟨none, none, none⟩ ∧ j.message.params.listed = [some p] ∧
      j.message.trailing = some t := by
  obtain ⟨src, x, w, y, ms, tr, split, lead, word, tail, has, signal, -, -, params, trailing⟩ :=
    yylex_sound he call
  obtain ⟨rfl, known⟩ := commandSignal_of_signal (by decide) (privmsg.symm.trans signal)
  rw [hp] at params
  obtain ⟨m, ms, rfl, hm, -⟩ := List.map_eq_cons_iff.mp params.symm
  obtain rfl : m = p := Option.some.inj hm
  obtain rfl : some t = tr := ht.symm.trans trailing
  have channel := tail.middles_mem m (by simp)
  have message := tail.trailing_mem t rfl
  have body := yylex_body cb false (privmsgBody m t channel message)
  obtain ⟨e', j, he', code, calls, signal', -, pfx, params', trailing'⟩ :=
    body (by rw [privmsg] at has; exact has)
  have bytes : ascii ['P', 'R', 'I', 'V', 'M', 'S', 'G', ' '] ++ m ++ ascii [' ', ':'] ++ t ++
      delimiter = (privmsgBody m t channel message).bytes := by
    simp [privmsgBody, Body.bytes, middleBytes, trailingBytes, spaces, ascii, delimiter, sp, colon]
  have fits : (Call.privmsg (some m) (some t)).Fits := by
    have room := tail.length_le
    have whole := congrArg List.length split
    rintro text ⟨⟩
    simp only [List.flatten_cons, List.length_append, List.length_cons, Option.elim_some,
      ascii, List.length_map, List.length_nil] at room whole ⊢
    omega
  have buffer := Call.buffer_of_fits rfl fits rfl
  rw [bytes] at buffer
  have clean : ∀ a ∈ (Call.privmsg (some m) (some t)).arguments, nul ∉ a ∧ cr ∉ a ∧ lf ∉ a := by
    simp only [Call.arguments, Option.toList_some, List.mem_append, List.mem_singleton]
    rintro a (rfl | rfl)
    · exact middle_clean channel
    · exact trailing_clean message.2
  have line := Call.oneLine_of_clean rfl clean rfl
  exact ⟨_, e', j, (queues_iff rfl).mpr buffer, bytes ▸ line, he', code, calls, signal', pfx,
    params', trailing'⟩

theorem exists_invocation (cb : Callbacks) (g : Bool) (line : Bytes) {β : Type*}
    (f : Invocation → β) (b : β)
    (h : (yylex cb g line).map (fun r => r.map fun e => e.calls.map f) = some (.ok [b])) :
    ∃ e i, yylex cb g line = some (.ok e) ∧ e.calls = [i] ∧ f i = b := by
  obtain ⟨r, hr, calls⟩ := Option.map_eq_some_iff.mp h
  cases r with
  | error f => cases calls
  | ok e =>
    obtain ⟨i, hi, hb⟩ := List.map_eq_singleton_iff.mp (Except.ok.inj calls)
    exact ⟨e, i, hr, hi, hb⟩

def noisyLine : Bytes :=
  ascii [':', 'n', 'i', ' ', 'P', 'R', 'I', 'V', 'M', 'S', 'G', ' ', '#', 'c', ' ', 'x', ' ', ':',
    'h', 'i', ' ', 'y', 'o', 'u', '\r', '\n']

theorem privmsg_echoes_noisy :
    ∃ buffer e j, Queues (.privmsg (some (ascii ['#', 'c']))
        (some (ascii ['h', 'i', ' ', 'y', 'o', 'u']))) buffer ∧ Call.OneLine buffer ∧
      yylex .full false buffer = some (.ok e) ∧ e.code = 0 ∧ e.calls = [j] ∧
      j.signal = .privmsg ∧ j.message.pfx = ⟨none, none, none⟩ ∧
      j.message.params.listed = [some (ascii ['#', 'c'])] ∧
      j.message.trailing = some (ascii ['h', 'i', ' ', 'y', 'o', 'u']) := by
  obtain ⟨e, i, he, hi, fields⟩ := exists_invocation .full false noisyLine
    (fun i => decide (i.signal = .privmsg ∧
      i.message.params.listed = [some (ascii ['#', 'c']), some (ascii ['x'])] ∧
      i.message.trailing = some (ascii ['h', 'i', ' ', 'y', 'o', 'u']))) true (by decide +kernel)
  obtain ⟨privmsg, params, trailing⟩ := of_decide_eq_true fields
  exact privmsg_echoes he (by simp [hi]) privmsg params trailing (by decide)

def token (m : Message) : Option Bytes := m.trailing.or m.params.listed.getLast?.join

def finals (m : Message) : List (Option Bytes) := m.params.listed ++ m.trailing.toList.map some

/-- The answer of the callback for a ping is one line, and its scan yields the command
PONG with the token of the ping as its only parameter. -/
def PongAnswers (i : Invocation) : Prop :=
  ∃ t buffer e j w, token i.message = some t ∧ Queues (.pong i.message.trailing) buffer ∧
    Call.OneLine buffer ∧ yylex .full false buffer = some (.ok e) ∧ e.calls = [j] ∧
    j.command = some w ∧ sameText w ['P', 'O', 'N', 'G'] ∧ finals j.message = [some t]

theorem middle_of_trailing {w : Bytes} (ne : w ≠ []) (hw : ∀ b ∈ w, trailingChar b = true)
    (hs : sp ∉ w) (hc : w.head? ≠ some colon) : w ∈ middle.language := by
  have letter {b : Byte} (hb : b ∈ w) : inTable b = true ∧ b ≠ nul ∧ b ≠ cr ∧ b ≠ lf ∧ b ≠ sp :=
    have ⟨column, hn, hr, hl⟩ := trailingChar_iff.mp (hw b hb)
    ⟨column, hn, hr, hl, fun e => hs (e ▸ hb)⟩
  obtain ⟨c, v, rfl⟩ := List.exists_cons_of_ne_nil ne
  refine mem_middle.mpr ⟨c, v, rfl, negated_iff.mpr ?_, fun b hb => negated_iff.mpr ?_⟩
  · obtain ⟨column, hn, hr, hl, hs⟩ := letter (List.mem_cons_self ..)
    have mark : c ≠ colon := by simpa using hc
    exact ⟨column, by simpa [ascii] using ⟨mark, hn, hr, hl, hs⟩⟩
  · obtain ⟨column, hn, hr, hl, hs⟩ := letter (List.mem_cons_of_mem c hb)
    exact ⟨column, by simpa [ascii] using ⟨hs, hn, hr, hl⟩⟩

def pongBody (t : Bytes) (h : t ∈ middle.language) : Body :=
  ⟨ascii ['P', 'O', 'N', 'G'], [(0, t)], none, by decide, by simp, by simpa using h, nofun⟩

theorem PongAnswers.trailing {i : Invocation} (h : PongAnswers i) :
    ∃ t, i.message.trailing = some t ∧ sp ∉ t ∧ t.head? ≠ some colon ∧ t.length + 7 < 2 ^ 31 := by
  obtain ⟨t, buffer, e, j, w, ht, queues, -, he, calls, command, pong, last⟩ := h
  have made := (queues_iff rfl).mp queues
  cases trailing : i.message.trailing with
  | none =>
    rw [trailing] at made
    cases made
  | some t' =>
    obtain rfl : t' = t := by simpa [token, trailing] using ht
    rw [trailing] at made
    have fits := Call.buffer_length rfl made
    obtain ⟨front, inside, rfl⟩ := Call.buffer_front rfl rfl made
    obtain ⟨_, x, w', y, ms, tr, split, -, -, tail, -, -, word, -, params, trailing'⟩ :=
      yylex_sound he (by simp [calls] : j ∈ e.calls)
    have four : w'.length = 4 := by
      rw [command, target_word] at word
      split at word
      · obtain rfl := Option.some.inj word
        simpa [ascii] using congrArg List.length pong
      · cases word
    have room := tail.length_le
    have whole := congrArg List.length split
    have front_le := inside.length_le
    simp only [ascii, delimiter, List.length_append, List.length_cons, List.length_nil,
      List.length_map] at room whole front_le fits
    rw [finals, params, trailing'] at last
    cases ms with
    | nil =>
      -- read as a trailing the token would need one byte more than there are
      obtain rfl : tr = some t' := by
        cases tr with
        | none => simp at last
        | some c => simpa using last
      simp only [List.flatten_nil, List.length_nil, Option.elim_some] at room
      omega
    | cons m ms =>
      obtain ⟨hm, rest⟩ := List.cons.inj last
      obtain rfl := Option.some.inj hm
      obtain ⟨-, colon, letters⟩ := middle_shape (tail.middles_mem m (by simp))
      simp only [List.flatten_cons, List.length_append, List.length_cons] at room
      exact ⟨m, rfl, fun hs => (letters sp hs).2.2.2 rfl, colon, by omega⟩

/-- A ping is answered exactly when its token is a trailing that also reads as a
parameter, and the line fits. -/
theorem pongAnswers_iff {cb : Callbacks} {line : Bytes} {e : Exit} {i : Invocation}
    (he : yylex cb false line = some (.ok e)) (call : i ∈ e.calls) :
    PongAnswers i ↔ ∃ t, i.message.trailing = some t ∧ sp ∉ t ∧ t.head? ≠ some colon ∧
      t.length + 7 < 2 ^ 31 := by
  refine ⟨PongAnswers.trailing, ?_⟩
  rintro ⟨t, trailing, hs, hc, short⟩
  obtain ⟨_, _, _, _, _, tr, -, -, -, tail, -, -, -, -, -, htr⟩ := yylex_sound he call
  obtain ⟨ne, letters⟩ := tail.trailing_mem t (htr.symm.trans trailing)
  have middle := middle_of_trailing ne letters hs hc
  obtain ⟨e', j, he', -, calls, -, command, -, params, trailing'⟩ :=
    yylex_body .full false (pongBody t middle) (Callbacks.full_has _)
  have fits : (Call.pong (some t)).Fits := by
    rintro text ⟨⟩
    simp only [ascii, List.length_append, List.length_map, List.length_cons, List.length_nil]
    omega
  have bytes : ascii ['P', 'O', 'N', 'G', ' '] ++ t ++ delimiter = (pongBody t middle).bytes := by
    simp [pongBody, Body.bytes, middleBytes, trailingBytes, spaces, ascii, delimiter, sp]
  have clean : ∀ a ∈ (Call.pong (some t)).arguments, nul ∉ a ∧ cr ∉ a ∧ lf ∉ a := by
    simp only [Call.arguments, Option.toList_some, List.mem_singleton, forall_eq]
    exact trailing_clean letters
  have line := Call.oneLine_of_clean rfl clean rfl
  have made := Call.buffer_of_fits rfl fits rfl
  rw [bytes] at made line
  refine ⟨t, _, e', j, _, by simp [token, trailing], trailing ▸ (queues_iff rfl).mpr made, line,
    he', calls, command, rfl, ?_⟩
  simp [finals, params, trailing', pongBody]

def markedPing : Bytes := ascii ['P', 'I', 'N', 'G', ' ', ':', 'a', '\r', '\n']

theorem pongAnswers_marked :
    ∃ e i, yylex .full false markedPing = some (.ok e) ∧ e.calls = [i] ∧ i.signal = .ping ∧
      PongAnswers i := by
  obtain ⟨e, i, he, hi, fields⟩ := exists_invocation .full false markedPing
    (fun i => (i.signal, i.message.trailing)) (.ping, some (ascii ['a'])) (by decide +kernel)
  simp only [Prod.mk.injEq] at fields
  exact ⟨e, i, he, hi, fields.1, (pongAnswers_iff he (by simp [hi])).mpr
    ⟨_, fields.2, by decide, by decide, by decide⟩⟩

def spacedPing : Bytes := ascii ['P', 'I', 'N', 'G', ' ', ':', 'a', ' ', 'b', '\r', '\n']

theorem not_pongAnswers_spaced :
    ∃ e i, yylex .full false spacedPing = some (.ok e) ∧ e.calls = [i] ∧ i.signal = .ping ∧
      ¬ PongAnswers i := by
  obtain ⟨e, i, he, hi, fields⟩ := exists_invocation .full false spacedPing
    (fun i => (i.signal, i.message.trailing)) (.ping, some (ascii ['a', ' ', 'b']))
    (by decide +kernel)
  simp only [Prod.mk.injEq] at fields
  refine ⟨e, i, he, hi, fields.1, fun answers => ?_⟩
  obtain ⟨t, ht, hs, -⟩ := answers.trailing
  obtain rfl := Option.some.inj (fields.2.symm.trans ht)
  exact hs (by decide)

end CqIrc
