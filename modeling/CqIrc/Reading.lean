import CqIrc.Asio.ReadUntil
import CqIrc.LifeCycle

/-! The reading side of a connection on its stream buffer: `async_read_until`, the buffer
that `on_read` fills, `consume`, and the next `async_read_until`. The bytes behind a line
stay in the stream buffer; the next operation finds a line among them before it reads. -/

namespace CqIrc

open Asio (Growth ReadState Streambuf)

/-- A connection up to its first failed read, with the buffers that have been posted. -/
structure Reader where
  state : ReadState
  posted : List Bytes

namespace Reader

def onRead (g : Growth) (r : Reader) (input : Streambuf) (msgSize : Nat) : Option Reader :=
  (readBuffer input.data msgSize).bind fun buf => (input.consume msgSize).bind fun sb =>
    (Asio.asyncReadUntil g delimiter sb).map fun st => ⟨st, r.posted ++ [buf]⟩

def step (g : Growth) (x : Asio.Read) (r : Reader) : Option Reader :=
  (r.state.step g delimiter x).bind fun st =>
    match st with
    | .called sb .success n => r.onRead g sb n
    | st => some { r with state := st }

def input (g : Growth) : Streambuf := .new g (2 ^ 64 - 1)

def start (g : Growth) : Option Reader :=
  (Asio.asyncReadUntil g delimiter (input g)).map fun st => ⟨st, []⟩

def held (r : Reader) : Bytes :=
  match r.state with
  | .reading op _ => op.streambuf.data
  | .called sb _ _ => sb.data

/-- The read fills its buffer, and what is held without a line end fits an `int`. -/
def Allowed (r : Reader) (x : Asio.Read) : Prop :=
  r.state.Proper x ∧ r.held.length + x.bytes.length + 2 < 2 ^ 31

instance (r : Reader) (x : Asio.Read) : Decidable (r.Allowed x) :=
  inferInstanceAs (Decidable (_ ∧ _))

def Waiting (r : Reader) : Prop :=
  match r.state with
  | .reading _ n => n ≠ 0
  | .called .. => True

instance (r : Reader) : Decidable r.Waiting := by
  unfold Waiting
  split <;> infer_instance

/-- What a completion makes of a reader. -/
inductive Effect (r : Reader) (x : Asio.Read) : Reader → Prop
  | failed (sb : Streambuf) : x.error ≠ .success → x.bytes = [] →
      Stream.cut delimiter [] r.held = none → sb.data = r.held →
      Effect r x ⟨.called sb x.error 0, r.posted⟩
  | line (st : ReadState) (p rest : Bytes) : x.error = .success →
      Stream.cut delimiter [] (r.held ++ x.bytes) = some (p, rest) → p.length + 2 < 2 ^ 31 →
      Asio.Holds delimiter (2 ^ 64 - 1) rest st →
      Effect r x ⟨st, r.posted ++ [terminated p]⟩
  | more (st : ReadState) : x.error = .success →
      Stream.cut delimiter [] (r.held ++ x.bytes) = none →
      Asio.Holds delimiter (2 ^ 64 - 1) (r.held ++ x.bytes) st → Effect r x ⟨st, r.posted⟩

def Sound (r : Reader) : Prop :=
  match r.state with
  | .reading _ _ => Asio.Holds delimiter (2 ^ 64 - 1) r.held r.state
  | .called _ ec _ => ec ≠ .success ∧ Stream.cut delimiter [] r.held = none

section step
variable {g : Growth} {r : Reader} {x : Asio.Read}

theorem delimiter_ne : delimiter ≠ [] := List.cons_ne_nil _ _

theorem cut_of_verdict {q : Bytes} (h : Asio.verdict delimiter (2 ^ 64 - 1) q = none) :
    Stream.cut delimiter [] q = none := by
  cases hc : Stream.cut delimiter [] q with
  | none => rfl
  | some y =>
    rw [Asio.verdict_of_cut hc] at h
    cases h

theorem verdict_of_no_cut {q : Bytes} (h : Stream.cut delimiter [] q = none)
    (short : q.length + 2 < 2 ^ 31) : Asio.verdict delimiter (2 ^ 64 - 1) q = none := by
  rw [Asio.verdict_of_none h, if_neg (by omega)]

theorem onRead_spec {sb : Streambuf} {p rest : Bytes} (split : sb.data = p ++ rest)
    (short : sb.data.length + 2 < 2 ^ 31) (max : sb.maxSize = 2 ^ 64 - 1) :
    ∃ st, r.onRead g sb p.length = some ⟨st, r.posted ++ [terminated p]⟩ ∧
      Asio.Holds delimiter (2 ^ 64 - 1) rest st := by
  have lengths : sb.data.length = p.length + rest.length := by rw [split, List.length_append]
  obtain ⟨t, ht, data, same⟩ := sb.consume_spec (n := p.length) (by omega)
  rw [split, List.drop_left] at data
  have room : t.size + 65536 ≤ Asio.vectorMax := by
    rw [← Streambuf.length_data, data, Asio.vectorMax]
    omega
  obtain ⟨st, hst, holds⟩ := Asio.asyncReadUntil_holds delimiter_ne g room
  refine ⟨st, ?_, data ▸ max ▸ same ▸ holds⟩
  rw [onRead, split, readBuffer_eq (by omega), Option.bind_some, ht, Option.bind_some, hst,
    Option.map_some]

theorem Sound.holds (h : r.Sound) (proper : r.state.Proper x) :
    Asio.Holds delimiter (2 ^ 64 - 1) r.held r.state := by
  unfold Sound at h
  cases hs : r.state with
  | reading op n =>
    rw [hs] at h
    exact h
  | called =>
    rw [hs] at proper
    exact proper.elim

theorem step_effect (sound : r.Sound) (allowed : r.Allowed x) :
    ∃ r', r.step g x = some r' ∧ Effect r x r' := by
  obtain ⟨proper, short⟩ := allowed
  obtain ⟨t, b, ht, hb, agree⟩ := Asio.step_agrees (g := g) delimiter_ne (sound.holds proper) proper
  by_cases success : x.error = .success
  · have all : (r.held ++ x.bytes).length + 2 < 2 ^ 31 := by
      rw [List.length_append]
      exact short
    rw [Asio.ByteRead.step, if_pos success] at hb
    cases hc : Stream.cut delimiter [] (r.held ++ x.bytes) with
    | some y =>
      obtain ⟨p, rest⟩ := y
      have split : r.held ++ x.bytes = p ++ rest := by simpa using Stream.cut_eq hc
      rw [Asio.verdict_of_cut hc] at hb
      obtain rfl := Option.some.inj hb
      obtain ⟨sb, rfl, data, max⟩ := agree
      obtain ⟨st, hst, holds⟩ := onRead_spec (g := g) (r := r) (data.trans split) (data ▸ all) max
      have whole : p.length + 2 < 2 ^ 31 := by
        rw [split, List.length_append] at all
        omega
      exact ⟨_, by rw [step, ht, Option.bind_some]; exact hst, .line st p rest success hc whole holds⟩
    | none =>
      rw [verdict_of_no_cut hc all] at hb
      obtain rfl := Option.some.inj hb
      have reads : r.step g x = some ⟨t, r.posted⟩ := by
        rw [step, ht, Option.bind_some]
        cases t with
        | reading op n => rfl
        | called => exact agree.elim
      exact ⟨_, reads, .more t success hc agree⟩
  · rw [Asio.ByteRead.step, if_neg success] at hb
    obtain rfl := Option.some.inj hb
    obtain ⟨sb, rfl, data, -⟩ := agree
    have nothing := Asio.verdict_of_waiting (sound.holds proper) proper (.inl success)
    have stops : r.step g x = some ⟨.called sb x.error 0, r.posted⟩ := by
      rw [step, ht, Option.bind_some]
      cases hx : x.error with
      | success => exact absurd hx success
      | eof | operationAborted | badDescriptor | other => rfl
    exact ⟨_, stops, .failed sb success (proper.no_bytes success)
      (cut_of_verdict nothing) data⟩

theorem held_of_holds {q : Bytes} {m : Nat} {st : ReadState} {posted : List Bytes}
    (h : Asio.Holds delimiter m q st) : held ⟨st, posted⟩ = q := by
  cases st with
  | reading op n => exact h.2.1
  | called => exact h.elim

theorem Sound.of_holds {q : Bytes} {st : ReadState} {posted : List Bytes}
    (h : Asio.Holds delimiter (2 ^ 64 - 1) q st) : Sound ⟨st, posted⟩ := by
  have data : held ⟨st, posted⟩ = q := held_of_holds h
  cases st with
  | reading op n =>
    show Asio.Holds delimiter (2 ^ 64 - 1) (held ⟨.reading op n, posted⟩) (.reading op n)
    rwa [data]
  | called => exact h.elim

theorem Sound.effect {r' : Reader} (h : Effect r x r') : r'.Sound := by
  cases h with
  | failed sb error _ cut data => exact ⟨error, (congrArg _ data).trans cut⟩
  | line st p rest _ _ _ holds => exact .of_holds holds
  | more st _ _ holds => exact .of_holds holds

end step

/-- The posted lines with what is held are all that has been received. -/
def Accounted (received : Bytes) (r : Reader) : Prop :=
  ∃ ps : List Bytes, r.posted = ps.map terminated ∧
    (∀ p ∈ ps, Stream.EndsAtFirst delimiter p) ∧ ps.flatten ++ r.held = received

theorem Accounted.effect {r r' : Reader} {x : Asio.Read} {received : Bytes}
    (h : Accounted received r) (effect : Effect r x r') : Accounted (received ++ x.bytes) r' := by
  obtain ⟨ps, posted, first, rfl⟩ := h
  cases effect with
  | failed sb _ none_ _ data =>
    refine ⟨ps, posted, first, ?_⟩
    rw [none_, List.append_nil]
    exact congrArg _ data
  | line st p rest _ cut _ holds =>
    refine ⟨ps ++ [p], by rw [posted, List.map_append]; rfl, fun q hq => ?_, ?_⟩
    · rcases List.mem_append.mp hq with old | new
      · exact first q old
      · obtain rfl := List.mem_singleton.mp new
        exact Stream.cut_endsAtFirst delimiter_ne cut
    · have split : r.held ++ x.bytes = p ++ rest := by simpa using Stream.cut_eq cut
      rw [held_of_holds holds, List.append_assoc, split]
      simp
  | more st _ _ holds =>
    refine ⟨ps, posted, first, ?_⟩
    rw [held_of_holds holds, List.append_assoc]

theorem Accounted.lines {received : Bytes} {r : Reader} (h : Accounted received r) :
    r.posted ++ (Session.lines r.held).map terminated = (Session.lines received).map terminated ∧
      Session.unterminated received = Session.unterminated r.held := by
  obtain ⟨ps, posted, first, rfl⟩ := h
  have split := Stream.pieces_append delimiter_ne first r.held
  constructor
  · rw [posted, Session.lines, Session.lines, split, List.map_append]
  · rw [Session.unterminated, split, Session.unterminated]

def received (xs : List Asio.Read) : Bytes := xs.flatMap Asio.Read.bytes

theorem start_spec (g : Growth) :
    ∃ st, start g = some ⟨st, []⟩ ∧ Asio.Holds delimiter (2 ^ 64 - 1) [] st := by
  have none_ : (input g).data = [] := rfl
  have limit : (input g).size + 65536 ≤ Asio.vectorMax := by
    show 0 + 65536 ≤ Asio.vectorMax
    rw [Asio.vectorMax]
    omega
  obtain ⟨st, hst, holds⟩ := Asio.asyncReadUntil_holds delimiter_ne g limit
  rw [none_] at holds
  exact ⟨st, by rw [start, hst]; rfl, holds⟩

theorem run_sound {g : Growth} {xs : List Asio.Read} {r r' : Reader}
    (run : Machine.exec (step g) Allowed xs r = some r') (sound : r.Sound) : r'.Sound := by
  refine (Machine.Run.of_exec xs run).invariant (P := Sound) sound fun x u v ok allowed hs => ?_
  obtain ⟨w, hw, effect⟩ := step_effect (g := g) ok allowed
  obtain rfl := Option.some.inj (hs.symm.trans hw)
  exact .effect effect

theorem run_accounted {g : Growth} {xs : List Asio.Read} {r r' : Reader} {before : Bytes}
    (run : Machine.exec (step g) Allowed xs r = some r') (sound : r.Sound)
    (account : Accounted before r) : Accounted (before ++ received xs) r' := by
  induction xs generalizing r before with
  | nil =>
    obtain rfl := Option.some.inj run
    simpa [received] using account
  | cons x xs ih =>
    rw [Machine.exec] at run
    split at run
    · next allowed =>
      obtain ⟨u, hu, rest⟩ := Option.bind_eq_some_iff.mp run
      obtain ⟨w, hw, effect⟩ := step_effect (g := g) sound allowed
      obtain rfl := Option.some.inj (hu.symm.trans hw)
      simpa [received] using ih rest (.effect effect) (account.effect effect)
    · cases run

theorem Sound.no_lines {r : Reader} (h : r.Sound) (waiting : r.Waiting) :
    Session.lines r.held = [] := by
  have free : Stream.cut delimiter [] r.held = none := by
    unfold Sound at h
    unfold Waiting at waiting
    cases hs : r.state with
    | reading op n =>
      rw [hs] at h waiting
      obtain ⟨pending, data, max⟩ := h
      have nothing := (pending.more waiting).1
      rw [data, max] at nothing
      exact cut_of_verdict nothing
    | called =>
      rw [hs] at h
      exact h.2
  exact congrArg Prod.fst (Stream.pieces_of_no_cut free)

def apartReads : List Asio.Read :=
  [⟨.success, [0x61, cr]⟩, ⟨.success, [lf, 0x62, cr, lf, 0x63]⟩, ⟨.success, []⟩]

/-- From the stream buffer of a new connection: nothing ever throws, the buffers posted are
the lines received in order, and when the next read is waited for they are all of them. -/
theorem posts_lines (g : Growth) :
    ∃ r₀, start g = some r₀ ∧
      ∀ xs r, Machine.exec (step g) Allowed xs r₀ = some r →
        r.posted ++ (Session.lines r.held).map terminated =
          (Session.lines (received xs)).map terminated ∧
        Session.unterminated r.held = Session.unterminated (received xs) ∧
        (r.Waiting → r.posted = (Session.lines (received xs)).map terminated) ∧
        ∀ x, r.Allowed x → (r.step g x).isSome := by
  obtain ⟨st, start, holds⟩ := start_spec g
  refine ⟨_, start, fun xs r run => ?_⟩
  have sound := run_sound run (.of_holds holds)
  have nothing : Accounted [] ⟨st, []⟩ :=
    ⟨[], rfl, fun p hp => absurd hp List.not_mem_nil, held_of_holds holds⟩
  obtain ⟨lines, tail⟩ := (run_accounted run (.of_holds holds) nothing).lines
  refine ⟨lines, tail.symm, fun waiting => ?_, fun x allowed => ?_⟩
  · rwa [sound.no_lines waiting, List.map_nil, List.append_nil] at lines
  · obtain ⟨w, hw, -⟩ := step_effect (g := g) sound allowed
    exact Option.isSome_of_mem hw

theorem posts_lines_apart :
    ∃ r₀ r, start Streambuf.exactly = some r₀ ∧
      Machine.exec (step Streambuf.exactly) Allowed apartReads r₀ = some r ∧
      r.posted = (Session.lines (received apartReads)).map terminated ∧
      r.posted = [[0x61, cr, lf, nul, nul], [0x62, cr, lf, nul, nul]] := by
  obtain ⟨r₀, h₀, run⟩ := posts_lines Streambuf.exactly
  have runs : ((start Streambuf.exactly).bind
      (Machine.exec (step Streambuf.exactly) Allowed apartReads)).map
        (fun r => (r.posted, decide r.Waiting)) =
      some ([[0x61, cr, lf, nul, nul], [0x62, cr, lf, nul, nul]], true) := by decide +kernel
  rw [h₀, Option.bind_some] at runs
  obtain ⟨r, hr, view⟩ := Option.map_eq_some_iff.mp runs
  obtain ⟨posted, waiting⟩ := Prod.mk.inj view
  exact ⟨r₀, r, h₀, hr, (run _ r hr).2.2.1 (of_decide_eq_true waiting), posted⟩

/-! The same reads at the session, which knows of chunks and bytes alone. -/

def sends (x : Asio.Read) : List Incoming :=
  match x.error with
  | .success => if x.bytes = [] then [] else [.data x.bytes]
  | .eof => [.eof]
  | .operationAborted | .badDescriptor => []
  | .other => [.error]

/-- A connected session that reads, with these bytes in its stream buffer. -/
def reads (table : Callbacks) (input : Bytes) (parsed : List Bytes) (wire : List Incoming) :
    Session :=
  ⟨table, false, true, some table, .connected, input, some .read, [], .idle, wire,
    .signalConnect :: parsed.map .parse, none⟩

/-- The session whose reading side this is. -/
def session (table : Callbacks) (r : Reader) (wire : List Incoming) : Session :=
  match r.state with
  | .reading .. => reads table r.held r.posted wire
  | .called _ .operationAborted _ => (reads table r.held r.posted wire).disconnect true
  | .called _ ec _ =>
    { reads table r.held r.posted wire with
      op := none, queue := [.onRead ec 0],
      socket := if ec = .other then .reset else .connected }

section simulation
variable {table : Callbacks} {q p rest u : Bytes} {parsed : List Bytes} {wire : List Incoming}

theorem session_of_holds {m : Nat} {st : ReadState} (h : Asio.Holds delimiter m q st) :
    session table ⟨st, parsed⟩ wire = reads table q parsed wire := by
  cases st with
  | reading op n => exact congrArg (reads table · parsed wire) h.2.1
  | called => exact h.elim

theorem exec_receive (free : Stream.cut delimiter [] q = none) :
    Machine.exec Session.step Machine.free [.receive] (reads table q parsed (.data u :: wire)) =
      some (reads table (q ++ u) parsed wire) := by
  simp [Machine.exec, Machine.free, Session.step, Session.act, Session.receive, reads, free]

theorem exec_line (cut : Stream.cut delimiter [] q = some (p, rest)) (short : p.length + 2 < 2 ^ 31) :
    Machine.exec Session.step Machine.free [.complete, .dispatch, .proceed, .proceed, .dispatch]
        (reads table q parsed wire) =
      some (reads table rest (parsed ++ [terminated p]) wire) := by
  have split : q = p ++ rest := Stream.cut_eq cut
  subst split
  simp [Machine.exec, Machine.free, Session.step, Session.act, Session.dispatch, Session.proceed,
    Session.runTask, Session.onRead, Session.readMessage, Session.threadParse,
    Session.asyncReadUntil, reads, cut, readBuffer_eq short]

theorem exec_fail {error : ErrorCode} {sb : Streambuf} (free : Stream.cut delimiter [] q = none)
    (fails : error ≠ .success) (opened : error ≠ .badDescriptor) (data : sb.data = q) :
    ∃ acts, Machine.exec Session.step Machine.free acts
        (reads table q parsed (sends ⟨error, []⟩ ++ wire)) =
      some (session table ⟨.called sb error 0, parsed⟩ wire) := by
  subst data
  cases error with
  | success => exact absurd rfl fails
  | badDescriptor => exact absurd rfl opened
  | eof | other =>
    refine ⟨[.receive], ?_⟩
    simp [Machine.exec, Machine.free, Session.step, Session.act, Session.receive, reads, free,
      sends, session, held]
  | operationAborted =>
    refine ⟨[.disconnect true], ?_⟩
    simp [Machine.exec, Machine.free, Session.step, Session.act, reads, sends, session, held,
      Session.disconnect, Session.shuts, Session.abort]

theorem simulates_step (table : Callbacks) (wire : List Incoming) {r r' : Reader} {x : Asio.Read}
    (sound : r.Sound) (allowed : r.Allowed x) (opened : x.error ≠ .badDescriptor)
    (effect : Effect r x r') :
    ∃ acts, Machine.exec Session.step Machine.free acts (r.session table (sends x ++ wire)) =
      some (r'.session table wire) := by
  have holds := sound.holds allowed.1
  rw [show r = ⟨r.state, r.posted⟩ from rfl, session_of_holds holds]
  cases effect with
  | failed sb fails none_ free data =>
    have bare : sends x = sends ⟨x.error, []⟩ := by rw [← none_]
    rw [bare]
    exact exec_fail free fails opened data
  | line st p rest success cut short next =>
    rw [session_of_holds next]
    by_cases none_ : x.bytes = []
    · rw [none_, List.append_nil] at cut
      have nothing : sends x = [] := by simp [sends, success, none_]
      exact ⟨_, by rw [nothing, List.nil_append]; exact exec_line cut short⟩
    · have free := cut_of_verdict (Asio.verdict_of_waiting holds allowed.1 (.inr none_))
      have chunk : sends x = [.data x.bytes] := by simp [sends, success, none_]
      rw [chunk]
      exact ⟨_, Machine.exec_trans (exec_receive free) (exec_line cut short)⟩
  | more st success free next =>
    rw [session_of_holds next]
    by_cases none_ : x.bytes = []
    · have nothing : sends x = [] := by simp [sends, success, none_]
      exact ⟨[], by rw [nothing, none_, List.append_nil]; rfl⟩
    · have before := cut_of_verdict (Asio.verdict_of_waiting holds allowed.1 (.inr none_))
      have chunk : sends x = [.data x.bytes] := by simp [sends, success, none_]
      exact ⟨[.receive], chunk ▸ exec_receive before⟩

end simulation

theorem simulates_run {g : Growth} (table : Callbacks) {xs : List Asio.Read} {r r' : Reader}
    (sound : r.Sound) (opened : ∀ x ∈ xs, x.error ≠ .badDescriptor)
    (run : Machine.exec (step g) Allowed xs r = some r') (wire : List Incoming) :
    ∃ acts, Machine.exec Session.step Machine.free acts
      (r.session table (xs.flatMap sends ++ wire)) = some (r'.session table wire) := by
  induction xs generalizing r with
  | nil =>
    obtain rfl := Option.some.inj run
    exact ⟨[], rfl⟩
  | cons x xs ih =>
    rw [Machine.exec] at run
    split at run
    · next allowed =>
      obtain ⟨u, hu, rest⟩ := Option.bind_eq_some_iff.mp run
      obtain ⟨w, hw, effect⟩ := step_effect (g := g) sound allowed
      obtain rfl := Option.some.inj (hu.symm.trans hw)
      obtain ⟨first, later⟩ := List.forall_mem_cons.mp opened
      obtain ⟨as, has⟩ := simulates_step table (xs.flatMap sends ++ wire) sound allowed first effect
      obtain ⟨bs, hbs⟩ := ih (.effect effect) later rest
      rw [List.flatMap_cons, List.append_assoc]
      exact ⟨_, Machine.exec_trans has hbs⟩
    · cases run

/-- What the session shows of its reading side. -/
structure Shows (r : Reader) (wire : List Incoming) (s : Session) : Prop where
  input : s.input = r.held
  buffers : s.buffers = r.posted
  wire : s.wire = wire
  fault : s.fault = none
  operation : match r.state with
    | .reading .. => s.op = some .read
    | .called _ ec _ => s.op = none ∧ .onRead ec 0 ∈ s.queue

section shows
variable {table : Callbacks} {q p rest u : Bytes} {parsed : List Bytes} {wire : List Incoming}

theorem handed_reads :
    (reads table q parsed wire).events.filterMap Event.buffer? = parsed := by
  have all : (parsed.map Event.parse).filterMap Event.buffer? = parsed.filterMap some := by
    rw [List.filterMap_map]
    rfl
  rw [List.filterMap_some] at all
  exact all

theorem session_shows {r : Reader} (sound : r.Sound) : Shows r wire (r.session table wire) := by
  obtain ⟨st, posted⟩ := r
  have handed : (reads table (held ⟨st, posted⟩) posted wire).events.filterMap Event.buffer? =
    posted := handed_reads
  cases st with
  | reading op n => exact ⟨rfl, (List.append_nil _).trans handed, rfl, rfl, rfl⟩
  | called sb ec n =>
    cases ec with
    | success => exact absurd rfl sound.1
    | operationAborted => exact ⟨rfl, (List.append_nil _).trans handed, rfl, rfl, rfl, by
        simp [session, Session.disconnect, Session.shuts, reads, Session.abort, Session.aborted]⟩
    | _ => exact ⟨rfl, (List.append_nil _).trans handed, rfl, rfl, rfl, by simp [session]⟩

def closed (s : Session) (queue : List Task) : Session :=
  { s with op := none, socket := .closed, queue := .onRead .badDescriptor 0 :: queue }

theorem exec_closed_chunk (before : Stream.cut delimiter [] q = none)
    (free : Stream.cut delimiter [] (q ++ u) = none) :
    Machine.exec Session.step Machine.free [.disconnectBehind]
        (reads table q parsed (.data u :: wire)) =
      some (closed (reads table (q ++ u) parsed wire) []) := by
  simp [Machine.exec, Machine.free, Session.step, Session.act, Session.disconnectBehind, reads,
    before, free, closed]

theorem exec_closed_line (cut : Stream.cut delimiter [] q = some (p, rest))
    (short : p.length + 2 < 2 ^ 31) :
    Machine.exec Session.step Machine.free
        [.complete, .dispatch, .disconnect true, .proceed, .proceed] (reads table q parsed wire) =
      some (closed (reads table rest parsed wire) [.threadParse (terminated p)]) := by
  have split : q = p ++ rest := Stream.cut_eq cut
  subst split
  simp [Machine.exec, Machine.free, Session.step, Session.act, Session.dispatch, Session.proceed,
    Session.runTask, Session.onRead, Session.readMessage, Session.disconnect, Session.shuts,
    Session.abort, Session.asyncReadUntil, reads, cut, readBuffer_eq short, closed]

theorem exec_first (connects : table.has .connect = true) :
    Machine.exec Session.step Machine.free
        [.copyCallbacks, .resolved true, .dispatch, .connected true, .dispatch, .proceed]
        (Session.fresh table false wire) = some (reads table [] [] wire) ∧
      Machine.exec Session.step Machine.free
        [.copyCallbacks, .resolved true, .dispatch, .connected true, .dispatch, .disconnect true,
          .proceed]
        (Session.fresh table false wire) = some (closed (reads table [] [] wire) []) := by
  simp [Machine.exec, Machine.free, Session.step, Session.act, Session.fresh, Session.dispatch,
    Session.proceed, Session.runTask, Session.onResolve, Session.connectOp, Session.onConnect,
    Session.signal,
    Session.code, Session.disconnect, Session.shuts, Session.abort, Session.asyncReadUntil,
    connects, reads, closed]

theorem closed_shows {sb : Streambuf} {queue : List Task} {posted : List Bytes}
    (data : sb.data = q) (all : parsed ++ queue.filterMap Task.buffer? = posted) :
    Shows ⟨.called sb .badDescriptor 0, posted⟩ wire (closed (reads table q parsed wire) queue) where
  input := data.symm
  buffers := by
    have handed : (reads table q parsed wire).events.filterMap Event.buffer? = parsed :=
      handed_reads
    show _ ++ (queue.filterMap Task.buffer? ++ []) = posted
    rw [List.append_nil, ← all]
    exact congrArg (· ++ _) handed
  wire := rfl
  fault := rfl
  operation := ⟨rfl, List.mem_cons_self ..⟩

end shows

theorem bytes_ne_nil {r : Reader} {x : Asio.Read} (sound : r.Sound) (allowed : r.Allowed x)
    (success : x.error = .success) (free : Stream.cut delimiter [] (r.held ++ x.bytes) = none) :
    x.bytes ≠ [] := by
  intro nothing
  have short := allowed.2
  rw [nothing, List.append_nil] at free
  have unsaid := verdict_of_no_cut free (by omega)
  obtain ⟨st, posted⟩ := r
  cases st with
  | called => exact allowed.1.elim
  | reading op n =>
    obtain ⟨pending, -, max⟩ := sound.holds allowed.1
    have fills := allowed.1.1.2
    rw [if_pos success] at fills
    obtain ⟨said, hs, -⟩ := pending.ready (fills nothing)
    rw [max] at hs
    cases unsaid.symm.trans hs

theorem simulates_close (table : Callbacks) (wire : List Incoming) {r r' : Reader} {x : Asio.Read}
    {sb : Streambuf} (sound : r.Sound) (allowed : r.Allowed x) (effect : Effect r x r')
    (success : x.error = .success) (data : sb.data = r'.held) :
    ∃ acts s, Machine.exec Session.step Machine.free acts (r.session table (sends x ++ wire)) =
        some s ∧ Shows ⟨.called sb .badDescriptor 0, r'.posted⟩ wire s := by
  have holds := sound.holds allowed.1
  rw [show r = ⟨r.state, r.posted⟩ from rfl, session_of_holds holds]
  cases effect with
  | failed _ fails => exact absurd success fails
  | line st p rest _ cut short next =>
    have shows : Shows ⟨.called sb .badDescriptor 0, r.posted ++ [terminated p]⟩ wire
        (closed (reads table rest r.posted wire) [.threadParse (terminated p)]) :=
      closed_shows (data.trans (held_of_holds next)) rfl
    by_cases none_ : x.bytes = []
    · rw [none_, List.append_nil] at cut
      have nothing : sends x = [] := by simp [sends, success, none_]
      exact ⟨_, _, by rw [nothing, List.nil_append]; exact exec_closed_line cut short, shows⟩
    · have free := cut_of_verdict (Asio.verdict_of_waiting holds allowed.1 (.inr none_))
      have chunk : sends x = [.data x.bytes] := by simp [sends, success, none_]
      rw [chunk]
      exact ⟨_, _, Machine.exec_trans (exec_receive free) (exec_closed_line cut short), shows⟩
  | more st _ free next =>
    have some_ := bytes_ne_nil sound allowed success free
    have before := cut_of_verdict (Asio.verdict_of_waiting holds allowed.1 (.inr some_))
    have chunk : sends x = [.data x.bytes] := by simp [sends, success, some_]
    rw [chunk]
    exact ⟨_, _, exec_closed_chunk before free,
      closed_shows (data.trans (held_of_holds next)) (List.append_nil r.posted)⟩

theorem exec_last {g : Growth} {xs : List Asio.Read} {x : Asio.Read} {r r' : Reader}
    (run : Machine.exec (step g) Allowed (xs ++ [x]) r = some r') :
    ∃ u, Machine.exec (step g) Allowed xs r = some u ∧ u.Allowed x ∧ u.step g x = some r' := by
  rw [Machine.exec_append] at run
  obtain ⟨u, hu, last⟩ := Option.bind_eq_some_iff.mp run
  rw [Machine.exec] at last
  split at last
  · next allowed =>
    obtain ⟨v, hv, rest⟩ := Option.bind_eq_some_iff.mp last
    obtain rfl := Option.some.inj rest
    exact ⟨u, hu, allowed, hv⟩
  · cases last

theorem success_of_run {g : Growth} {xs : List Asio.Read} {r u : Reader} (sound : r.Sound)
    (run : Machine.exec (step g) Allowed xs r = some u) {x : Asio.Read} (next : u.Allowed x) :
    ∀ y ∈ xs, y.error = .success := by
  induction xs generalizing r with
  | nil => exact fun y hy => absurd hy List.not_mem_nil
  | cons z zs ih =>
    rw [Machine.exec] at run
    split at run
    · next allowed =>
      obtain ⟨v, hv, rest⟩ := Option.bind_eq_some_iff.mp run
      obtain ⟨w, hw, effect⟩ := step_effect (g := g) sound allowed
      obtain rfl := Option.some.inj (hv.symm.trans hw)
      refine List.forall_mem_cons.mpr ⟨?_, ih (.effect effect) rest⟩
      cases effect with
      | failed sb fails none_ cut data =>
        -- nothing more is allowed then
        cases zs with
        | nil =>
          obtain rfl := Option.some.inj rest
          exact next.1.elim
        | cons y ys =>
          rw [Machine.exec, if_neg fun more => more.1.elim] at rest
          cases rest
      | line _ _ _ success | more _ success => exact success
    · cases run

/-- Every run on the stream buffer is a run of the session, from `cq_irc_session_connect` on
and with what the peer has sent for the reads. A read of a closed socket is one behind which
the application has closed the session. -/
theorem refines_session (g : Growth) {table : Callbacks} (connects : table.has .connect = true) :
    ∃ r₀, start g = some r₀ ∧
      ∀ xs r, Machine.exec (step g) Allowed xs r₀ = some r → ∀ wire, ∃ acts s,
        Machine.exec Session.step Machine.free acts
          (Session.fresh table false (xs.flatMap sends ++ wire)) = some s ∧ Shows r wire s := by
  obtain ⟨st, start, holds⟩ := start_spec g
  have sound : Sound ⟨st, []⟩ := .of_holds holds
  have plain (xs : List Asio.Read) (r : Reader) (opened : ∀ x ∈ xs, x.error ≠ .badDescriptor)
      (run : Machine.exec (step g) Allowed xs ⟨st, []⟩ = some r) (wire : List Incoming) :
      ∃ acts, Machine.exec Session.step Machine.free acts
        (Session.fresh table false (xs.flatMap sends ++ wire)) = some (r.session table wire) := by
    obtain ⟨acts, hacts⟩ := simulates_run table sound opened run wire
    rw [session_of_holds holds] at hacts
    exact ⟨_, Machine.exec_trans (exec_first connects).1 hacts⟩
  refine ⟨_, start, fun xs r run wire => ?_⟩
  rcases List.eq_nil_or_concat xs with rfl | ⟨ys, x, rfl⟩
  · obtain ⟨acts, hacts⟩ := plain [] r (by simp) run wire
    exact ⟨acts, _, hacts, session_shows (run_sound run sound)⟩
  rw [List.concat_eq_append] at run ⊢
  obtain ⟨u, hu, allowed, hx⟩ := exec_last run
  have good := success_of_run sound hu allowed
  by_cases bad : x.error = .badDescriptor
  · obtain ⟨w, hw, effect⟩ := step_effect (g := g) (run_sound hu sound) allowed
    obtain rfl := Option.some.inj (hx.symm.trans hw)
    have nothing : sends x = [] := by simp [sends, bad]
    rw [List.flatMap_append, List.flatMap_singleton, nothing, List.append_nil]
    cases effect with
    | line _ _ _ success | more _ success =>
      rw [bad] at success
      cases success
    | failed sb _ _ _ data =>
      rw [bad]
      rcases List.eq_nil_or_concat ys with rfl | ⟨zs, z, rfl⟩
      · obtain rfl := Option.some.inj hu
        exact ⟨_, _, (exec_first connects).2,
          closed_shows (data.trans (held_of_holds holds)) rfl⟩
      · rw [List.concat_eq_append] at hu good ⊢
        obtain ⟨v, hv, before, hz⟩ := exec_last hu
        obtain ⟨w, hw, effect⟩ := step_effect (g := g) (run_sound hv sound) before
        obtain rfl := Option.some.inj (hz.symm.trans hw)
        have opened : ∀ y ∈ zs, y.error ≠ .badDescriptor := fun y hy => by
          simp [good y (List.mem_append_left _ hy)]
        obtain ⟨as, has⟩ := plain zs v opened hv (sends z ++ wire)
        obtain ⟨bs, s, hbs, shows⟩ := simulates_close table wire (run_sound hv sound) before effect
          (good z (by simp)) data
        rw [List.flatMap_append, List.flatMap_singleton, List.append_assoc]
        exact ⟨_, s, Machine.exec_trans has hbs, shows⟩
  · have opened : ∀ y ∈ ys ++ [x], y.error ≠ .badDescriptor := by
      intro y hy
      rcases List.mem_append.mp hy with old | new
      · simp [good y old]
      · rwa [List.mem_singleton.mp new]
    obtain ⟨acts, hacts⟩ := plain _ r opened run wire
    exact ⟨acts, _, hacts, session_shows (run_sound run sound)⟩

def closedReads : List Asio.Read := apartReads ++ [⟨.success, [0x64]⟩, ⟨.badDescriptor, []⟩]

theorem refines_session_closed :
    ∃ r₀ r acts s, start Streambuf.exactly = some r₀ ∧
      Machine.exec (step Streambuf.exactly) Allowed closedReads r₀ = some r ∧
      Machine.exec Session.step Machine.free acts (Session.fresh .full false
        [.data [0x61, cr], .data [lf, 0x62, cr, lf, 0x63], .data [0x64]]) = some s ∧
      Shows r [] s := by
  have connects : Callbacks.full.has .connect = true := rfl
  obtain ⟨r₀, h₀, run⟩ := refines_session Streambuf.exactly connects
  have runs : ((start Streambuf.exactly).bind
      (Machine.exec (step Streambuf.exactly) Allowed closedReads)).isSome := by decide +kernel
  rw [h₀, Option.bind_some] at runs
  obtain ⟨r, hr⟩ := Option.isSome_iff_exists.mp runs
  obtain ⟨acts, s, hacts, shows⟩ := run _ r hr []
  exact ⟨r₀, r, acts, s, h₀, hr, hacts, shows⟩

end Reader
end CqIrc
