import CqIrc.Startup

/-! Callbacks that the application leaves NULL. The macros of the scanner test an entry
when the command word selects it, so a NULL one ends the scan; `on_connect` and `on_read`
call theirs without a test. -/

namespace CqIrc
open Flex

section scanner
variable {cb : Callbacks} {g : Bool} {line : Bytes} {e : Exit} {f : Signal}

theorem Phase.target_of_eventSignal {p : Phase} (h : p.eventSignal = some f) :
    p.target? = some (.event f) := by
  unfold eventSignal at h
  split at h
  · next same =>
    cases h
    exact same
  · cases h

theorem Phase.target_of_extraEventSignal {p : Phase} (h : p.extraEventSignal = some f) :
    f = .unknown ∧ ∃ w, p.target? = some (.extra w) := by
  unfold extraEventSignal at h
  split at h
  · next same =>
    cases h
    exact ⟨rfl, _, same⟩
  · cases h

theorem State.Selects.target {s : State} {b : Scan} (h : s.Selects f)
    (hs : step cb s = .next (b.state g)) : ∃ t, b.phase.target? = some t ∧ t.signal = f := by
  obtain ⟨n, h | ⟨h, rfl⟩⟩ := h
  · rw [h.step, action, eventTest] at hs
    split at hs
    · have selected := congrArg State.eventSignal (Outcome.next.inj hs)
      exact ⟨_, Phase.target_of_eventSignal selected.symm, rfl⟩
    · cases hs
  · rw [h.step, action, eventTestExtra] at hs
    split at hs
    · have selected := congrArg State.extraEventSignal (Outcome.next.inj hs)
      obtain ⟨-, w, same⟩ := Phase.target_of_extraEventSignal selected.symm
      exact ⟨_, same, rfl⟩
    · cases hs

theorem signal_of_ret {b : Scan} (h : step cb (b.state g) = .ret e) {i : Invocation}
    (call : i ∈ e.calls) : ∃ t, b.phase.target? = some t ∧ t.signal = i.signal := by
  obtain ⟨res, turn, out⟩ := step_turn cb g b
  rw [h] at out
  cases res with
  | next | fault => cases out
  | ret e' =>
    obtain rfl := Outcome.ret.inj out
    cases turn with
    | eof | missing => cases call
    | @crlf t => exact ⟨t, rfl, congrArg Invocation.signal (List.mem_singleton.mp call).symm⟩

theorem yylex_calls_has (he : yylex cb g line = some (.ok e)) {i : Invocation}
    (call : i ∈ e.calls) : cb.has i.signal = true := by
  obtain ⟨s, t, reach, phase, rfl⟩ := (runs_of_yylex he).called call
  exact reach.has (by rw [phase]; rfl)

theorem calls_of_selects {s : State} (hs : Steps cb (begin g line) s) (h : s.Selects f)
    (he : yylex cb g line = some (.ok e)) {i : Invocation} (call : i ∈ e.calls) : i.signal = f := by
  obtain ⟨m, rest⟩ := run_rest hs he
  obtain ⟨a, rfl, -⟩ := reaches_of_begin hs
  obtain ⟨s', steps, ⟨e', same, last⟩ | ⟨f, same, -⟩⟩ := run_last rest
  · obtain rfl := Except.ok.inj same
    rcases steps.cases_head with rfl | ⟨c, next, steps⟩
    · -- a command word is read before anything is selected
      obtain ⟨t, ht, -⟩ := signal_of_ret last call
      have settled := Phase.start_of_target ht g
      exact (h.start.elim settled.1 settled.2.1).elim
    · obtain ⟨b, rfl, -⟩ := reaches_of_steps (.single next)
      obtain ⟨d, rfl, reach⟩ := reaches_of_steps steps
      obtain ⟨t, ht, signal⟩ := h.target next
      obtain ⟨t', ht', signal'⟩ := signal_of_ret last call
      obtain rfl := Option.some.inj ((reach.target ht).symm.trans ht')
      exact signal'.symm.trans signal
  · cases same

/-- A table with NULL entries skips the message of the full one if its entry is NULL, and
otherwise delivers it. -/
theorem yylex_skips (he : yylex .full g line = some (.ok e)) (cb : Callbacks) :
    ∃ e', yylex cb g line = some (.ok e') ∧
      e'.calls = e.calls.filter fun i => cb.has i.signal := by
  obtain ⟨r, hr, -⟩ := yylex_runs cb g line
  obtain ⟨s, hs, last⟩ := run_last hr
  have full : Steps .full (begin g line) s :=
    Relation.ReflTransGen.mono (fun _ _ next => step_full_next next) _ _ hs
  obtain ⟨m, rest⟩ := run_rest full he
  rcases last with ⟨e', rfl, ret⟩ | ⟨f, rfl, fault⟩
  · refine ⟨e', hr, ?_⟩
    by_cases code : e'.code = 1
    · obtain ⟨f, selects, missing⟩ := selects_of_one ret code
      have silent : e'.calls = [] := by
        rcases exit_calls hs ret with ⟨zero, -⟩ | ⟨-, calls⟩ | ⟨-, calls⟩
        · rw [code] at zero
          cases zero
        · exact calls
        · exact calls
      refine silent.trans (List.filter_eq_nil_iff.mpr fun i call => ?_).symm
      rw [calls_of_selects full selects he call, missing]
      exact Bool.false_ne_true
    · rw [run, step_full_ret ret code] at rest
      obtain rfl := Except.ok.inj (Option.some.inj rest)
      exact (List.filter_eq_self.mpr fun i call => yylex_calls_has hr call).symm
  · rw [run, step_full_fault fault] at rest
    cases rest

end scanner

namespace Session
open Machine
variable {table : Callbacks} {s t : Session}

def retable (table : Callbacks) (s : Session) : Session :=
  { s with table := table, callbacks := s.callbacks.map fun _ => table }

def untested (s : Session) : Task → Option Signal
  | .onConnect .success => if s.socket = .closed then none else some .connect
  | .onRead .eof _ => some .disconnect
  | .onRead .operationAborted _ => if s.socket = .closed then some .disconnect else none
  | _ => none

theorem untested_cases {f : Signal} {task : Task} (h : f ∈ s.untested task) :
    f = .connect ∨ f = .disconnect := by
  unfold untested at h
  split at h
  · split at h
    · cases h
    · exact .inl (Option.some.inj h).symm
  · exact .inr (Option.some.inj h).symm
  · split at h
    · exact .inr (Option.some.inj h).symm
    · cases h
  · cases h

/-- An entry that the step calls without a test is NULL in neither table or in both. -/
def Agrees (table : Callbacks) (s : Session) (a : Act) : Prop :=
  a = .dispatch → s.alive = true → ∀ cb ∈ s.callbacks, ∀ task ∈ s.queue.head?,
    ∀ f ∈ s.untested task, cb.has f = table.has f

def Present (s : Session) : Act → Prop
  | .dispatch => s.alive = true → ∀ cb ∈ s.callbacks, ∀ task ∈ s.queue.head?,
      ∀ f ∈ s.untested task, cb.has f = true
  | _ => True

instance (s : Session) : (a : Act) → Decidable (s.Present a)
  | .dispatch => inferInstanceAs (Decidable (_ → ∀ cb ∈ _, ∀ task ∈ _, ∀ f ∈ _, _ = _))
  | .copyCallbacks | .resolved _ | .connected _ | .reset | .receive | .complete | .proceed
  | .disconnect _ | .disconnectBehind => inferInstanceAs (Decidable True)

theorem present_iff {a : Act} : s.Present a ↔ Agrees .full s a := by
  simp only [Agrees, Callbacks.full_has]
  cases a with
  | dispatch => exact ⟨fun present _ => present, fun present => present rfl⟩
  | _ => exact iff_of_true trivial nofun

theorem abort_retable (s : Session) : (s.retable table).abort = s.abort.retable table := by
  cases hop : s.op with
  | none | some => simp [abort, retable, hop]

theorem destroy_retable (s : Session) : (s.retable table).destroy = s.destroy.retable table := by
  rw [destroy, abort_retable]
  rfl

theorem disconnect_retable (s : Session) (pending : Bool) :
    (s.retable table).disconnect pending = (s.disconnect pending).retable table := by
  have same : (s.retable table).shuts pending = s.shuts pending := rfl
  unfold Session.disconnect
  rw [same, abort_retable]
  split <;> rfl

theorem disconnectBehind_retable (s : Session) :
    (s.retable table).disconnectBehind = s.disconnectBehind.map (retable table) := by
  have wire : (s.retable table).wire = s.wire := rfl
  have input : (s.retable table).input = s.input := rfl
  unfold Session.disconnectBehind
  rw [wire, input]
  split
  · split <;> rfl
  · rfl

theorem asyncReadUntil_retable (s : Session) :
    (s.retable table).asyncReadUntil = s.asyncReadUntil.retable table := by
  unfold asyncReadUntil
  change (if s.socket = .closed then _ else _) = _
  split <;> rfl

theorem readMessage_retable (s : Session) (n : Nat) :
    (s.retable table).readMessage n = (s.readMessage n).retable table := by
  cases hb : readBuffer s.input n with
  | none | some => simp [readMessage, retable, hb]

theorem signal_retable {f : Signal} (e : Event)
    (agree : ∀ cb ∈ s.callbacks, cb.has f = table.has f) :
    (s.retable table).signal f e = (s.signal f e).retable table := by
  cases hc : s.callbacks with
  | none => simp [signal, retable, hc]
  | some cb => simp [signal, retable, hc, agree cb hc]

theorem signalDisconnect_retable
    (agree : ∀ cb ∈ s.callbacks, cb.has .disconnect = table.has .disconnect) :
    (s.retable table).signalDisconnect = s.signalDisconnect.retable table := by
  have signalled := signal_retable .signalDisconnect agree
  unfold signalDisconnect
  rw [signalled]
  have same : ((s.signal .disconnect .signalDisconnect).retable table).destroys =
      (s.signal .disconnect .signalDisconnect).destroys := rfl
  have fault : ((s.signal .disconnect .signalDisconnect).retable table).fault =
      (s.signal .disconnect .signalDisconnect).fault := rfl
  simp only [same, fault]
  split
  · exact destroy_retable _
  · rfl

theorem runTask_retable {task : Task}
    (agree : ∀ cb ∈ s.callbacks, ∀ f ∈ s.untested task, cb.has f = table.has f) :
    (s.retable table).runTask task = (s.runTask task).retable table := by
  cases task with
  | onResolve error => cases error <;> rfl
  | onConnect error =>
    have socket : (s.retable table).socket = s.socket := rfl
    simp only [runTask, connectOp, socket]
    split
    · rfl
    · next opened =>
      cases error with
      | success =>
        have signalled := signal_retable .signalConnect fun cb hc =>
          agree cb hc .connect (if_neg opened)
        change { (s.retable table).signal .connect .signalConnect with frame := .onConnect } = _
        rw [signalled]
        rfl
      | _ => rfl
  | onRead error n =>
    cases error with
    | eof => exact signalDisconnect_retable fun cb hc => agree cb hc .disconnect rfl
    | success => exact s.readMessage_retable n
    | operationAborted =>
      have socket : (s.retable table).socket = s.socket := rfl
      simp only [runTask, onRead, socket]
      split
      · next closed =>
        exact signalDisconnect_retable fun cb hc => agree cb hc .disconnect (if_pos closed)
      · exact s.readMessage_retable n
    | _ => rfl
  | threadParse buf =>
    cases hc : s.callbacks with
    | none | some => simp [runTask, threadParse, retable, hc]

theorem receive_retable (s : Session) :
    (s.retable table).receive = s.receive.map (retable table) := by
  cases hw : s.wire with
  | nil => simp [Session.receive, retable, hw]
  | cons x wire => cases x <;> simp [Session.receive, retable, hw]

theorem proceed_retable (s : Session) :
    (s.retable table).proceed = s.proceed.map (retable table) := by
  have started (f : Frame) : ({ (s.retable table).asyncReadUntil with frame := f } : Session) =
      retable table { s.asyncReadUntil with frame := f } := by
    rw [asyncReadUntil_retable]
    rfl
  have same : (s.retable table).frame = s.frame := rfl
  cases hf : s.frame <;> simp only [Session.proceed, same, hf, started] <;> rfl

theorem dispatch_retable (agree : Agrees table s .dispatch) :
    (s.retable table).dispatch = s.dispatch.map (retable table) := by
  have same : (s.retable table).frame = s.frame := rfl
  have queued : (s.retable table).queue = s.queue := rfl
  cases hf : s.frame with
  | idle =>
    cases hq : s.queue with
    | nil => simp only [Session.dispatch, same, queued, hf, hq, Option.map_none]
    | cons task queue =>
      have lives : (s.retable table).alive = s.alive := rfl
      simp only [Session.dispatch, same, queued, hf, hq, Option.map_some, lives]
      by_cases alive : s.alive = true
      · rw [if_pos alive, if_pos alive]
        refine congrArg some (runTask_retable (s := { s with queue := queue, frame := .idle }) ?_)
        exact fun cb hc f hf => agree rfl alive cb hc task (by rw [hq]; rfl) f hf
      · rw [if_neg alive, if_neg alive]
        rfl
  | _ => simp only [Session.dispatch, same, hf, Option.map_none]

/-- Nothing but the untested entries matters to a session. -/
theorem step_retable {a : Act} (agree : Agrees table s a) :
    step a (s.retable table) = (step a s).map (retable table) := by
  have op : (s.retable table).op = s.op := rfl
  have input : (s.retable table).input = s.input := rfl
  have fault : (s.retable table).fault = s.fault := rfl
  have alive : (s.retable table).alive = s.alive := rfl
  have callbacks : (s.retable table).callbacks = none ↔ s.callbacks = none :=
    Option.map_eq_none_iff
  unfold step
  rw [fault]
  split
  · cases a with
    | copyCallbacks | resolved ok | connected ok =>
      simp only [act, op, callbacks]
      split <;> rfl
    | receive =>
      simp only [act, op, input]
      split
      · exact s.receive_retable
      · rfl
    | complete =>
      simp only [act, op, input]
      split
      · simp only [Option.map_map]
        rfl
      · rfl
    | dispatch => exact dispatch_retable agree
    | proceed => exact s.proceed_retable
    | reset =>
      have socket : (s.retable table).socket = s.socket := rfl
      have wire : (s.retable table).wire = s.wire := rfl
      simp only [act, socket, wire]
      split <;> rfl
    | disconnect pending =>
      simp only [act, alive, Ne, callbacks]
      split
      · exact congrArg some (s.disconnect_retable pending)
      · rfl
    | disconnectBehind =>
      have socket : (s.retable table).socket = s.socket := rfl
      simp only [act, alive, Ne, callbacks, socket, op, input]
      split
      · exact s.disconnectBehind_retable
      · rfl
  · rfl

theorem step_callbacks {a : Act} (h : step a s = some t) :
    t.table = s.table ∧ (t.callbacks = s.callbacks ∨ t.callbacks = some s.table) := by
  obtain ⟨-, move⟩ := step_move h
  by_cases hd : a = .dispatch
  · subst hd
    cases move with
    | freed => exact ⟨rfl, .inl rfl⟩
    | task => exact ⟨(runTask_handled _ _).table, .inl (runTask_handled _ _).callbacks⟩
  · exact ⟨(move.outside hd).1, (move.outside hd).2.1⟩

def Given (cb : Callbacks) (s : Session) : Prop :=
  s.table = cb ∧ ∀ c, s.callbacks = some c → c = cb

theorem fresh_given (cb : Callbacks) (destroys : Bool) (wire : List Incoming) :
    Given cb (fresh cb destroys wire) := ⟨rfl, by rintro _ ⟨⟩⟩

theorem Given.step {cb : Callbacks} {a : Act} (h : Given cb s) (hs : step a s = some t) :
    Given cb t := by
  obtain ⟨table, old | new⟩ := step_callbacks hs
  · exact ⟨table.trans h.1, fun c hc => h.2 c (old ▸ hc)⟩
  · exact ⟨table.trans h.1, fun c hc => (Option.some.inj (hc.symm.trans new)).trans h.1⟩

theorem signal_nullCall (s : Session) (f : Signal) (e : Event) :
    (s.signal f e).fault ≠ some .nullCall ↔ ∀ cb ∈ s.callbacks, cb.has f = true := by
  cases hc : s.callbacks with
  | none => simp [signal, hc]
  | some cb => cases has : cb.has f <;> simp [signal, hc, has]

theorem runTask_nullCall (sound : s.fault = none) (task : Task) :
    (s.runTask task).fault ≠ some .nullCall ↔
      ∀ cb ∈ s.callbacks, ∀ f ∈ s.untested task, cb.has f = true := by
  have kept : s.fault ≠ some .nullCall := by simp [sound]
  have ended : s.signalDisconnect.fault ≠ some .nullCall ↔
      ∀ cb ∈ s.callbacks, cb.has .disconnect = true := by
    rw [signalDisconnect_same_fault]
    exact s.signal_nullCall .disconnect .signalDisconnect
  have read (n : Nat) : (s.readMessage n).fault ≠ some .nullCall := by
    unfold readMessage
    split
    · simp
    · exact kept
  cases task with
  | onResolve error => exact iff_of_true (by cases error <;> exact kept) (by simp [untested])
  | onConnect error =>
    by_cases closed : s.socket = .closed
    · refine iff_of_true (by simpa [runTask, connectOp, onConnect, closed] using kept) ?_
      cases error <;> simp [untested, closed]
    · simp only [runTask, connectOp, if_neg closed]
      cases error with
      | success =>
        exact (s.signal_nullCall .connect .signalConnect).trans (by simp [untested, closed])
      | _ => exact iff_of_true kept (by simp [untested])
  | onRead error n =>
    cases error with
    | eof => exact ended.trans (by simp [untested])
    | success => exact iff_of_true (read n) (by simp [untested])
    | operationAborted =>
      simp only [runTask, onRead, untested]
      split
      · exact ended.trans (by simp)
      · exact iff_of_true (read n) (by simp)
    | _ => exact iff_of_true kept (by simp [untested])
  | threadParse buf =>
    refine iff_of_true ?_ (by simp [untested])
    simp only [runTask, threadParse]
    split
    · simp
    · exact kept

/-- A step calls a NULL entry exactly if it calls one without a test. -/
theorem step_nullCall {a : Act} (hs : step a s = some t) :
    t.fault ≠ some .nullCall ↔ s.Present a := by
  obtain ⟨sound, move⟩ := step_move hs
  by_cases hd : a = .dispatch
  · subst hd
    cases move with
    | freed _ _ dead => exact iff_of_true (by simp) fun alive => by simp [alive] at dead
    | @task task queue _ hq alive =>
      refine (runTask_nullCall (s := { s with queue := queue }) sound task).trans ?_
      simp only [Present, hq, List.head?_cons, alive, true_implies]
      exact ⟨fun h cb hc other same => Option.some.inj same ▸ h cb hc,
        fun h cb hc => h cb hc task rfl⟩
  · refine iff_of_true (by simp [move.fault sound hd]) ?_
    cases a with
    | dispatch => exact absurd rfl hd
    | _ => trivial

theorem Given.agrees {cb : Callbacks} (h : Given cb s) (a : Act)
    (connect : cb.has .connect = table.has .connect)
    (disconnect : cb.has .disconnect = table.has .disconnect) : Agrees table s a := by
  intro _ _ c hc task _ f hf
  rw [h.2 c hc]
  rcases untested_cases hf with rfl | rfl
  · exact connect
  · exact disconnect

end Session

namespace Pool
open Session Machine
variable {threads : Nat} {p p' : Pool threads}

def Present (p : Pool threads) : Act threads → Prop
  | .take _ => p.session.Present .dispatch
  | .outside _ | .proceed _ | .advance _ => True

theorem step_nullCall {a : Act threads} (hs : Pool.step a p = some p') :
    p'.session.fault ≠ some .nullCall ↔ p.Present a := by
  obtain ⟨sound, move⟩ := step_move hs
  cases move with
  | @outside a s hd _ moved =>
    refine iff_of_true ?_ trivial
    simp [(Session.step_move moved).2.fault sound hd]
  | take _ _ moved => exact Session.step_nullCall moved
  | proceed _ moved =>
    refine iff_of_true ?_ trivial
    simp [Pool.put, (Session.step_move moved).2.fault sound (by simp)]
  | call | scanned => exact iff_of_true (by simp [Pool.put, sound]) trivial
  | freed other =>
    refine iff_of_true (by simp [Pool.freed]) ?_
    rcases other with rfl | rfl <;> trivial

theorem step_given {cb : Callbacks} {a : Act threads} (h : Given cb p.session)
    (hs : Pool.step a p = some p') : Given cb p'.session := by
  cases (step_move hs).2 with
  | outside _ _ moved => exact h.step moved
  | take _ _ moved =>
    have left := h.step moved
    exact ⟨left.1, left.2⟩
  | @proceed k f s _ moved =>
    have inside : Given cb { p.session with frame := f } := ⟨h.1, h.2⟩
    have left := inside.step moved
    exact ⟨left.1, left.2⟩
  | call | scanned | freed => exact h

/-- What leaving entries of the table NULL is to mean: no step calls one, and the run is
that with the full table, without their messages. -/
structure MissingSkipped (table : Callbacks) : Prop where
  called : ∀ threads destroys wire n p,
    Run Pool.step Machine.free (start threads (fresh table destroys wire)) n p →
    p.session.fault ≠ some .nullCall
  unchanged : ∀ destroys wire acts s,
    exec Session.step Machine.free acts (fresh .full destroys wire) = some s →
    exec Session.step Machine.free acts (fresh table destroys wire) = some (s.retable table)
  scanned : ∀ g line e, yylex table g line = some (.ok e) →
    ∀ i ∈ e.calls, table.has i.signal = true
  skipped : ∀ g line e, yylex .full g line = some (.ok e) →
    ∃ e', yylex table g line = some (.ok e') ∧ e'.calls = e.calls.filter fun i => table.has i.signal

theorem missingSkipped_of_has {table : Callbacks} (connect : table.has .connect = true)
    (disconnect : table.has .disconnect = true) : MissingSkipped table := by
  constructor
  case called =>
    intro threads destroys wire n p run
    have h : Given table p.session ∧ p.session.fault ≠ some .nullCall :=
      run.invariant (P := fun p => Given table p.session ∧ p.session.fault ≠ some .nullCall)
        ⟨fresh_given table destroys wire, by simp [start, fresh]⟩
        fun a u v hu _ hs => by
          refine ⟨step_given hu.1 hs, (step_nullCall hs).mpr ?_⟩
          cases a with
          | take k => exact present_iff.mpr (hu.1.agrees .dispatch connect disconnect)
          | _ => trivial
    exact h.2
  case unchanged =>
    intro destroys wire acts s full
    refine exec_map (f := retable table) acts full (fresh_given .full destroys wire)
      fun a u v hu _ hs => ⟨hu.step hs, ?_⟩
    rw [step_retable (hu.agrees a connect.symm disconnect.symm), hs]
    rfl
  case scanned => exact fun g line e he i call => yylex_calls_has he call
  case skipped => exact fun g line e he => yylex_skips he table

def ending (k : Fin threads) : List (Act threads) :=
  connecting k ++ [.proceed k, .outside .receive, .take k]

/-- All entries but `signal_connect` and `signal_disconnect` are optional. With one of
these NULL, in every state the next step calls a NULL entry exactly if it calls one that
the code does not test, and a run without such a step is one with the full table. -/
theorem missingSkipped_iff (table : Callbacks) :
    (MissingSkipped table ↔ table.has .connect = true ∧ table.has .disconnect = true) ∧
    (∀ (threads : Nat) (p p' : Pool threads) (a : Act threads), Pool.step a p = some p' →
      (p'.session.fault ≠ some .nullCall ↔ p.Present a)) ∧
    ∀ destroys wire acts s,
      exec Session.step Session.Present acts (fresh table destroys wire) = some s →
      s.fault ≠ some .nullCall ∧
        exec Session.step Machine.free acts (fresh .full destroys wire) =
          some (s.retable .full) := by
  refine ⟨⟨fun h => ?_, fun has => missingSkipped_of_has has.1 has.2⟩,
    fun threads p p' a hs => step_nullCall hs, fun destroys wire acts s hs => ⟨?_, ?_⟩⟩
  · have connect : table.has .connect = true := by
      obtain ⟨p, run, fault⟩ := exists_run Pool.step Machine.free
        (s := start 1 (fresh table false [])) (f := fun p => p.session.fault)
        (b := if table.has .connect then none else some .nullCall) (connecting 0) rfl
      by_contra missing
      exact h.called _ _ _ _ _ run (fault.trans (if_neg missing))
    refine ⟨connect, ?_⟩
    obtain ⟨p, run, fault⟩ := exists_run Pool.step Machine.free
      (s := start 1 (fresh table false [.eof])) (f := fun p => p.session.fault)
      (b := if table.has .disconnect then none else some .nullCall) (ending 0) (by
        cases table
        obtain rfl : _ = true := connect
        rfl)
    by_contra missing
    exact h.called _ _ _ _ _ run (fault.trans (if_neg missing))
  · exact (Run.of_exec acts hs).invariant (P := fun s => s.fault ≠ some .nullCall)
      (by simp [fresh]) fun a u v _ present moved => (Session.step_nullCall moved).mpr present
  · refine exec_map (f := retable .full) (P := fun _ => True) acts hs trivial
      fun a u v _ present moved => ⟨trivial, ?_⟩
    rw [step_retable (present_iff.mp present), moved]
    rfl

theorem missingSkipped_test1 :
    MissingSkipped ⟨true, true, true, true, false, false, true, true⟩ :=
  (missingSkipped_iff _).1.mpr ⟨rfl, rfl⟩

theorem not_missingSkipped_disconnect :
    (∃ p, Run Pool.step Machine.free
        (start 1 (fresh ⟨true, true, true, true, true, true, true, false⟩ false [.eof])) 8 p ∧
      p.session.fault = some .nullCall) ∧
    ¬ MissingSkipped ⟨true, true, true, true, true, true, true, false⟩ := by
  obtain ⟨p, run, null⟩ := exists_run Pool.step Machine.free
    (s := start 1 (fresh ⟨true, true, true, true, true, true, true, false⟩ false [.eof]))
    (f := fun p => p.session.fault) (b := some .nullCall) (ending 0) (by decide)
  exact ⟨⟨p, run, null⟩, fun h => h.called _ _ _ _ _ run null⟩

end Pool
end CqIrc
