import CqIrc.LifeCycle
import CqIrc.Machine.Sole

/-! Several threads in `cq_irc_service_attach`. A free thread takes the front of the one
queue; where it stands in a handler or in a scan is its own, the session is shared. The
posted scans of a session are not serialised, as its writes are by `output_strand`. -/

namespace CqIrc

namespace Task

def isParse : Task → Bool
  | threadParse _ => true
  | _ => false

def isLine : Task → Bool
  | onRead .success _ => true
  | _ => false

end Task

inductive Entry where
  | started (call : Invocation)
  | returned (call : Invocation)
  deriving DecidableEq, Repr

/-- Where one thread stands: in `on_connect` or `on_read` or free, in `thread_parse` with these
entries to come, or in a scan with undefined behaviour. -/
inductive Worker where
  | inside (frame : Frame)
  | parsing (left : List Entry)
  | lost
  deriving DecidableEq, Repr

namespace Worker

def frame : Worker → Frame
  | inside frame => frame
  | parsing _ | lost => .idle

def left : Worker → List Entry
  | parsing left => left
  | inside _ | lost => []

end Worker

/-- `thread_parse`: `yy_scan_buffer` fails unless the buffer ends with two NUL bytes. -/
def threadParse (cb : Callbacks) (buf : Bytes) : Worker :=
  if [nul, nul] <:+ buf then
    match yylex cb false (buf.take (buf.length - 2)) with
    | some (.ok e) => .parsing (e.calls.flatMap fun call => [.started call, .returned call])
    | _ => .lost
  else .parsing []

structure Pool (threads : Nat) where
  /-- Its frame is not used: each thread has its own. -/
  session : Session
  workers : Fin threads → Worker
  log : List Entry

namespace Pool
variable {threads : Nat}

inductive Act (threads : Nat) where
  | outside (a : Session.Act)
  | take (k : Fin threads)
  | proceed (k : Fin threads)
  | advance (k : Fin threads)
  deriving DecidableEq, Repr

def Act.disconnects : Act threads → Bool
  | outside a => a.disconnects
  | take _ | proceed _ | advance _ => false

def put (p : Pool threads) (k : Fin threads) (w : Worker) (s : Session) : Pool threads :=
  { p with session := { s with frame := .idle }, workers := Function.update p.workers k w }

def freed (p : Pool threads) : Pool threads :=
  { p with session := { p.session with fault := some .useAfterFree } }

/-- Where a task leaves the thread, behind its first statements. -/
def entered (task : Task) (s : Session) : Worker :=
  match task, s.callbacks with
  | .threadParse buf, some cb => threadParse cb buf
  | _, _ => .inside s.frame

def take (p : Pool threads) (k : Fin threads) : Option (Pool threads) :=
  match p.workers k, p.session.queue with
  | .inside .idle, task :: _ =>
    (Session.step .dispatch p.session).map fun s => p.put k (entered task s) s
  | _, _ => none

def proceed (p : Pool threads) (k : Fin threads) : Option (Pool threads) :=
  match p.workers k with
  | .inside frame =>
    (Session.step .proceed { p.session with frame := frame }).map fun s =>
      if p.session.alive then p.put k (.inside s.frame) s else p.freed
  | _ => none

def advance (p : Pool threads) (k : Fin threads) : Option (Pool threads) :=
  match p.workers k with
  | .parsing [] => some (p.put k (.inside .idle) p.session)
  | .parsing (.started call :: left) =>
    some (if p.session.alive then
      { p.put k (.parsing left) p.session with log := p.log ++ [.started call] } else p.freed)
  | .parsing (.returned call :: left) =>
    some { p.put k (.parsing left) p.session with log := p.log ++ [.returned call] }
  | _ => none

def step : Act threads → Pool threads → Option (Pool threads)
  | .outside a, p =>
    if a = .dispatch ∨ a = .proceed then none
    else (Session.step a p.session).map fun s => { p with session := s }
  | .take k, p => p.take k
  | .proceed k, p => p.proceed k
  | .advance k, p => if p.session.fault = none then p.advance k else none

def start (threads : Nat) (s : Session) : Pool threads := ⟨s, fun _ => .inside .idle, []⟩

/-- A thread takes a posted scan only while no other has callbacks of one to come, and a
line only while no other holds one that it has not yet posted. -/
def Serialised (p : Pool threads) : Act threads → Prop
  | .take _ =>
    (p.session.queue.head?.any Task.isParse = true → ∀ k, (p.workers k).left = []) ∧
      (p.session.queue.head?.any Task.isLine = true → ∀ k, (p.workers k).frame.buffer? = none)
  | .outside _ | .proceed _ | .advance _ => True

instance (p : Pool threads) : (a : Act threads) → Decidable (p.Serialised a)
  | .take _ => inferInstanceAs (Decidable (_ ∧ _))
  | .outside _ | .proceed _ | .advance _ => inferInstanceAs (Decidable True)

def told (table : Callbacks) (buf : Bytes) : List Entry := (CqIrc.threadParse table buf).left

def expected (table : Callbacks) (stream : Bytes) : List Entry :=
  ((Session.lines stream).filterMap Session.bufferOf).flatMap (told table)

end Pool

namespace Session
variable {s s' : Session} {a : Act} {task : Task}

theorem abort_reframe (s : Session) (f : Frame) :
    ({ s with frame := f } : Session).abort = { s.abort with frame := f } := by
  unfold abort
  split <;> simp_all

theorem disconnect_reframe (s : Session) (f : Frame) (pending : Bool) :
    ({ s with frame := f } : Session).disconnect pending =
      { s.disconnect pending with frame := f } := by
  have same : ({ s with frame := f } : Session).shuts pending = s.shuts pending := rfl
  unfold disconnect
  rw [same, abort_reframe]
  split <;> rfl

theorem signal_reframe (s : Session) (g : Signal) (e : Event) (f : Frame) :
    ({ s with frame := f } : Session).signal g e = { s.signal g e with frame := f } := by
  unfold signal
  split <;> simp_all

theorem signalDisconnect_reframe (s : Session) (f : Frame) :
    ({ s with frame := f } : Session).signalDisconnect =
      { s.signalDisconnect with frame := f } := by
  simp only [signalDisconnect, signal_reframe]
  split <;> simp [destroy, abort_reframe]

theorem Move.reframe (move : Move s a s') (hd : a ≠ .dispatch) (hp : a ≠ .proceed) (f : Frame) :
    Move { s with frame := f } a { s' with frame := f } := by
  cases move with
  | copyCallbacks none => exact .copyCallbacks none
  | reset connected torn => exact .reset connected torn
  | resolved hop => exact .resolved hop
  | connected hop => exact .connected hop
  | data hop hc hw => exact .data hop hc hw
  | eof hop hc hw => exact .eof hop hc hw
  | error hop hc hw => exact .error hop hc hw
  | complete hop hc => exact .complete hop hc
  | freed | task => exact absurd rfl hd
  | firstRead | rearm | post => exact absurd rfl hp
  | disconnect alive called =>
    rw [← disconnect_reframe]
    exact .disconnect alive called
  | behind alive called connected hop free hw => exact .behind alive called connected hop free hw

theorem runTask_reframe (closed : ∀ n, task = .onRead .operationAborted n → s.socket = .closed)
    (stays : task.enters = false) (f : Frame) :
    { s with frame := f }.runTask task = { s.runTask task with frame := f } := by
  cases task with
  | threadParse buf =>
    simp only [runTask, threadParse]
    split <;> simp_all
  | onResolve error => cases error <;> rfl
  | onConnect error =>
    obtain same | ⟨rfl, -, -⟩ := s.runTask_onConnect error
    · obtain other | ⟨rfl, -, -⟩ := runTask_onConnect { s with frame := f } error
      · rw [same, other]
      · cases stays
    · cases stays
  | onRead error n =>
    cases error with
    | eof => exact s.signalDisconnect_reframe f
    | success => cases stays
    | operationAborted =>
      have shut := closed n rfl
      simp only [runTask, onRead]
      rw [if_pos shut, if_pos shut]
      exact s.signalDisconnect_reframe f
    | _ => rfl

theorem runTask_frame (closed : ∀ n, task = .onRead .operationAborted n → s.socket = .closed)
    (stays : task.enters = false) : (s.runTask task).frame = s.frame :=
  congrArg (fun t => t.frame) (runTask_reframe closed stays s.frame)

theorem Move.outside (move : Move s a s') (hd : a ≠ .dispatch) :
    s'.table = s.table ∧ (s'.callbacks = s.callbacks ∨ s'.callbacks = some s.table) ∧
      s'.handed = s.handed ∧ (a ≠ .proceed → s'.frame = s.frame) := by
  cases move with
  | copyCallbacks => exact ⟨rfl, .inr rfl, rfl, fun _ => rfl⟩
  | freed | task => exact absurd rfl hd
  | firstRead | rearm =>
    unfold asyncReadUntil
    split <;> exact ⟨rfl, .inl rfl, rfl, fun hp => absurd rfl hp⟩
  | post => exact ⟨rfl, .inl rfl, rfl, fun hp => absurd rfl hp⟩
  | disconnect =>
    have left := s.abort_handled
    unfold Session.disconnect
    split
    · refine ⟨left.table, .inl left.callbacks, by simp [handed, abort_events], fun _ => ?_⟩
      exact congrArg (fun t => t.frame) (s.abort_reframe s.frame)
    · exact ⟨rfl, .inl rfl, by simp [handed, Event.buffer?], fun _ => rfl⟩
  | _ => exact ⟨rfl, .inl rfl, rfl, fun _ => rfl⟩

theorem signal_handed (s : Session) (f : Signal) {e : Event} (he : e.buffer? = none) :
    (s.signal f e).handed = s.handed := by
  unfold signal
  split
  · rfl
  · simp [handed, he]

theorem signalDisconnect_handed (s : Session) : s.signalDisconnect.handed = s.handed := by
  have signalled := s.signal_handed .disconnect (e := .signalDisconnect) rfl
  unfold signalDisconnect
  simp only
  split
  · have same := abort_events (s.signal .disconnect .signalDisconnect)
    simpa [handed, destroy, same] using signalled
  · exact signalled

theorem runTask_handed (s : Session) {task : Task} (other : task.buffer? = none) :
    (s.runTask task).handed = s.handed := by
  have readMessage (n : Nat) : (s.readMessage n).handed = s.handed := by
    unfold Session.readMessage
    split <;> rfl
  cases task with
  | threadParse buf => cases other
  | onResolve error => cases error <;> rfl
  | onConnect error =>
    obtain same | ⟨-, -, same⟩ := s.runTask_onConnect error
    · rw [same]
    · rw [same]
      exact s.signal_handed .connect (e := .signalConnect) rfl
  | onRead error n =>
    cases error with
    | eof => exact s.signalDisconnect_handed
    | success => exact readMessage n
    | operationAborted =>
      simp only [runTask, onRead]
      split
      · exact s.signalDisconnect_handed
      · exact readMessage n
    | _ => rfl

theorem LifeCycle.idle_of_setup {queue : List Task} (h : LifeCycle s) (fault : s.fault = none)
    (hq : s.queue = task :: queue) (setup : task.isSetup = true) : s.frame = .idle := by
  by_contra busy
  have connected := List.count_pos_iff.mpr (h.begun fault (.inr (.inr busy)))
  have connects := h.connects
  have setups := setups_of_head hq setup
  omega

end Session

namespace Pool
open Session Machine
variable {threads : Nat} {table : Callbacks} {stream : Bytes} {p p' : Pool threads}
  {frame : Frame} {left : List Entry}

/-- One thread at most is in a handler that holds something, and one at most, maybe
another, has callbacks to come; with the frame of the one the session is as on one thread,
and with the callbacks of the other all that are due for its buffers are accounted for. -/
structure Ordered (table : Callbacks) (stream : Bytes) (p : Pool threads) (frame : Frame)
    (left : List Entry) : Prop where
  frames : Sole (Worker.frame ∘ p.workers) .idle frame
  lefts : Sole (Worker.left ∘ p.workers) [] left
  idle : p.session.frame = .idle
  given : p.session.table = table
  copied : ∀ cb, p.session.callbacks = some cb → cb = table
  life : LifeCycle { p.session with frame := frame }
  accounted : Accounted stream { p.session with frame := frame }
  log : p.log ++ left = p.session.handed.flatMap (told table)

theorem start_ordered (threads : Nat) (table : Callbacks) (destroys : Bool)
    (wire : List Incoming) :
    Ordered table (wire.flatMap Incoming.bytes) (start threads (fresh table destroys wire))
      .idle [] where
  frames := .rest fun _ => rfl
  lefts := .rest fun _ => rfl
  idle := rfl
  given := rfl
  copied _ := by rintro ⟨⟩
  life := fresh_lifeCycle table destroys wire
  accounted := fresh_accounted table destroys wire
  log := rfl

theorem Ordered.log_prefix (h : Ordered table stream p frame left) :
    p.log <+: expected table stream := by
  obtain ⟨texts, made, -, split⟩ := h.accounted.taken
  have buffers : texts.filterMap bufferOf =
      ({ p.session with frame := frame } : Session).buffers := by
    have made := congrArg (List.filterMap id) made
    simpa [List.filterMap_map, Function.comp_def] using made
  rw [expected, split, List.filterMap_append, List.flatMap_append, buffers, Session.buffers,
    List.flatMap_append, List.append_assoc]
  exact (h.log ▸ List.prefix_append p.log left).trans (List.prefix_append _ _)

theorem Ordered.copied_of (h : Ordered table stream p frame left) {s : Session}
    (same : s.callbacks = p.session.callbacks ∨ s.callbacks = some p.session.table)
    (cb : Callbacks) (hc : s.callbacks = some cb) : cb = table := by
  rcases same with old | new
  · exact h.copied cb (old ▸ hc)
  · exact (Option.some.inj (hc.symm.trans new)).trans h.given

theorem Ordered.outside (h : Ordered table stream p frame left) {a : Session.Act}
    (hd : a ≠ .dispatch) (hp : a ≠ .proceed) {s : Session}
    (hs : Session.step a p.session = some s) (fault : s.fault = none) :
    Ordered table stream { p with session := s } frame left := by
  obtain ⟨sound, move⟩ := Session.step_move hs
  obtain ⟨given, copied, handed, idle⟩ := move.outside hd
  have next := move.reframe hd hp frame
  exact { h with
    idle := (idle hp).trans h.idle
    given := given.trans h.given
    copied := h.copied_of copied
    life := next.lifeCycle h.life sound
    accounted := next.accounted h.accounted h.life sound (by simp [fault])
    log := handed ▸ h.log }

theorem Ordered.proceed (h : Ordered table stream p frame left) {k : Fin threads} {f : Frame}
    (hw : p.workers k = .inside f) {s : Session}
    (hs : Session.step .proceed { p.session with frame := f } = some s) (fault : s.fault = none) :
    Ordered table stream (p.put k (.inside s.frame) s) s.frame left := by
  obtain ⟨sound, move⟩ := Session.step_move hs
  obtain ⟨given, copied, handed, -⟩ := move.outside (by simp)
  have busy : f ≠ .idle := by
    rintro rfl
    simp [Session.step, act, Session.proceed] at hs
  have sole : f = frame := by
    have other : (Worker.frame ∘ p.workers) k ≠ .idle := by simpa [hw, Worker.frame] using busy
    simpa [hw, Worker.frame] using h.frames.eq_of_ne other
  subst sole
  exact {
    frames := h.frames.next (by rw [hw]; rfl)
    lefts := h.lefts.keep (by rw [hw]; rfl)
    idle := rfl
    given := given.trans h.given
    copied := h.copied_of copied
    life := move.lifeCycle h.life sound
    accounted := move.accounted h.accounted h.life sound (by simp [fault])
    log := handed ▸ h.log }

theorem threadParse_frame (cb : Callbacks) (buf : Bytes) :
    (CqIrc.threadParse cb buf).frame = .idle := by
  unfold CqIrc.threadParse
  split
  · split <;> rfl
  · rfl

theorem entered_frame {task : Task} {s : Session} (h : task.isParse = true → s.frame = .idle) :
    (entered task s).frame = s.frame := by
  unfold entered
  split
  · exact (threadParse_frame _ _).trans (h rfl).symm
  · rfl

theorem Ordered.idle_of_enters (h : Ordered table stream p frame left) {k : Fin threads}
    (allowed : p.Serialised (.take k)) (sound : p.session.fault = none) {task : Task}
    {queue : List Task} (hq : p.session.queue = task :: queue) (enters : task.enters = true) :
    frame = .idle := by
  cases task with
  | onResolve | threadParse => cases enters
  | onConnect error => exact h.life.idle_of_setup sound hq rfl
  | onRead error n =>
    cases error with
    | success =>
      have line : p.session.queue.head?.any Task.isLine = true := by simp [hq, Task.isLine]
      have posted : frame.buffer? = none :=
        h.frames.of_forall (P := fun f => f.buffer? = none) rfl (allowed.2 line)
      obtain ⟨-, -, started, -⟩ := alone_of_head h.life.once hq (.inr rfl)
      cases frame with
      | idle => rfl
      | onConnect => cases started
      | onRead | posting => cases posted
    | _ => cases enters

theorem Ordered.due (h : Ordered table stream p frame left) {k : Fin threads}
    (hw : p.workers k = .inside .idle) (allowed : p.Serialised (.take k)) {task : Task}
    {queue : List Task} (hq : p.session.queue = task :: queue)
    (fault : ({ p.session with queue := queue }.runTask task).fault = none) :
    let s := { p.session with queue := queue }.runTask task
    ∃ left', Sole (Worker.left ∘ Function.update p.workers k (entered task s)) [] left' ∧
      p.log ++ left' = s.handed.flatMap (told table) := by
  intro s
  have free : (p.workers k).left = [] := by rw [hw]; rfl
  cases hb : task.buffer? with
  | none =>
    have same : (entered task s).left = [] := by
      cases task with
      | threadParse => cases hb
      | _ => rfl
    refine ⟨left, h.lefts.keep (free.trans same.symm), ?_⟩
    rw [runTask_handed _ hb]
    exact h.log
  | some buf =>
    obtain rfl : task = .threadParse buf := by
      cases task with
      | threadParse b => exact congrArg _ (Option.some.inj hb)
      | _ => cases hb
    have parse : p.session.queue.head?.any Task.isParse = true := by simp [hq, Task.isParse]
    -- the scans before this one have nothing left to call
    obtain rfl : left = [] := h.lefts.of_forall (P := fun l => l = []) rfl (allowed.1 parse)
    cases hc : p.session.callbacks with
    | none => simp [runTask, Session.threadParse, hc] at fault
    | some cb =>
      obtain rfl := h.copied cb hc
      have scanned : s = { p.session with
          queue := queue, events := p.session.events ++ [.parse buf] } := by
        simp [s, runTask, Session.threadParse, hc]
      have called : entered (.threadParse buf) s = CqIrc.threadParse cb buf := by
        simp only [entered, scanned, hc]
      refine ⟨told cb buf, ?_, ?_⟩
      · rw [called]
        exact h.lefts.next free
      · have log := h.log
        rw [List.append_nil] at log
        rw [scanned, log]
        simp [handed, Event.buffer?]

theorem Ordered.take (h : Ordered table stream p frame left) {k : Fin threads}
    (hw : p.workers k = .inside .idle) (allowed : p.Serialised (.take k))
    (sound : p.session.fault = none) {task : Task} {queue : List Task}
    (hq : p.session.queue = task :: queue)
    (fault : ({ p.session with queue := queue }.runTask task).fault = none) :
    let s := { p.session with queue := queue }.runTask task
    ∃ frame' left', Ordered table stream (p.put k (entered task s) s) frame' left' := by
  intro s
  obtain ⟨left', lefts, log⟩ := h.due hw allowed hq fault
  have handled := runTask_handled { p.session with queue := queue } task
  have closed (n : Nat) (aborted : task = .onRead .operationAborted n) :
      p.session.socket = .closed := h.life.closed n (by simp [hq, aborted])
  have idle := h.idle_of_enters allowed sound hq
  have life := h.life.runTask sound hq
  have accounted := h.accounted.runTask h.life sound hq idle
  have free : (p.workers k).frame = .idle := by rw [hw]; rfl
  obtain ⟨frame', frames, same⟩ : ∃ frame',
      Sole (Worker.frame ∘ Function.update p.workers k (entered task s)) .idle frame' ∧
      { p.session with queue := queue, frame := frame }.runTask task =
        { s with frame := frame' } := by
    cases enters : task.enters with
    | false =>
      -- the frame stays with the thread that has it, if any
      have stays : s.frame = .idle :=
        (runTask_frame (s := { p.session with queue := queue }) closed enters).trans h.idle
      have rest : (entered task s).frame = .idle := (entered_frame fun _ => stays).trans stays
      exact ⟨frame, h.frames.keep (free.trans rest.symm),
        runTask_reframe (s := { p.session with queue := queue }) closed enters frame⟩
    | true =>
      -- no thread has one, so the session is already as on one thread
      obtain rfl := idle enters
      have other : task.isParse = true → s.frame = .idle := by
        cases task <;> simp_all [Task.enters, Task.isParse]
      refine ⟨s.frame, ?_, ?_⟩
      · rw [← entered_frame other]
        exact h.frames.next free
      · rw [← h.idle]
  refine ⟨frame', left', frames, lefts, rfl, handled.table.trans h.given,
    h.copied_of (.inl handled.callbacks), ?_, ?_, log⟩
  · exact same ▸ life
  · exact same ▸ accounted

theorem Ordered.call (h : Ordered table stream p frame left) {k : Fin threads} {e : Entry}
    {rest : List Entry} (hw : p.workers k = .parsing (e :: rest)) :
    Ordered table stream { p.put k (.parsing rest) p.session with log := p.log ++ [e] } frame
      rest := by
  have here : (Worker.left ∘ p.workers) k = e :: rest := by simp [hw, Worker.left]
  have sole : e :: rest = left :=
    here.symm.trans (h.lefts.eq_of_ne (here ▸ List.cons_ne_nil e rest))
  exact { h with
    frames := h.frames.keep (by rw [hw]; rfl)
    lefts := h.lefts.next (here.trans sole)
    idle := rfl
    log := by
      rw [List.append_assoc, List.singleton_append, sole]
      exact h.log }

theorem Ordered.scanned (h : Ordered table stream p frame left) {k : Fin threads}
    (hw : p.workers k = .parsing []) :
    Ordered table stream (p.put k (.inside .idle) p.session) frame left :=
  { h with
    frames := h.frames.keep (by rw [hw]; rfl)
    lefts := h.lefts.keep (by rw [hw]; rfl)
    idle := rfl }

inductive Move (p : Pool threads) : Act threads → Pool threads → Prop where
  | outside {a s} : a ≠ .dispatch → a ≠ .proceed → Session.step a p.session = some s →
      Move p (.outside a) { p with session := s }
  | take {k task queue s} : p.workers k = .inside .idle → p.session.queue = task :: queue →
      Session.step .dispatch p.session = some s → Move p (.take k) (p.put k (entered task s) s)
  | proceed {k f s} : p.workers k = .inside f →
      Session.step .proceed { p.session with frame := f } = some s →
      Move p (.proceed k) (p.put k (.inside s.frame) s)
  | call {k e rest} : p.workers k = .parsing (e :: rest) →
      Move p (.advance k) { p.put k (.parsing rest) p.session with log := p.log ++ [e] }
  | scanned {k} : p.workers k = .parsing [] →
      Move p (.advance k) (p.put k (.inside .idle) p.session)
  | freed {k a} : a = .proceed k ∨ a = .advance k → Move p a p.freed

theorem step_move {a : Act threads} (h : Pool.step a p = some p') :
    p.session.fault = none ∧ Move p a p' := by
  cases a with
  | outside a =>
    simp only [Pool.step, Option.ite_none_left_eq_some, not_or, Option.map_eq_some_iff] at h
    obtain ⟨⟨hd, hp⟩, s, hs, rfl⟩ := h
    exact ⟨(Session.step_move hs).1, .outside hd hp hs⟩
  | take k =>
    simp only [Pool.step, Pool.take] at h
    split at h
    · next hw hq =>
      obtain ⟨s, hs, rfl⟩ := Option.map_eq_some_iff.mp h
      exact ⟨(Session.step_move hs).1, .take hw hq hs⟩
    · cases h
  | proceed k =>
    simp only [Pool.step, Pool.proceed] at h
    split at h
    · next hw =>
      obtain ⟨s, hs, rfl⟩ := Option.map_eq_some_iff.mp h
      refine ⟨(Session.step_move hs).1, ?_⟩
      split
      · exact .proceed hw hs
      · exact .freed (.inl rfl)
    · cases h
  | advance k =>
    obtain ⟨sound, h⟩ := Option.ite_none_right_eq_some.mp h
    refine ⟨sound, ?_⟩
    unfold Pool.advance at h
    split at h
    · next hw =>
      cases h
      exact .scanned hw
    · next hw =>
      cases h
      split
      · exact .call hw
      · exact .freed (.inr rfl)
    · next hw =>
      cases h
      exact .call hw
    · cases h

/-- A serialised step keeps the order, or meets undefined behaviour and logs nothing. -/
theorem Ordered.step (h : Ordered table stream p frame left) {a : Act threads}
    (allowed : p.Serialised a) (sound : p.session.fault = none) (move : Move p a p') :
    (∃ frame' left', Ordered table stream p' frame' left') ∨
      (p'.session.fault ≠ none ∧ p'.log = p.log) := by
  cases move with
  | @outside a s hd hp hs =>
    by_cases fault : s.fault = none
    · exact .inl ⟨frame, left, h.outside hd hp hs fault⟩
    · exact .inr ⟨fault, rfl⟩
  | @take k task queue s hw hq hs =>
    by_cases fault : s.fault = none
    · cases (Session.step_move hs).2 with
      | freed => cases fault
      | task _ hq' =>
        obtain ⟨rfl, rfl⟩ := List.cons.inj (hq.symm.trans hq')
        exact .inl (h.take hw allowed sound hq fault)
    · exact .inr ⟨fault, rfl⟩
  | @proceed k f s hw hs =>
    by_cases fault : s.fault = none
    · exact .inl ⟨s.frame, left, h.proceed hw hs fault⟩
    · exact .inr ⟨fault, rfl⟩
  | call hw => exact .inl ⟨frame, _, h.call hw⟩
  | scanned hw => exact .inl ⟨frame, left, h.scanned hw⟩
  | freed => exact .inr ⟨by simp [freed], rfl⟩

theorem Ordered.log_of_run {allowed : Pool threads → Act threads → Prop}
    (serial : ∀ p a p', allowed p a → Pool.step a p = some p' → p.Serialised a)
    (h : Ordered table stream p frame left) {n : Nat} {q : Pool threads}
    (run : Run Pool.step allowed p n q) : q.log <+: expected table stream := by
  suffices all : (q.session.fault = none → ∃ frame left, Ordered table stream q frame left) ∧
      q.log <+: expected table stream from all.2
  refine run.invariant (P := fun p => (p.session.fault = none → ∃ frame left,
    Ordered table stream p frame left) ∧ p.log <+: expected table stream) ?_ ?_
  · exact ⟨fun _ => ⟨_, _, h⟩, h.log_prefix⟩
  · rintro a u v ⟨ordered, log⟩ allowed hs
    obtain ⟨sound, move⟩ := step_move hs
    obtain ⟨frame, left, h⟩ := ordered sound
    rcases h.step (serial u a v allowed hs) sound move with ⟨frame', left', next⟩ | ⟨fault, same⟩
    · exact ⟨fun _ => ⟨frame', left', next⟩, next.log_prefix⟩
    · exact ⟨fun sound => absurd sound fault, same ▸ log⟩

theorem log_prefix_of_run {allowed : Pool threads → Act threads → Prop}
    (serial : ∀ p a p', allowed p a → Pool.step a p = some p' → p.Serialised a)
    {destroys : Bool} {wire : List Incoming} {n : Nat}
    (run : Run Pool.step allowed (start threads (fresh table destroys wire)) n p) :
    p.log <+: expected table (wire.flatMap Incoming.bytes) :=
  (start_ordered threads table destroys wire).log_of_run serial run

/-- The callbacks of a session are called line after line, each when the one before has
returned, as long as no thread takes a scan, or a line, while another is at the last one. -/
theorem callbacks_in_order {threads : Nat} {table : Callbacks} {destroys : Bool}
    {wire : List Incoming} {n : Nat} {p : Pool threads}
    (run : Run Pool.step Serialised (start threads (fresh table destroys wire)) n p) :
    p.log <+: expected table (wire.flatMap Incoming.bytes) :=
  log_prefix_of_run (fun _ _ _ allowed _ => allowed) run

theorem in_order_of_one_thread {destroys : Bool} {wire : List Incoming} {n : Nat} {p : Pool 1}
    (run : Run Pool.step Machine.free (start 1 (fresh table destroys wire)) n p) :
    p.log <+: expected table (wire.flatMap Incoming.bytes) := by
  refine log_prefix_of_run (fun p a p' _ hs => ?_) run
  cases a with
  | take k =>
    obtain ⟨-, move⟩ := step_move hs
    cases move with
    | take hw =>
      have free (j : Fin 1) : p.workers j = .inside .idle := Subsingleton.elim k j ▸ hw
      exact ⟨fun _ j => by rw [free j]; rfl, fun _ j => by rw [free j]; rfl⟩
    | freed other => simp at other
  | outside | proceed | advance => trivial

def twoPings : Bytes :=
  pingLine ++ ascii ['P', 'I', 'N', 'G', ' ', 'b', '\r', '\n']

def connecting (k : Fin threads) : List (Act threads) :=
  [.outside .copyCallbacks, .outside (.resolved true), .take k, .outside (.connected true), .take k]

def inTurn : List (Act 2) :=
  [.outside .copyCallbacks, .outside (.resolved true), .take 0, .outside (.connected true), .take 0,
    .proceed 0, .outside .receive, .outside .complete, .take 0, .proceed 0, .proceed 0,
    .outside .complete, .take 1, .advance 1, .take 0, .proceed 0, .proceed 0, .advance 1,
    .take 0, .advance 0, .advance 0]

theorem callbacks_in_order_twoPings :
    ∃ p, Run Pool.step Serialised (start 2 (fresh .full false [.data twoPings])) inTurn.length p ∧
      p.log.length = 4 ∧ p.log <+: expected .full twoPings := by
  obtain ⟨p, run, four⟩ := exists_run Pool.step Serialised
    (s := start 2 (fresh .full false [.data twoPings])) (f := fun p => p.log.length) (b := 4)
    inTurn (by decide +kernel)
  exact ⟨p, run, four, callbacks_in_order run⟩

def atOnce : List (Act 2) :=
  [.outside .copyCallbacks, .outside (.resolved true), .take 0, .outside (.connected true), .take 0,
    .proceed 0, .outside .receive, .outside .complete, .take 0, .proceed 0, .proceed 0,
    .outside .complete, .take 1, .take 0, .proceed 0, .proceed 0, .take 0, .advance 0]

theorem not_in_order_twoPings :
    ∃ p, Run Pool.step Machine.free (start 2 (fresh .full false [.data twoPings]))
        atOnce.length p ∧
      p.log.length = 1 ∧ ¬ p.log <+: expected .full twoPings := by
  obtain ⟨p, run, out⟩ := exists_run Pool.step Machine.free
    (s := start 2 (fresh .full false [.data twoPings]))
    (f := fun p => (p.log.length, decide (p.log <+: expected .full twoPings))) (b := (1, false))
    atOnce (by decide +kernel)
  obtain ⟨one, other⟩ := Prod.mk.inj out
  exact ⟨p, run, one, of_decide_eq_false other⟩

end Pool
end CqIrc
