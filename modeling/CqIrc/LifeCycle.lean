import CqIrc.Framing

/-! The life of a session that `signal_disconnect` does not end. Resolve, connect and
reads form one chain, so at most one of them is under way; the chain passes
`signal_connect` once, before the first read, and ends with `signal_disconnect`; and
the texts taken out of the stream buffer are, in order, the buffers of the parses. -/

namespace CqIrc

namespace Event

def isLater : Event → Bool
  | parse _ | signalDisconnect => true
  | signalConnect | shutdownThrew => false

def Preceded (events : List Event) : Prop :=
  ∀ before e after, events = before ++ e :: after → e.isLater = true → signalConnect ∈ before

theorem Preceded.snoc {events : List Event} (h : Preceded events) {e : Event}
    (he : e.isLater = true → signalConnect ∈ events) : Preceded (events ++ [e]) := by
  intro before x after split later
  rcases List.eq_nil_or_concat after with rfl | ⟨after, y, rfl⟩
  · obtain ⟨rfl, last⟩ := List.append_inj' split rfl
    obtain rfl : e = x := by simpa using last
    exact he later
  · rw [List.concat_eq_append, ← List.cons_append, ← List.append_assoc] at split
    exact h before x after (List.append_inj' split rfl).1 later

end Event

def Task.enters : Task → Bool
  | onConnect .success | onRead .success _ => true
  | _ => false

namespace Session

/-- A read has been started, or what it found is on its way to the scanner. -/
def Begun (s : Session) : Prop :=
  1 ≤ s.reads ∨ (∃ buf, .threadParse buf ∈ s.queue) ∨ s.frame ≠ .idle

structure LifeCycle (s : Session) : Prop where
  once : s.load ≤ 1
  connects : s.setups + s.events.count .signalConnect ≤ 1
  begun : s.fault = none → s.Begun → .signalConnect ∈ s.events
  called : .signalConnect ∈ s.events → s.callbacks ≠ none
  preceded : Event.Preceded s.events
  closed : ∀ n, .onRead .operationAborted n ∈ s.queue → s.socket = .closed

theorem fresh_lifeCycle (table : Callbacks) (destroys : Bool) (wire : List Incoming) :
    LifeCycle (fresh table destroys wire) := by
  refine ⟨(fresh_load table destroys wire).le, le_rfl, fun _ begun => ?_, by simp [fresh],
    fun before e after split => ?_, by simp [fresh]⟩
  · rcases begun with reads | ⟨buf, posted⟩ | frame
    · exact absurd reads (Nat.not_succ_le_zero 0)
    · cases posted
    · exact absurd rfl frame
  · simp [fresh] at split

theorem signalDisconnect_some {s : Session} {cb : Callbacks} (hc : s.callbacks = some cb)
    (hop : s.op = none) :
    ∃ alive socket fault, s.signalDisconnect = { s with
        events := s.events ++ [.signalDisconnect], alive := alive, socket := socket,
        fault := fault } ∧
      fault ≠ some .useAfterFree ∧ (s.destroys = false → alive = s.alive) := by
  by_cases gone : s.destroys = true ∧ cb.has .disconnect = true
  · refine ⟨false, .closed, none, ?_, by simp, by simp [gone.1]⟩
    simp [signalDisconnect, signal, hc, gone, destroy, abort, hop]
  · rw [signalDisconnect_kept hc gone]
    refine ⟨s.alive, s.socket, if cb.has .disconnect then none else some .nullCall, ?_, ?_, by simp⟩
    · simp [signal, hc]
    · split <;> simp

section lives
variable {s t : Session} {task : Task} {queue : List Task}

theorem LifeCycle.quiet (h : LifeCycle s) (fault : s.fault = none) (once : t.load ≤ 1)
    (events : t.events = s.events) (callbacks : s.callbacks ≠ none → t.callbacks ≠ none)
    (setups : t.setups ≤ s.setups) (begun : t.fault = none → t.Begun → s.Begun)
    (closed : ∀ n, .onRead .operationAborted n ∈ t.queue → t.socket = .closed) : LifeCycle t where
  once := once
  connects := by
    rw [events]
    exact (Nat.add_le_add_right setups _).trans h.connects
  begun sound hb := by
    rw [events]
    exact h.begun fault (begun sound hb)
  called hc := callbacks (h.called (events ▸ hc))
  preceded := events ▸ h.preceded
  closed := closed

theorem LifeCycle.report {e : Event} (h : LifeCycle s) (fault : s.fault = none)
    (once : t.load ≤ 1) (events : t.events = s.events ++ [e]) (other : e ≠ .signalConnect)
    (begun : e.isLater = true → s.Begun) (callbacks : t.callbacks = s.callbacks)
    (setups : t.setups ≤ s.setups) (left : t.fault = none → t.Begun → s.Begun)
    (closed : ∀ n, .onRead .operationAborted n ∈ t.queue → t.socket = .closed) : LifeCycle t where
  once := once
  connects := by
    rw [events, List.count_append, List.count_singleton, if_neg (by simpa using other)]
    exact (Nat.add_le_add_right setups _).trans h.connects
  begun sound hb := by
    rw [events]
    exact List.mem_append_left _ (h.begun fault (left sound hb))
  called hc := by
    rw [events] at hc
    rw [callbacks]
    exact h.called (by simpa [other.symm] using hc)
  preceded := by
    rw [events]
    exact h.preceded.snoc fun later => h.begun fault (begun later)
  closed := closed

theorem begun_of_read {error : ErrorCode} {n : Nat} (hq : s.queue = .onRead error n :: queue) :
    s.Begun := .inl (reads_of_task error n (by simp [hq]))

theorem Begun.behind (hq : s.queue = task :: queue)
    (h : ({ s with queue := queue } : Session).Begun) : s.Begun := by
  rcases h with reads | ⟨buf, posted⟩ | frame
  · refine .inl (reads.trans ?_)
    simp only [Session.reads, hq, List.countP_cons]
    omega
  · exact .inr (.inl ⟨buf, by simpa [hq] using .inr posted⟩)
  · exact .inr (.inr frame)

theorem setups_behind (hq : s.queue = task :: queue) :
    ({ s with queue := queue } : Session).setups + (if task.isSetup then 1 else 0) = s.setups := by
  simp only [Session.setups, hq, List.countP_cons]
  omega

theorem LifeCycle.callbacks (h : LifeCycle s) (fault : s.fault = none) (begun : s.Begun) :
    ∃ cb, s.callbacks = some cb := Option.ne_none_iff_exists'.mp (h.called (h.begun fault begun))

theorem LifeCycle.onRead_aborted (h : LifeCycle s) {n : Nat}
    (hq : s.queue = .onRead .operationAborted n :: queue) :
    { s with queue := queue }.runTask (.onRead .operationAborted n) =
      ({ s with queue := queue } : Session).signalDisconnect :=
  if_pos (h.closed n (by simp [hq]))

theorem LifeCycle.signalDisconnect {error : ErrorCode} {n : Nat} (h : LifeCycle s)
    (fault : s.fault = none) (hq : s.queue = .onRead error n :: queue)
    (once : ({ s with queue := queue } : Session).signalDisconnect.load ≤ 1) :
    LifeCycle ({ s with queue := queue } : Session).signalDisconnect := by
  obtain ⟨hop, parses, -⟩ := alone_of_head h.once hq (.inr rfl)
  have begun := begun_of_read hq
  obtain ⟨cb, hc⟩ := h.callbacks fault begun
  obtain ⟨alive, socket, fault', same, -⟩ :=
    signalDisconnect_some (s := { s with queue := queue }) hc hop
  rw [same] at once ⊢
  exact h.report fault once rfl (by simp) (fun _ => begun) rfl
    ((Nat.le_add_right _ _).trans (setups_behind hq).le) (fun _ _ => begun)
    fun k hr => absurd hr (parses.no_read _ k)

theorem LifeCycle.readMessage {error : ErrorCode} {n : Nat} (h : LifeCycle s)
    (fault : s.fault = none) (hq : s.queue = .onRead error n :: queue)
    (once : ({ s with queue := queue }.readMessage n).load ≤ 1) :
    LifeCycle ({ s with queue := queue }.readMessage n) := by
  obtain ⟨-, parses, -⟩ := alone_of_head h.once hq (.inr rfl)
  have setups := (Nat.le_add_right _ _).trans (setups_behind hq).le
  cases hb : readBuffer s.input n <;> simp only [Session.readMessage, hb] at once ⊢
  all_goals
    exact h.quiet fault once rfl id setups (fun _ _ => begun_of_read hq)
      fun k hr => absurd hr (parses.no_read _ k)

theorem LifeCycle.runTask (h : LifeCycle s) (fault : s.fault = none)
    (hq : s.queue = task :: queue) : LifeCycle ({ s with queue := queue }.runTask task) := by
  have once := (s.runTask_load _ _ hq).trans h.once
  have behind := setups_behind hq
  have closed (n : Nat) (hr : .onRead .operationAborted n ∈ queue) : s.socket = .closed :=
    h.closed n (by simp [hq, hr])
  have dropped (once : ({ s with queue := queue } : Session).load ≤ 1) :
      LifeCycle { s with queue := queue } :=
    h.quiet fault once rfl id (by omega) (fun _ => Begun.behind hq) closed
  cases task with
  | threadParse buf =>
    have begun : s.Begun := .inr (.inl ⟨buf, by simp [hq]⟩)
    obtain ⟨cb, hc⟩ := h.callbacks fault begun
    simp only [Session.runTask, threadParse, hc] at once ⊢
    exact h.report fault once rfl (by simp) (fun _ => begun) hc.symm
      ((Nat.le_add_right _ _).trans behind.le) (fun _ _ => begun) closed
  | onResolve error =>
    obtain ⟨hop, parses, -⟩ := alone_of_head h.once hq (.inl rfl)
    cases error with
    | success =>
      refine h.quiet fault once rfl id ?_ (fun _ begun => ?_)
        fun n hr => absurd hr (parses.no_read _ n)
      · simp [Session.runTask, onResolve, Session.setups, hq, hop, List.countP_cons, Task.isSetup,
          Operation.isSetup, Nat.add_comm]
      · refine Begun.behind hq ?_
        simpa [Session.runTask, onResolve, Begun, Session.reads, hop, Operation.isRead] using begun
    | _ => exact dropped once
  | onConnect error =>
    obtain ⟨hop, parses, -⟩ := alone_of_head h.once hq (.inl rfl)
    obtain same | ⟨rfl, -, same⟩ := runTask_onConnect { s with queue := queue } error
    · rw [same] at once ⊢
      exact dropped once
    · rw [same] at once ⊢
      cases hc : s.callbacks with
      | none =>
        simp only [onConnect, signal, hc] at once ⊢
        exact h.quiet fault once rfl (by simp [hc]) ((Nat.le_add_right _ _).trans behind.le)
          (by simp) fun n hr => absurd hr (parses.no_read _ n)
      | some cb =>
        simp only [onConnect, signal, hc] at once ⊢
        -- the connect is gone from the queue, and its signal is in the events instead
        have connects := h.connects
        have last : Event.Preceded (s.events ++ [.signalConnect]) :=
          h.preceded.snoc fun later => absurd later (by decide)
        refine ⟨once, ?_, by simp, by simp, last, fun n hr => absurd hr (parses.no_read _ n)⟩
        rw [List.count_append, List.count_singleton_self]
        simp only [Task.isSetup, if_true] at behind
        simp only [Session.setups] at behind connects ⊢
        omega
  | onRead error n =>
    cases error with
    | eof => exact h.signalDisconnect fault hq once
    | operationAborted =>
      rw [h.onRead_aborted hq] at once ⊢
      exact h.signalDisconnect fault hq once
    | success => exact h.readMessage fault hq once
    | _ => exact dropped once

theorem LifeCycle.completed {op : Operation} {task : Task} (h : LifeCycle s)
    (fault : s.fault = none) (hop : s.op = some op) (hq : t.queue = s.queue ++ [task])
    (pending : t.op = none) (events : t.events = s.events) (callbacks : t.callbacks = s.callbacks)
    (frame : t.frame = s.frame) (once : t.load ≤ 1) (setup : task.isSetup = op.isSetup)
    (read : task.isRead = op.isRead)
    (closed : ∀ n, task = .onRead .operationAborted n → t.socket = .closed) : LifeCycle t := by
  obtain ⟨parses, -⟩ := alone_of_op h.once hop
  refine h.quiet fault once events (by simp [callbacks]) ?_ (fun _ begun => ?_) fun n hr => ?_
  · simp [setups, hq, pending, hop, List.countP_cons, setup, Nat.add_comm]
  · rcases begun with reads | ⟨buf, posted⟩ | handling
    · refine .inl (reads.trans ?_)
      simp [Session.reads, hq, pending, hop, List.countP_cons, read, frame]
      omega
    · refine .inr (.inl ⟨buf, ?_⟩)
      rw [hq] at posted
      rcases List.mem_append.mp posted with old | new
      · exact old
      · obtain rfl := List.mem_singleton.mp new
        cases op <;> simp [Task.isSetup, Task.isRead, Operation.isSetup, Operation.isRead]
          at setup read
    · exact .inr (.inr (frame ▸ handling))
  · refine closed n ?_
    rw [hq] at hr
    simpa [parses.no_read, eq_comm] using hr

theorem LifeCycle.startRead {frame : Frame} (h : LifeCycle s) (fault : s.fault = none)
    (hf : s.frame.holdsRead = true)
    (once : ({ s.asyncReadUntil with frame := frame } : Session).load ≤ 1) :
    LifeCycle { s.asyncReadUntil with frame := frame } := by
  obtain ⟨hop, parses, -⟩ := alone_of_frame h.once hf
  have begun : s.Begun := .inl (reads_of_frame hf)
  by_cases closed : s.socket = .closed <;>
    simp only [asyncReadUntil, closed, if_true, if_false] at once ⊢
  · refine h.quiet fault once rfl id ?_ (fun _ _ => begun) fun _ _ => rfl
    simp [setups, Task.isSetup]
  · refine h.quiet fault once rfl id ?_ (fun _ _ => begun)
      fun n hr => absurd hr (parses.no_read _ n)
    simp [setups, Operation.isSetup]

theorem LifeCycle.disconnect {pending : Bool} (h : LifeCycle s) (fault : s.fault = none)
    (once : (s.disconnect pending).load ≤ 1) : LifeCycle (s.disconnect pending) := by
  by_cases shuts : s.shuts pending = true
  · simp only [Session.disconnect, shuts, if_true] at once ⊢
    cases hop : s.op with
    | none =>
      rw [show s.abort = s by simp [abort, hop]] at once ⊢
      exact h.quiet fault once rfl id le_rfl (fun _ => id) fun _ _ => rfl
    | some op =>
      have queue : s.abort.queue = s.queue ++ [aborted op] := by simp [abort, hop]
      refine h.completed fault hop queue (by simp [abort, hop]) s.abort_events s.abort_callbacks
        (by simp [abort, hop]) once ?_ ?_ fun _ _ => rfl
      all_goals cases op <;> rfl
  · simp only [Session.disconnect, if_neg shuts] at once ⊢
    exact h.report fault once rfl (by simp) (fun later => absurd later (by decide)) rfl le_rfl
      (fun _ => id) h.closed

end lives

/-- Every step of a session and of its surroundings keeps the order of its life. -/
theorem Move.lifeCycle {a : Act} {s s' : Session} (move : Move s a s') (h : LifeCycle s)
    (fault : s.fault = none) : LifeCycle s' := by
  have once := move.load.trans h.once
  cases move with
  | copyCallbacks => exact h.quiet fault once rfl (by simp) le_rfl (fun _ => id) h.closed
  | resolved hop | connected hop | eof hop | error hop | complete hop | behind _ _ _ hop =>
    exact h.completed fault hop rfl rfl rfl rfl rfl once rfl rfl (by simp)
  | reset connected =>
    refine h.quiet fault once rfl id le_rfl (fun _ => id) fun n hr => ?_
    have closed := h.closed n hr
    rw [connected] at closed
    cases closed
  | data => exact h.quiet fault once rfl id le_rfl (fun _ => id) h.closed
  | freed _ hq =>
    exact h.quiet fault once rfl id ((Nat.le_add_right _ _).trans (setups_behind hq).le) (by simp)
      fun n hr => h.closed n (by simp [hq, show _ ∈ _ from hr])
  | task _ hq => exact h.runTask fault hq
  | firstRead hf | rearm hf => exact h.startRead fault (by rw [hf]; rfl) once
  | post hf =>
    refine h.quiet fault once rfl id ?_ (fun _ _ => .inr (.inr (by simp [hf]))) fun n hr => ?_
    · simp [setups, Task.isSetup]
    · exact h.closed n (by simpa using hr)
  | disconnect => exact h.disconnect fault once

def bufferOf (line : Bytes) : Option Bytes := readBuffer line line.length

/-- The buffers made so far, in the order in which the scanner gets them: those it has
got, those posted, and the one that the running handler is about to post. -/
def buffers (s : Session) : List Bytes :=
  s.handed ++ (s.queue.filterMap Task.buffer? ++ s.frame.buffer?.toList)

theorem abort_input (s : Session) : s.abort.input = s.input := by
  unfold abort
  split <;> rfl

theorem abort_rest (s : Session) : s.abort.rest = s.rest := by
  unfold abort
  split <;> rfl

theorem abort_buffers (s : Session) : s.abort.buffers = s.buffers := by
  cases hop : s.op with
  | none => simp [abort, hop]
  | some op => cases op <;> simp [abort, hop, buffers, handed, aborted, Task.buffer?]

/-- What has been taken out of the stream buffer is in the buffers, line by line. -/
structure Accounted (stream : Bytes) (s : Session) : Prop where
  found : ∀ n, .onRead .success n ∈ s.queue →
    ∃ p r, Stream.cut delimiter [] s.input = some (p, r) ∧ n = p.length
  taken : ∃ texts, texts.map bufferOf = s.buffers.map some ∧
    texts.flatten ++ s.rest = stream ∧ lines stream = texts ++ lines s.rest

theorem fresh_accounted (table : Callbacks) (destroys : Bool) (wire : List Incoming) :
    Accounted (wire.flatMap Incoming.bytes) (fresh table destroys wire) :=
  ⟨by simp [fresh], [], rfl, rfl, rfl⟩

theorem readBuffer_append (line rest : Bytes) :
    readBuffer (line ++ rest) line.length = bufferOf line := by
  have same : (line ++ rest).take (min line.length (bufSize line.length).toNat) =
      line.take (min line.length (bufSize line.length).toNat) :=
    List.take_append_of_le_length (Nat.min_le_left _ _)
  simp only [readBuffer, bufferOf, same]

section accounts
variable {stream : Bytes} {s t : Session} {task : Task} {queue : List Task}

theorem Accounted.quiet (h : Accounted stream s) (buffers : t.buffers = s.buffers)
    (rest : t.rest = s.rest)
    (found : ∀ n, .onRead .success n ∈ t.queue →
      ∃ p r, Stream.cut delimiter [] t.input = some (p, r) ∧ n = p.length) :
    Accounted stream t :=
  ⟨found, by rw [buffers, rest]; exact h.taken⟩

theorem Accounted.startRead {frame : Frame} (h : Accounted stream s)
    (buffer : frame.buffer? = s.frame.buffer?) :
    Accounted stream { s.asyncReadUntil with frame := frame } := by
  by_cases closed : s.socket = .closed <;> simp only [asyncReadUntil, closed, if_true, if_false]
  · refine h.quiet ?_ rfl fun n hr => h.found n (by simpa using hr)
    simp [buffers, handed, buffer, Task.buffer?]
  · refine h.quiet ?_ rfl h.found
    simp [buffers, handed, buffer]

theorem Accounted.signalDisconnect {error : ErrorCode} {n : Nat} (h : Accounted stream s)
    (life : LifeCycle s) (fault : s.fault = none) (hq : s.queue = .onRead error n :: queue) :
    Accounted stream ({ s with queue := queue } : Session).signalDisconnect := by
  obtain ⟨hop, parses, -⟩ := alone_of_head life.once hq (.inr rfl)
  obtain ⟨cb, hc⟩ := life.callbacks fault (begun_of_read hq)
  obtain ⟨alive, socket, fault', same, -⟩ :=
    signalDisconnect_some (s := { s with queue := queue }) hc hop
  rw [same]
  refine h.quiet ?_ rfl fun k hr => absurd hr (parses.no_read _ k)
  simp [Session.buffers, handed, hq, List.filterMap_cons, Task.buffer?, Event.buffer?]

theorem Accounted.readMessage {n : Nat} (h : Accounted stream s) (life : LifeCycle s)
    (hf : s.frame = .idle) (hq : s.queue = .onRead .success n :: queue) :
    Accounted stream ({ s with queue := queue }.readMessage n) := by
  obtain ⟨-, parses, -⟩ := alone_of_head life.once hq (.inr rfl)
  have found (k : Nat) (hr : .onRead .success k ∈ queue) (input : Bytes) :
      ∃ p r, Stream.cut delimiter [] input = some (p, r) ∧ k = p.length :=
    absurd hr (parses.no_read _ k)
  obtain ⟨p, r, hc, rfl⟩ := h.found n (by simp [hq])
  have input : s.input = p ++ r := Stream.cut_eq hc
  have array : readBuffer s.input p.length = bufferOf p := by rw [input, readBuffer_append]
  cases hb : bufferOf p with
  | none =>
    simp only [Session.readMessage, array, hb]
    refine h.quiet ?_ rfl fun k hr => found k hr _
    simp [Session.buffers, handed, hq, List.filterMap_cons, Task.buffer?]
  | some buf =>
    obtain ⟨texts, made, whole, split⟩ := h.taken
    have next : lines s.rest = p :: lines (r ++ s.wire.flatMap Incoming.bytes) := by
      rw [lines, rest, Stream.pieces_of_cut (Stream.cut_append hc _)]
      rfl
    have drop : s.input.drop p.length = r := by rw [input, List.drop_left]
    simp only [Session.readMessage, array, hb, drop]
    refine ⟨fun k hr => found k hr _, texts ++ [p], ?_, ?_, ?_⟩
    · rw [List.map_append, made]
      simp [Session.buffers, handed, hq, hf, hb, List.filterMap_cons, Task.buffer?, Frame.buffer?]
    · rw [← whole]
      simp [rest, input]
    · rw [split, next]
      simp [rest]

theorem Accounted.runTask (h : Accounted stream s) (life : LifeCycle s) (fault : s.fault = none)
    (hq : s.queue = task :: queue) (idle : task.enters = true → s.frame = .idle) :
    Accounted stream ({ s with queue := queue }.runTask task) := by
  have found (n : Nat) (hr : .onRead .success n ∈ queue) :
      ∃ p r, Stream.cut delimiter [] s.input = some (p, r) ∧ n = p.length :=
    h.found n (by simp [hq, hr])
  have dropped (none : task.buffer? = none) : Accounted stream { s with queue := queue } :=
    h.quiet (by simp [buffers, handed, hq, none]) rfl found
  cases task with
  | threadParse buf =>
    obtain ⟨cb, hc⟩ := life.callbacks fault (.inr (.inl ⟨buf, by simp [hq]⟩))
    simp only [Session.runTask, threadParse, hc]
    refine h.quiet ?_ rfl found
    simp [buffers, handed, hq, Task.buffer?, Event.buffer?]
  | onResolve error =>
    cases error with
    | success => exact (dropped rfl).quiet rfl rfl found
    | _ => exact dropped rfl
  | onConnect error =>
    obtain same | ⟨rfl, -, same⟩ := runTask_onConnect { s with queue := queue } error
    · rw [same]
      exact dropped rfl
    · have hf := idle rfl
      rw [same]
      cases hc : s.callbacks <;> simp only [onConnect, signal] <;>
        refine h.quiet ?_ rfl found <;>
        simp [buffers, handed, hq, hf, List.filterMap_cons, Task.buffer?, Event.buffer?,
          Frame.buffer?]
  | onRead error n =>
    cases error with
    | eof => exact h.signalDisconnect life fault hq
    | operationAborted =>
      rw [life.onRead_aborted hq]
      exact h.signalDisconnect life fault hq
    | success => exact h.readMessage life (idle rfl) hq
    | _ => exact dropped rfl

end accounts

/-- Short of work on a freed session, no step loses a line or hands one over twice. -/
theorem Move.accounted {stream : Bytes} {a : Act} {s s' : Session} (move : Move s a s')
    (h : Accounted stream s) (life : LifeCycle s) (fault : s.fault = none)
    (sound : s'.fault ≠ some .useAfterFree) : Accounted stream s' := by
  cases move with
  | copyCallbacks | reset => exact h.quiet rfl rfl h.found
  | resolved hop | connected hop =>
    refine h.quiet ?_ rfl fun n hr => h.found n (by simpa using hr)
    simp [buffers, handed, Task.buffer?]
  | data hop _ hw =>
    refine h.quiet rfl ?_ fun n hr => absurd hr ((alone_of_op life.once hop).1.no_read _ n)
    simp [rest, hw, Incoming.bytes]
  | eof hop _ hw | error hop _ hw =>
    refine h.quiet ?_ ?_ fun n hr => h.found n (by simpa using hr)
    · simp [buffers, handed, Task.buffer?]
    · simp [rest, hw, Incoming.bytes]
  | complete hop hc =>
    refine h.quiet ?_ rfl fun n hr => ?_
    · simp [buffers, handed, Task.buffer?]
    · have parses := (alone_of_op life.once hop).1
      obtain rfl : n = _ := by simpa [parses.no_read] using hr
      exact ⟨_, _, hc, rfl⟩
  | freed => exact absurd rfl sound
  | task hf hq => exact h.runTask life fault hq fun _ => hf
  | firstRead hf | rearm hf => exact h.startRead (by rw [hf]; rfl)
  | post hf =>
    refine h.quiet ?_ rfl fun n hr => h.found n (by simpa using hr)
    simp [buffers, handed, hf, Task.buffer?, Frame.buffer?]
  | disconnect =>
    unfold Session.disconnect
    split
    · refine h.quiet (abort_buffers s) (abort_rest s) fun n hr => ?_
      obtain old | ⟨⟨⟩⟩ := abort_read hr
      rw [abort_input]
      exact h.found n old
    · refine h.quiet ?_ rfl h.found
      simp [buffers, handed, Event.buffer?]
  | behind _ _ _ hop _ hw =>
    have parses := (alone_of_op life.once hop).1
    refine h.quiet ?_ ?_ fun n hr => absurd (by simpa using hr) (parses.no_read _ n)
    · simp [buffers, handed, Task.buffer?]
    · simp [rest, hw, Incoming.bytes]

theorem Move.holdsRead {a : Act} {s s' : Session} (move : Move s a s')
    (more : s.pendingReads < s'.pendingReads) : s.frame.holdsRead = true := by
  cases move with
  | firstRead hf | rearm hf => rw [hf]; rfl
  | task _ hq =>
    have less := more.trans_le (runTask_handled _ _).reads
    simp only [pendingReads, hq, List.countP_cons] at less
    omega
  | disconnect =>
    refine absurd more ?_
    unfold Session.disconnect
    split
    · exact (abort_pendingReads s).le.not_gt
    · exact lt_irrefl _
  | freed _ hq =>
    simp only [pendingReads, hq, List.countP_cons] at more
    omega
  | resolved hop | connected hop =>
    simp [pendingReads, hop, Task.isRead, Operation.isRead] at more
  | eof hop | error hop | complete hop | behind _ _ _ hop =>
    simp only [pendingReads, hop, Option.toList_some, Option.toList_none, List.countP_append,
      List.countP_singleton, List.countP_nil, Task.isRead, Operation.isRead, if_true] at more
    omega
  | post => simp [pendingReads, Task.isRead] at more
  | copyCallbacks | reset | data => exact absurd more (lt_irrefl _)

structure Stays (s : Session) : Prop where
  alive : s.alive = true
  destroys : s.destroys = false
  sound : s.fault ≠ some .useAfterFree

theorem Stays.runTask {s : Session} (h : Stays s) (task : Task) : Stays (s.runTask task) :=
  have left := s.runTask_handled task
  ⟨(left.alive h.destroys).trans h.alive, left.destroys.trans h.destroys, left.sound h.sound⟩

theorem Stays.move {a : Act} {s s' : Session} (h : Stays s) (move : Move s a s') : Stays s' := by
  cases move with
  | freed _ _ dead => simp [h.alive] at dead
  | @task task queue =>
    have popped : Stays { s with queue := queue } := ⟨h.alive, h.destroys, h.sound⟩
    exact popped.runTask task
  | firstRead | rearm =>
    unfold asyncReadUntil
    split <;> exact ⟨h.alive, h.destroys, h.sound⟩
  | disconnect =>
    unfold Session.disconnect abort
    split
    · cases s.op <;> exact ⟨h.alive, h.destroys, h.sound⟩
    · exact ⟨h.alive, h.destroys, h.sound⟩
  | _ => exact ⟨h.alive, h.destroys, h.sound⟩

/-- What a session may be relied on for in each of its states. -/
structure Safe (wire : List Incoming) (s : Session) : Prop where
  single : s.setups + s.pendingReads ≤ 1
  connects : s.events.count .signalConnect ≤ 1
  ends : s.events.count .signalDisconnect ≤ 1
  preceded : Event.Preceded s.events
  reads : ∀ a s', step a s = some s' → s.pendingReads < s'.pendingReads →
    .signalConnect ∈ s.events ∧ .signalDisconnect ∉ s.events
  handed : (∀ line ∈ lines (wire.flatMap Incoming.bytes), line.length < 2 ^ 31 - 2) →
    ∃ texts : List Bytes, s.buffers = texts.map terminated ∧
      texts.flatten ++ s.rest = wire.flatMap Incoming.bytes

/-- Whatever comes of its operations, and whenever the application closes it, a session
that its callbacks do not destroy is safe. -/
theorem life_cycle {table : Callbacks} {wire : List Incoming} {n : Nat} {s : Session}
    (run : Machine.Run step Machine.free (fresh table false wire) n s) : Safe wire s := by
  obtain ⟨life, accounted, -⟩ : LifeCycle s ∧ Accounted (wire.flatMap Incoming.bytes) s ∧
      Stays s := by
    refine run.invariant (P := fun s => LifeCycle s ∧ Accounted (wire.flatMap Incoming.bytes) s ∧
      Stays s) ?_ ?_
    · exact ⟨fresh_lifeCycle table false wire, fresh_accounted table false wire, rfl, rfl,
        by simp [fresh]⟩
    · rintro a u v ⟨life, accounted, stays⟩ - hs
      obtain ⟨fault, move⟩ := step_move hs
      have next := stays.move move
      exact ⟨move.lifeCycle life fault, move.accounted accounted life fault next.sound, next⟩
  have once := life.once
  simp only [load, Session.reads, disconnects] at once
  refine ⟨?_, ?_, ?_, life.preceded, fun a s' hs more => ?_, fun short => ?_⟩
  · simp only [pendingReads]
    omega
  · exact (Nat.le_add_left _ _).trans life.connects
  · omega
  · obtain ⟨fault, move⟩ := step_move hs
    have hf := move.holdsRead more
    exact ⟨life.begun fault (.inl (reads_of_frame hf)), (alone_of_frame life.once hf).2.2⟩
  · obtain ⟨texts, made, whole, split⟩ := accounted.taken
    refine ⟨texts, ?_, whole⟩
    have array : texts.map bufferOf = (texts.map terminated).map some := by
      rw [List.map_map]
      refine List.map_congr_left fun line hl => ?_
      have fits := short line (by rw [split]; exact List.mem_append_left _ hl)
      have size : line.length + 2 < 2 ^ 31 := by omega
      have array : readBuffer (line ++ []) line.length = some (terminated line) :=
        readBuffer_eq size
      rw [Function.comp_apply, ← array, readBuffer_append]
    exact List.map_injective_iff.mpr (Option.some_injective _) (made.symm.trans array)

def closedInRead : List Act :=
  [.copyCallbacks, .resolved true, .dispatch, .connected true, .dispatch, .proceed, .receive,
    .complete, .dispatch, .proceed, .disconnect true, .proceed, .dispatch, .dispatch]

theorem life_cycle_closed :
    ∃ s, Machine.Run step Machine.free (fresh .full false [.data [0x61, cr, lf, 0x62]])
        closedInRead.length s ∧
      s.events = [.signalConnect, .signalDisconnect, .parse [0x61, cr, lf, nul, nul]] ∧
      Safe [.data [0x61, cr, lf, 0x62]] s := by
  obtain ⟨s, run, events⟩ := Machine.exists_run step Machine.free
    (s := fresh .full false [.data [0x61, cr, lf, 0x62]]) (f := events)
    (b := [.signalConnect, .signalDisconnect, .parse [0x61, cr, lf, nul, nul]]) closedInRead
    (by decide)
  exact ⟨s, run, events, life_cycle run⟩

end Session
end CqIrc
