import CqIrc.Session

/-! What one step of a session can do, and the life of a session by counting. At most
one operation is pending, completed or about to be started at any time, and none is
left once the end is reported; each handler passes on its operation or drops it. -/

namespace CqIrc

namespace Session

/-- The effects of an act, with what it found. -/
inductive Move (s : Session) : Act → Session → Prop where
  | copyCallbacks : s.callbacks = none → Move s .copyCallbacks { s with callbacks := some s.table }
  | resolved {ok} : s.op = some .resolve →
      Move s (.resolved ok) { s with op := none, queue := s.queue ++ [.onResolve (code ok)] }
  | connected {ok} : s.op = some .connect →
      Move s (.connected ok) { s with
        op := none, queue := s.queue ++ [.onConnect (code ok)],
        socket := if ok then .connected else s.socket }
  | reset : s.socket = .connected → .error ∈ s.wire → Move s .reset { s with socket := .reset }
  | data {chunk wire} : s.op = some .read → Stream.cut delimiter [] s.input = none →
      s.wire = .data chunk :: wire →
      Move s .receive { s with input := s.input ++ chunk, wire := wire }
  | eof {wire} : s.op = some .read → Stream.cut delimiter [] s.input = none →
      s.wire = .eof :: wire →
      Move s .receive
        { s with op := none, queue := s.queue ++ [.onRead .eof 0], wire := wire }
  | error {wire} : s.op = some .read → Stream.cut delimiter [] s.input = none →
      s.wire = .error :: wire →
      Move s .receive { s with
        op := none, queue := s.queue ++ [.onRead .other 0], wire := wire, socket := .reset }
  | complete {p rest} : s.op = some .read → Stream.cut delimiter [] s.input = some (p, rest) →
      Move s .complete
        { s with op := none, queue := s.queue ++ [.onRead .success p.length] }
  | freed {task queue} : s.frame = .idle → s.queue = task :: queue → s.alive = false →
      Move s .dispatch { s with queue := queue, fault := some .useAfterFree }
  | task {task queue} : s.frame = .idle → s.queue = task :: queue → s.alive = true →
      Move s .dispatch ({ s with queue := queue }.runTask task)
  | firstRead : s.frame = .onConnect →
      Move s .proceed { s.asyncReadUntil with frame := .idle }
  | rearm {buf} : s.frame = .onRead buf →
      Move s .proceed { s.asyncReadUntil with frame := .posting buf }
  | post {buf} : s.frame = .posting buf →
      Move s .proceed { s with queue := s.queue ++ [.threadParse buf], frame := .idle }
  | disconnect {pending} : s.alive = true → s.callbacks ≠ none →
      Move s (.disconnect pending) (s.disconnect pending)
  | behind {chunk wire} : s.alive = true → s.callbacks ≠ none → s.socket = .connected →
      s.op = some .read → Stream.cut delimiter [] (s.input ++ chunk) = none →
      s.wire = .data chunk :: wire →
      Move s .disconnectBehind { s with
        input := s.input ++ chunk, wire := wire, socket := .closed, op := none,
        queue := s.queue ++ [.onRead .badDescriptor 0] }

theorem act_move {a : Act} {s s' : Session} (h : s.act a = some s') : Move s a s' := by
  cases a with
  | copyCallbacks =>
    obtain ⟨none, ⟨⟩⟩ := Option.ite_none_right_eq_some.mp h
    exact .copyCallbacks none
  | resolved ok =>
    obtain ⟨hop, ⟨⟩⟩ := Option.ite_none_right_eq_some.mp h
    exact .resolved hop
  | connected ok =>
    obtain ⟨hop, ⟨⟩⟩ := Option.ite_none_right_eq_some.mp h
    exact .connected hop
  | reset =>
    obtain ⟨⟨connected, torn⟩, ⟨⟩⟩ := Option.ite_none_right_eq_some.mp h
    exact .reset connected torn
  | receive =>
    obtain ⟨⟨hop, hc⟩, h⟩ := Option.ite_none_right_eq_some.mp h
    unfold receive at h
    split at h
    · cases h
    · next hw =>
      cases h
      exact .data hop hc hw
    · next hw =>
      cases h
      exact .eof hop hc hw
    · next hw =>
      cases h
      exact .error hop hc hw
  | complete =>
    obtain ⟨hop, h⟩ := Option.ite_none_right_eq_some.mp h
    obtain ⟨⟨p, rest⟩, hc, rfl⟩ := Option.map_eq_some_iff.mp h
    exact .complete hop hc
  | dispatch =>
    change s.dispatch = some s' at h
    unfold dispatch at h
    split at h
    · next hf hq =>
      cases h
      split
      · next alive => exact .task hf hq alive
      · next dead => exact .freed hf hq (by simpa using dead)
    · cases h
  | proceed =>
    change s.proceed = some s' at h
    unfold proceed at h
    split at h
    · cases h
    · next hf =>
      cases h
      exact .firstRead hf
    · next hf =>
      cases h
      exact .rearm hf
    · next hf =>
      cases h
      exact .post hf
  | disconnect pending =>
    obtain ⟨⟨alive, called⟩, ⟨⟩⟩ := Option.ite_none_right_eq_some.mp h
    exact .disconnect alive called
  | disconnectBehind =>
    obtain ⟨⟨⟨alive, called⟩, connected, hop, -⟩, h⟩ := Option.ite_none_right_eq_some.mp h
    unfold disconnectBehind at h
    split at h
    · next hw =>
      obtain ⟨free, ⟨⟩⟩ := Option.ite_none_right_eq_some.mp h
      exact .behind alive called connected hop free hw
    · cases h

theorem step_move {a : Act} {s s' : Session} (h : step a s = some s') :
    s.fault = none ∧ Move s a s' := by
  obtain ⟨hf, h⟩ := Option.ite_none_right_eq_some.mp h
  exact ⟨hf, act_move h⟩

end Session

namespace Task

def isRead : Task → Bool
  | onRead _ _ => true
  | _ => false

def isSetup : Task → Bool
  | onResolve _ | onConnect _ => true
  | _ => false

end Task

namespace Operation

def isRead : Operation → Bool
  | read => true
  | _ => false

def isSetup : Operation → Bool
  | resolve | connect => true
  | read => false

end Operation

def Frame.holdsRead : Frame → Bool
  | onConnect | onRead _ => true
  | idle | posting _ => false

namespace Session

/-- Resolves and connects: pending, or completed and queued. -/
def setups (s : Session) : Nat :=
  s.op.toList.countP Operation.isSetup + s.queue.countP Task.isSetup

def reads (s : Session) : Nat :=
  s.op.toList.countP Operation.isRead + s.queue.countP Task.isRead + s.frame.holdsRead.toNat

def disconnects (s : Session) : Nat := s.events.count .signalDisconnect

def load (s : Session) : Nat := s.setups + s.reads + s.disconnects

theorem fresh_load (table : Callbacks) (destroys : Bool) (wire : List Incoming) :
    (fresh table destroys wire).load = 1 := rfl

theorem abort_counts (s : Session) : s.abort.setups = s.setups ∧ s.abort.reads = s.reads := by
  cases h : s.op with
  | none => simp [abort, h]
  | some op =>
    cases op <;>
      simp [abort, h, setups, reads, aborted, Task.isSetup, Task.isRead, Operation.isSetup,
        Operation.isRead, Nat.add_comm]

theorem abort_events (s : Session) : s.abort.events = s.events := by
  unfold abort
  split <;> rfl

theorem abort_callbacks (s : Session) : s.abort.callbacks = s.callbacks := by
  unfold abort
  split <;> rfl

theorem abort_alive (s : Session) : s.abort.alive = s.alive := by
  unfold abort
  split <;> rfl

theorem abort_fault (s : Session) : s.abort.fault = s.fault := by
  unfold abort
  split <;> rfl

theorem abort_read {s : Session} {error : ErrorCode} {n : Nat}
    (hr : .onRead error n ∈ s.abort.queue) :
    .onRead error n ∈ s.queue ∨ error = .operationAborted := by
  cases hop : s.op with
  | none => exact .inl (by simpa [abort, hop] using hr)
  | some op => cases op <;> simp [abort, hop, aborted] at hr <;> tauto

theorem destroy_load (s : Session) : s.destroy.load = s.load := by
  obtain ⟨hs, hr⟩ := s.abort_counts
  have he := s.abort_events
  unfold load disconnects at *
  change s.abort.setups + s.abort.reads + s.abort.events.count _ = _
  rw [hs, hr, he]

theorem disconnect_load (s : Session) (pending : Bool) :
    (s.disconnect pending).load = s.load := by
  unfold disconnect
  split
  · obtain ⟨hs, hr⟩ := s.abort_counts
    change s.abort.setups + s.abort.reads + s.abort.events.count _ = _
    rw [hs, hr, s.abort_events]
    rfl
  · simp [load, setups, reads, disconnects]

theorem signal_load (s : Session) (f : Signal) (e : Event) :
    (s.signal f e).load ≤ s.load + if e = .signalDisconnect then 1 else 0 := by
  unfold signal
  split
  · exact Nat.le_add_right _ _
  · by_cases h : e = .signalDisconnect
    · simp [load, setups, reads, disconnects, h]
      omega
    · simp [load, setups, reads, disconnects, h]

theorem signalDisconnect_load (s : Session) : s.signalDisconnect.load ≤ s.load + 1 := by
  have h := s.signal_load .disconnect .signalDisconnect
  unfold signalDisconnect
  simp only
  split
  · rw [destroy_load]
    exact h
  · exact h

/-- What is left once the end has been reported; no operation was pending. -/
structure Ended (s t : Session) : Prop where
  queue : t.queue = s.queue
  frame : t.frame = s.frame
  callbacks : t.callbacks = s.callbacks
  ended : .signalDisconnect ∈ t.events
  sound : t.fault ≠ some .useAfterFree

theorem signalDisconnect_kept {s : Session} {cb : Callbacks} (hc : s.callbacks = some cb)
    (kept : ¬ (s.destroys = true ∧ cb.has .disconnect = true)) :
    s.signalDisconnect = s.signal .disconnect .signalDisconnect := by
  unfold signalDisconnect
  refine if_neg fun gone => kept ?_
  simpa [signal, hc] using gone

theorem signalDisconnect_called {s : Session} {cb : Callbacks} (hc : s.callbacks = some cb)
    (hop : s.op = none) : Ended s s.signalDisconnect := by
  by_cases gone : s.destroys = true ∧ cb.has .disconnect = true
  · constructor <;> simp [signalDisconnect, signal, hc, gone, destroy, abort, hop]
  · rw [signalDisconnect_kept hc gone]
    constructor <;> simp [signal, hc]

theorem signalDisconnect_uninitialised {s : Session} (hc : s.callbacks = none) :
    s.signalDisconnect = { s with fault := some .uninitialisedCallbacks } := by
  simp [signalDisconnect, signal, hc]

theorem readMessage_load (s : Session) (n : Nat) : (s.readMessage n).load ≤ s.load + 1 := by
  cases hb : readBuffer s.input n with
  | none =>
    simp only [readMessage, hb]
    exact Nat.le_add_right _ _
  | some buf =>
    simp [readMessage, hb, load, setups, reads, disconnects, Frame.holdsRead]
    omega

theorem onRead_load (s : Session) (n : Nat) (error : ErrorCode) :
    (s.onRead n error).load ≤ s.load + 1 := by
  cases error with
  | eof => exact s.signalDisconnect_load
  | success => exact s.readMessage_load n
  | operationAborted =>
    simp only [onRead]
    split
    · exact s.signalDisconnect_load
    · exact s.readMessage_load n
  | _ => exact Nat.le_add_right _ _

theorem onConnect_load (s : Session) (error : ErrorCode) :
    (s.onConnect error).load ≤ s.load + 1 := by
  cases error with
  | success =>
    have h := s.signal_load .connect .signalConnect
    have frame : ({ s.signal .connect .signalConnect with frame := .onConnect } : Session).load ≤
        (s.signal .connect .signalConnect).load + 1 := by
      simp [load, setups, reads, disconnects, Frame.holdsRead]
      omega
    exact frame.trans (by simpa using h)
  | _ => exact Nat.le_add_right _ _

/-- `on_connect` goes on only if the connect has succeeded and the socket is open still. -/
theorem runTask_onConnect (s : Session) (error : ErrorCode) :
    s.runTask (.onConnect error) = s ∨
      error = .success ∧ s.socket ≠ .closed ∧
        s.runTask (.onConnect error) = s.onConnect .success := by
  simp only [runTask, connectOp]
  split
  · exact .inl rfl
  · next opened =>
    cases error with
    | success => exact .inr ⟨rfl, opened, rfl⟩
    | _ => exact .inl rfl

theorem onResolve_load (s : Session) (error : ErrorCode) :
    (s.onResolve error).load ≤ s.load + 1 := by
  cases error with
  | success =>
    simp [onResolve, load, setups, reads, disconnects, Operation.isSetup, Operation.isRead]
    omega
  | _ => exact Nat.le_add_right _ _

theorem threadParse_load (s : Session) (buf : Bytes) : (s.threadParse buf).load = s.load := by
  unfold threadParse
  split
  · rfl
  · simp [load, setups, reads, disconnects]

/-- A handler adds at most the operation it starts, or the report of the end. -/
theorem runTask_load (s : Session) (task : Task) (queue : List Task) (h : s.queue = task :: queue) :
    ({ s with queue := queue }.runTask task).load ≤ s.load := by
  have gone : ({ s with queue := queue } : Session).load +
      (if task.isSetup || task.isRead then 1 else 0) ≤ s.load := by
    simp only [load, setups, reads, disconnects, h, List.countP_cons]
    cases task <;> simp only [Task.isSetup, Task.isRead, Bool.or_true, Bool.or_false,
      Bool.false_eq_true, if_true, if_false] <;> omega
  cases task with
  | onResolve error => exact (onResolve_load _ _).trans gone
  | onConnect error => exact (onConnect_load _ _).trans gone
  | onRead error n => exact (onRead_load _ _ _).trans gone
  | threadParse buf => exact (threadParse_load _ _).trans_le gone

/-- No step adds to the operations of a session and the reports of its end. -/
theorem Move.load {a : Act} {s s' : Session} (h : Move s a s') : s'.load ≤ s.load := by
  have started (frame : Frame) (hf : s.frame.holdsRead = true) (idle : frame.holdsRead = false) :
      ({ s.asyncReadUntil with frame := frame } : Session).load ≤ s.load := by
    unfold asyncReadUntil
    split <;>
      simp [Session.load, setups, reads, disconnects, hf, idle, Task.isSetup, Task.isRead,
        Operation.isSetup, Operation.isRead] <;> omega
  have queued (op : Operation) (task : Task) (socket : Socket) (input : Bytes)
      (wire : List Incoming) (hop : s.op = some op) (setup : task.isSetup = op.isSetup)
      (read : task.isRead = op.isRead) :
      ({ s with op := none, queue := s.queue ++ [task], socket := socket, input := input,
                wire := wire } : Session).load = s.load := by
    simp only [Session.load, setups, reads, disconnects, hop, List.countP_append,
      List.countP_cons, List.countP_nil, Option.toList_none, Option.toList_some, setup, read]
    omega
  cases h with
  | copyCallbacks => exact le_rfl
  | resolved hop => exact (queued _ _ s.socket s.input s.wire hop rfl rfl).le
  | connected hop => exact (queued _ _ _ s.input s.wire hop rfl rfl).le
  | reset | data => exact le_rfl
  | eof hop => exact (queued _ _ s.socket s.input _ hop rfl rfl).le
  | error hop => exact (queued _ _ _ s.input _ hop rfl rfl).le
  | complete hop => exact (queued _ _ s.socket s.input s.wire hop rfl rfl).le
  | freed _ hq _ =>
    simp [Session.load, setups, reads, disconnects, hq, List.countP_cons]
    omega
  | task _ hq _ => exact s.runTask_load _ _ hq
  | firstRead hf => exact started .idle (by rw [hf]; rfl) rfl
  | rearm hf => exact started (.posting _) (by rw [hf]; rfl) rfl
  | post hf =>
    simp [Session.load, setups, reads, disconnects, hf, Frame.holdsRead, Task.isSetup,
      Task.isRead]
  | disconnect => exact (s.disconnect_load _).le
  | behind _ _ _ hop => exact (queued _ _ _ _ _ hop rfl rfl).le

def Parses (queue : List Task) : Prop := ∀ task ∈ queue, ∃ buf, task = .threadParse buf

theorem Parses.no_read {queue : List Task} (h : Parses queue) (error : ErrorCode) (n : Nat) :
    .onRead error n ∉ queue := by
  intro hr
  obtain ⟨buf, e⟩ := h _ hr
  cases e

theorem parses_of_count {queue : List Task} (hs : queue.countP Task.isSetup = 0)
    (hr : queue.countP Task.isRead = 0) : Parses queue := by
  intro task ht
  have setup := List.countP_eq_zero.mp hs task ht
  have read := List.countP_eq_zero.mp hr task ht
  cases task with
  | threadParse buf => exact ⟨buf, rfl⟩
  | onRead => exact absurd rfl read
  | _ => exact absurd rfl setup

theorem reads_of_op {s : Session} (h : s.op = some .read) : 1 ≤ s.reads := by
  simp [reads, h, Operation.isRead]
  omega

theorem reads_of_frame {s : Session} (h : s.frame.holdsRead = true) : 1 ≤ s.reads := by
  simp [reads, h]

theorem reads_of_task {s : Session} (error : ErrorCode) (n : Nat)
    (h : .onRead error n ∈ s.queue) : 1 ≤ s.reads := by
  have pos : 0 < s.queue.countP Task.isRead := List.countP_pos_iff.mpr ⟨_, h, rfl⟩
  simp only [reads]
  omega

theorem setups_of_op {s : Session} {op : Operation} (h : s.op = some op)
    (setup : op.isSetup = true) : 1 ≤ s.setups := by
  simp [setups, h, setup]

theorem setups_of_head {s : Session} {task : Task} {queue : List Task} (h : s.queue = task :: queue)
    (setup : task.isSetup = true) : 1 ≤ s.setups := by
  simp [setups, h, setup]
  omega

theorem op_eq_none {op : Option Operation} (hs : op.toList.countP Operation.isSetup = 0)
    (hr : op.toList.countP Operation.isRead = 0) : op = none := by
  cases op with
  | none => rfl
  | some op => cases op <;> simp [Operation.isSetup, Operation.isRead] at hs hr

theorem not_mem_of_disconnects {s : Session} (h : s.disconnects = 0) :
    .signalDisconnect ∉ s.events := List.count_eq_zero.mp h

section alone
variable {s : Session} (once : s.load ≤ 1)
include once

theorem alone_of_op {op : Operation} (h : s.op = some op) :
    Parses s.queue ∧ s.frame.holdsRead = false ∧ .signalDisconnect ∉ s.events := by
  have one : s.op.toList.countP Operation.isSetup + s.op.toList.countP Operation.isRead = 1 := by
    cases op <;> simp [h, Operation.isSetup, Operation.isRead]
  simp only [load, setups, reads] at once
  refine ⟨parses_of_count (by omega) (by omega), ?_, not_mem_of_disconnects (by omega)⟩
  exact Bool.toNat_eq_zero.mp (by omega)

theorem alone_of_frame (h : s.frame.holdsRead = true) :
    s.op = none ∧ Parses s.queue ∧ .signalDisconnect ∉ s.events := by
  simp only [load, setups, reads, h, Bool.toNat_true] at once
  exact ⟨op_eq_none (by omega) (by omega), parses_of_count (by omega) (by omega),
    not_mem_of_disconnects (by omega)⟩

theorem alone_of_head {task : Task} {queue : List Task} (h : s.queue = task :: queue)
    (ht : task.isSetup = true ∨ task.isRead = true) :
    s.op = none ∧ Parses queue ∧ s.frame.holdsRead = false ∧ .signalDisconnect ∉ s.events := by
  have one : (if task.isSetup then 1 else 0) + (if task.isRead then 1 else 0) = 1 := by
    cases task <;> simp [Task.isSetup, Task.isRead] at ht ⊢
  simp only [load, setups, reads, h, List.countP_cons] at once
  exact ⟨op_eq_none (by omega) (by omega), parses_of_count (by omega) (by omega),
    Bool.toNat_eq_zero.mp (by omega), not_mem_of_disconnects (by omega)⟩

end alone

def pendingReads (s : Session) : Nat :=
  s.op.toList.countP Operation.isRead + s.queue.countP Task.isRead

theorem abort_pendingReads (s : Session) : s.abort.pendingReads = s.pendingReads := by
  cases hop : s.op with
  | none => simp [abort, hop]
  | some op =>
    cases op <;> simp [abort, hop, pendingReads, aborted, Task.isRead, Operation.isRead,
      Nat.add_comm]

/-- What no handler changes by itself, and what it may only let go. -/
structure Handled (s t : Session) : Prop where
  table : t.table = s.table
  destroys : t.destroys = s.destroys
  callbacks : t.callbacks = s.callbacks
  alive : s.destroys = false → t.alive = s.alive
  reads : t.pendingReads ≤ s.pendingReads
  throws : t.events.count .shutdownThrew = s.events.count .shutdownThrew
  sound : s.fault ≠ some .useAfterFree → t.fault ≠ some .useAfterFree

theorem Handled.refl (s : Session) : Handled s s := ⟨rfl, rfl, rfl, fun _ => rfl, le_rfl, rfl, id⟩

theorem signal_handled (s : Session) (f : Signal) {e : Event} (he : e ≠ .shutdownThrew) :
    Handled s (s.signal f e) := by
  unfold signal
  split
  · exact ⟨rfl, rfl, rfl, fun _ => rfl, le_rfl, rfl, by simp⟩
  · refine ⟨rfl, rfl, rfl, fun _ => rfl, le_rfl, ?_, fun _ => by split <;> simp⟩
    simp [he]

theorem abort_handled (s : Session) : Handled s s.abort := by
  cases hop : s.op with
  | none =>
    rw [show s.abort = s by simp [abort, hop]]
    exact .refl s
  | some op =>
    have same : s.abort = { s with op := none, queue := s.queue ++ [aborted op] } := by
      simp [abort, hop]
    have reads := s.abort_pendingReads
    rw [same] at reads ⊢
    exact ⟨rfl, rfl, rfl, fun _ => rfl, reads.le, rfl, id⟩

theorem signalDisconnect_handled (s : Session) : Handled s s.signalDisconnect := by
  have signalled := s.signal_handled .disconnect (e := .signalDisconnect) (by simp)
  unfold signalDisconnect
  simp only
  split
  · next gone =>
    have left := abort_handled (s.signal .disconnect .signalDisconnect)
    refine ⟨left.table.trans signalled.table, left.destroys.trans signalled.destroys,
      left.callbacks.trans signalled.callbacks, fun stays => ?_,
      left.reads.trans signalled.reads, left.throws.trans signalled.throws,
      fun sound => left.sound (signalled.sound sound)⟩
    rw [signalled.destroys, stays] at gone
    cases gone.1
  · exact signalled

theorem readMessage_handled (s : Session) (n : Nat) : Handled s (s.readMessage n) := by
  unfold readMessage
  split
  · exact ⟨rfl, rfl, rfl, fun _ => rfl, le_rfl, rfl, by simp⟩
  · exact ⟨rfl, rfl, rfl, fun _ => rfl, le_rfl, rfl, id⟩

theorem runTask_handled (s : Session) (task : Task) : Handled s (s.runTask task) := by
  cases task with
  | threadParse buf =>
    simp only [runTask, threadParse]
    split
    · exact ⟨rfl, rfl, rfl, fun _ => rfl, le_rfl, rfl, by simp⟩
    · exact ⟨rfl, rfl, rfl, fun _ => rfl, le_rfl, by simp, id⟩
  | onResolve error =>
    cases error with
    | success =>
      refine ⟨rfl, rfl, rfl, fun _ => rfl, ?_, rfl, id⟩
      simp [runTask, onResolve, pendingReads, Operation.isRead]
    | _ => exact .refl s
  | onConnect error =>
    obtain same | ⟨-, -, same⟩ := s.runTask_onConnect error
    · rw [same]
      exact .refl s
    · have left := s.signal_handled .connect (e := .signalConnect) (by simp)
      rw [same]
      exact ⟨left.table, left.destroys, left.callbacks, left.alive, left.reads, left.throws,
        left.sound⟩
  | onRead error n =>
    cases error with
    | eof => exact s.signalDisconnect_handled
    | success => exact s.readMessage_handled n
    | operationAborted =>
      simp only [runTask, onRead]
      split
      · exact s.signalDisconnect_handled
      · exact s.readMessage_handled n
    | _ => exact .refl s

end Session
end CqIrc
