import CqIrc.Disconnect

/-! The report of the end. A read loop that ends by the end of the stream or by an abort
calls `signal_disconnect`; one that ends by any other error, by a read on a closed
socket (`on_connect` or `on_read` starts it, or the handler of a chunk without a line end)
or by a line whose buffer cannot be allocated does not. -/

namespace CqIrc

def Task.fits : Task → Bool
  | onRead _ msgSize => decide (0 ≤ bufSize msgSize)
  | _ => true

namespace Session

/-- The read loop ends in no other way than by the end of the stream or an abort. -/
def EndsReported (s : Session) : Act → Prop
  | .receive => s.wire.head? ≠ some .error
  | .proceed => s.frame.holdsRead = true → s.socket ≠ .closed
  | .dispatch => s.queue.head?.all Task.fits = true
  | .disconnectBehind => False
  | _ => True

instance (s : Session) : (a : Act) → Decidable (s.EndsReported a)
  | .receive => inferInstanceAs (Decidable (s.wire.head? ≠ some .error))
  | .proceed => inferInstanceAs (Decidable (s.frame.holdsRead = true → s.socket ≠ .closed))
  | .dispatch => inferInstanceAs (Decidable (s.queue.head?.all Task.fits = true))
  | .disconnectBehind => inferInstanceAs (Decidable False)
  | .copyCallbacks | .resolved _ | .connected _ | .reset | .complete | .disconnect _ =>
    inferInstanceAs (Decidable True)

/-- A connected session has a read under way or has reported its end. -/
structure Reported (s : Session) : Prop where
  once : s.load ≤ 1
  dead : s.alive = false → .signalDisconnect ∈ s.events
  called : .signalConnect ∈ s.events → s.callbacks ≠ none
  errors : ∀ error n, .onRead error n ∈ s.queue → error = .success ∨ error = .eof ∨
    (error = .operationAborted ∧ s.socket = .closed)
  kept : .signalConnect ∈ s.events → 1 ≤ s.reads + s.disconnects

theorem fresh_reported (table : Callbacks) (destroys : Bool) (wire : List Incoming) :
    Reported (fresh table destroys wire) :=
  ⟨(fresh_load table destroys wire).le, by simp [fresh], by simp [fresh], by simp [fresh],
    by simp [fresh]⟩

theorem disconnects_pos {s : Session} (h : .signalDisconnect ∈ s.events) :
    1 ≤ s.reads + s.disconnects :=
  (List.one_le_count_iff.mpr h).trans (Nat.le_add_left _ _)

theorem Reported.not_connected {s : Session} (h : Reported s) (setup : 1 ≤ s.setups) :
    .signalConnect ∉ s.events := by
  intro connected
  have kept := h.kept connected
  have once := h.once
  simp only [load] at once
  omega

theorem Reported.of_parses {s : Session} (once : s.load ≤ 1)
    (dead : s.alive = false → .signalDisconnect ∈ s.events)
    (called : .signalConnect ∈ s.events → s.callbacks ≠ none) (parses : Parses s.queue)
    (kept : .signalConnect ∈ s.events → 1 ≤ s.reads + s.disconnects) : Reported s :=
  ⟨once, dead, called, fun error n hr => absurd hr (parses.no_read error n), kept⟩

theorem bufSize_of_fits {error : ErrorCode} {n : Nat} (h : (Task.onRead error n).fits = true)
    (input : Bytes) : ∃ buf, readBuffer input n = some buf := by
  have size : 0 ≤ bufSize n := by simpa [Task.fits] using h
  exact ⟨_, if_neg (by omega)⟩

theorem signalDisconnect_reported {s : Session}
    (dead : s.alive = false → .signalDisconnect ∈ s.events)
    (called : .signalConnect ∈ s.events → s.callbacks ≠ none) (parses : Parses s.queue)
    (hop : s.op = none) (once : s.signalDisconnect.load ≤ 1) : Reported s.signalDisconnect := by
  cases hc : s.callbacks with
  | none =>
    have same := signalDisconnect_uninitialised hc
    rw [same] at once ⊢
    exact .of_parses once dead called parses fun connected => absurd hc (called connected)
  | some cb =>
    have left := signalDisconnect_called hc hop
    refine .of_parses once (fun _ => left.ended) (fun _ => ?_) (left.queue ▸ parses)
      fun _ => disconnects_pos left.ended
    rw [left.callbacks, hc]
    exact Option.some_ne_none cb

theorem task_reported {s : Session} {task : Task} {queue : List Task} (h : Reported s)
    (hq : s.queue = task :: queue) (alive : s.alive = true) (fits : task.fits = true)
    (once : ({ s with queue := queue }.runTask task).load ≤ 1) :
    Reported ({ s with queue := queue }.runTask task) := by
  cases task with
  | threadParse buf =>
    have errors (error : ErrorCode) (n : Nat) (hr : .onRead error n ∈ queue) :
        error = .success ∨ error = .eof ∨ (error = .operationAborted ∧ s.socket = .closed) :=
      h.errors error n (by simp [hq, hr])
    have kept (connected : .signalConnect ∈ s.events) :
        1 ≤ ({ s with queue := queue } : Session).reads + s.disconnects := by
      have same : ({ s with queue := queue } : Session).reads = s.reads := by
        simp [reads, hq, Task.isRead]
      rw [same]
      exact h.kept connected
    cases hc : s.callbacks with
    | none =>
      simp only [runTask, threadParse, hc] at once ⊢
      exact ⟨once, h.dead, fun connected => absurd hc (h.called connected), errors, kept⟩
    | some cb =>
      simp only [runTask, threadParse, hc] at once ⊢
      refine ⟨once, by simp [alive], fun _ => by simp, errors, fun connected => ?_⟩
      have := kept (by simpa using connected)
      simpa [reads, disconnects] using this
  | onResolve error =>
    obtain ⟨-, parses, -⟩ := alone_of_head h.once hq (.inl rfl)
    have silent := h.not_connected (setups_of_head hq rfl)
    cases error <;>
      exact .of_parses once h.dead h.called parses fun connected => absurd connected silent
  | onConnect error =>
    obtain ⟨-, parses, -⟩ := alone_of_head h.once hq (.inl rfl)
    have silent := h.not_connected (setups_of_head hq rfl)
    obtain same | ⟨-, -, same⟩ := runTask_onConnect { s with queue := queue } error
    · rw [same] at once ⊢
      exact .of_parses once h.dead h.called parses fun connected => absurd connected silent
    · rw [same] at once ⊢
      cases hc : s.callbacks with
      | none =>
        simp only [onConnect, signal, hc] at once ⊢
        exact .of_parses once h.dead (fun connected => absurd connected silent) parses
          fun _ => (reads_of_frame rfl).trans (Nat.le_add_right _ _)
      | some cb =>
        simp only [onConnect, signal, hc] at once ⊢
        exact .of_parses once (by simp [alive]) (fun _ => by simp) parses
          fun _ => (reads_of_frame rfl).trans (Nat.le_add_right _ _)
  | onRead error n =>
    obtain ⟨hop, parses, -⟩ := alone_of_head h.once hq (.inr rfl)
    rcases h.errors error n (by simp [hq]) with rfl | rfl | ⟨rfl, closed⟩
    · obtain ⟨buf, hb⟩ := bufSize_of_fits fits s.input
      simp only [runTask, onRead, readMessage, hb] at once ⊢
      exact .of_parses once h.dead h.called parses
        fun _ => (reads_of_frame rfl).trans (Nat.le_add_right _ _)
    · exact signalDisconnect_reported h.dead h.called parses hop once
    · simp only [runTask, onRead, closed, if_true] at once ⊢
      exact signalDisconnect_reported h.dead h.called parses hop once

theorem asyncReadUntil_reported {s : Session} {frame : Frame} (h : Reported s)
    (opened : s.socket ≠ .closed) (hf : s.frame.holdsRead = true)
    (once : ({ s.asyncReadUntil with frame := frame } : Session).load ≤ 1) :
    Reported { s.asyncReadUntil with frame := frame } := by
  obtain ⟨-, parses, -⟩ := alone_of_frame h.once hf
  simp only [asyncReadUntil, opened, if_false] at once ⊢
  exact .of_parses once h.dead h.called parses
    fun _ => (reads_of_op rfl).trans (Nat.le_add_right _ _)

theorem disconnect_reported {s : Session} {pending : Bool} (h : Reported s)
    (once : (s.disconnect pending).load ≤ 1) : Reported (s.disconnect pending) := by
  by_cases shuts : s.shuts pending = true
  · obtain ⟨-, reads⟩ := s.abort_counts
    have events := s.abort_events
    simp only [disconnect, shuts, if_true] at once ⊢
    refine ⟨once, fun dead => ?_, fun sc => ?_, fun error n hr => ?_, fun sc => ?_⟩
    · exact events ▸ h.dead (s.abort_alive.symm.trans dead)
    · exact s.abort_callbacks ▸ h.called (events ▸ sc)
    · rcases abort_read hr with old | rfl
      · rcases h.errors error n old with e | e | ⟨e, -⟩ <;> simp [e]
      · simp
    · change 1 ≤ s.abort.reads + s.abort.events.count _
      rw [reads, events]
      exact h.kept (events ▸ sc)
  · simp only [disconnect, if_neg shuts] at once ⊢
    refine ⟨once, fun dead => by simp [h.dead dead], fun sc => h.called (by simpa using sc),
      h.errors, fun sc => ?_⟩
    have kept := h.kept (by simpa using sc)
    simpa [Session.reads, disconnects] using kept

theorem step_reported {a : Act} {s s' : Session} (h : Reported s) (allowed : s.EndsReported a)
    (hs : step a s = some s') : Reported s' := by
  obtain ⟨-, move⟩ := step_move hs
  have once := move.load.trans h.once
  cases move with
  | copyCallbacks => exact ⟨once, h.dead, fun _ => by simp, h.errors, h.kept⟩
  | reset connected =>
    refine ⟨once, h.dead, h.called, fun error n hr => ?_, h.kept⟩
    rcases h.errors error n hr with e | e | ⟨-, closed⟩
    · exact .inl e
    · exact .inr (.inl e)
    · rw [connected] at closed
      cases closed
  | data => exact ⟨once, h.dead, h.called, h.errors, h.kept⟩
  | resolved hop =>
    have silent := h.not_connected (setups_of_op hop rfl)
    exact ⟨once, h.dead, h.called, by simpa using h.errors, fun sc => absurd sc silent⟩
  | connected hop =>
    obtain ⟨parses, -⟩ := alone_of_op h.once hop
    have silent := h.not_connected (setups_of_op hop rfl)
    exact ⟨once, h.dead, h.called, by simp [parses.no_read], fun sc => absurd sc silent⟩
  | eof hop =>
    obtain ⟨parses, -⟩ := alone_of_op h.once hop
    refine ⟨once, h.dead, h.called, fun error n hr => ?_, fun _ => ?_⟩
    · simp [parses.no_read] at hr
      exact .inr (.inl hr.1)
    · refine (reads_of_task .eof 0 ?_).trans (Nat.le_add_right _ _)
      simp
  | error _ _ hw => exact absurd (by simp [hw]) allowed
  | @complete p _ hop _ =>
    obtain ⟨parses, -⟩ := alone_of_op h.once hop
    refine ⟨once, h.dead, h.called, fun error n hr => ?_, fun _ => ?_⟩
    · simp [parses.no_read] at hr
      exact .inl hr.1
    · refine (reads_of_task .success p.length ?_).trans (Nat.le_add_right _ _)
      simp
  | freed _ hq dead =>
    exact ⟨once, h.dead, h.called, fun error n hr => h.errors error n (by simp [hq, hr]),
      fun _ => disconnects_pos (h.dead dead)⟩
  | task _ hq alive =>
    refine task_reported h hq alive ?_ once
    have fits : s.queue.head?.all Task.fits = true := allowed
    simpa [hq] using fits
  | firstRead hf | rearm hf =>
    have held : s.frame.holdsRead = true := by rw [hf]; rfl
    exact asyncReadUntil_reported h (allowed held) held once
  | post hf =>
    refine ⟨once, h.dead, h.called, by simpa using h.errors, fun sc => ?_⟩
    have kept := h.kept sc
    simpa [reads, disconnects, hf, Frame.holdsRead, Task.isRead] using kept
  | disconnect => exact disconnect_reported h once
  | behind => exact allowed.elim

/-- Where the read loop ends only by the end of the stream or an abort, a connected
session with no read pending, queued or about to be started has called
`signal_disconnect` exactly once. -/
theorem end_reported {table : Callbacks} {destroys : Bool} {wire : List Incoming} {n : Nat}
    {s : Session} (run : Machine.Run step EndsReported (fresh table destroys wire) n s)
    (connected : .signalConnect ∈ s.events) (running : s.frame.holdsRead = false)
    (pending : s.op ≠ some .read) (queued : ∀ error n, .onRead error n ∉ s.queue) :
    s.events.count .signalDisconnect = 1 := by
  have h : Reported s := run.invariant (fresh_reported table destroys wire)
    fun a u v hu allowed hs => step_reported hu allowed hs
  have none : s.reads = 0 := by
    have op : s.op.toList.countP Operation.isRead = 0 := by
      cases hop : s.op with
      | none => rfl
      | some op => cases op <;> simp_all [Operation.isRead]
    have queue : s.queue.countP Task.isRead = 0 := by
      refine List.countP_eq_zero.mpr fun task ht => ?_
      cases task with
      | onRead error n => exact absurd ht (queued error n)
      | _ => exact Bool.false_ne_true
    simp [reads, op, queue, running]
  have kept := h.kept connected
  have once := h.once
  simp only [load, disconnects, none] at kept once
  omega

theorem end_reported_inTime :
    ∃ s, Machine.Run step EndsReported (fresh .full false oneLine) inTime.length s ∧
      .signalConnect ∈ s.events ∧ s.frame.holdsRead = false ∧ s.op ≠ some .read ∧
      (∀ error n, .onRead error n ∉ s.queue) ∧ s.events.count .signalDisconnect = 1 := by
  obtain ⟨s, run, rest⟩ := Machine.exists_run step EndsReported
    (s := fresh .full false oneLine) (f := fun s => (s.events, s.frame, s.op, s.queue))
    (b := ([.signalConnect, .parse [0x61, cr, lf, nul, nul], .signalDisconnect], .idle, none, []))
    inTime (by decide)
  obtain ⟨events, frame, op, queue⟩ : s.events = _ ∧ s.frame = _ ∧ s.op = _ ∧ s.queue = _ := by
    simpa using rest
  have connected : .signalConnect ∈ s.events := by simp [events]
  have running : s.frame.holdsRead = false := by simp [frame, Frame.holdsRead]
  have pending : s.op ≠ some .read := by simp [op]
  have queued (error : ErrorCode) (n : Nat) : .onRead error n ∉ s.queue := by simp [queue]
  exact ⟨s, run, connected, running, pending, queued,
    end_reported run connected running pending queued⟩

def closedInBetween : List Act :=
  [.copyCallbacks, .resolved true, .dispatch, .connected true, .dispatch, .proceed, .receive,
    .complete, .disconnect true, .dispatch, .proceed, .proceed, .dispatch, .dispatch]

/-- The next read is started on the closed socket, and its error is only printed. -/
theorem end_not_reported :
    ∃ s, Machine.Run step Machine.free (fresh .full false oneLine) closedInBetween.length s ∧
      .signalConnect ∈ s.events ∧ s.frame = .idle ∧ s.op = none ∧ s.queue = [] ∧
      s.events.count .signalDisconnect = 0 := by
  obtain ⟨s, run, rest⟩ := Machine.exists_run step Machine.free
    (s := fresh .full false oneLine) (f := fun s => (s.events, s.frame, s.op, s.queue))
    (b := ([.signalConnect, .parse [0x61, cr, lf, nul, nul]], .idle, none, []))
    closedInBetween (by decide)
  obtain ⟨events, frame, op, queue⟩ : s.events = _ ∧ s.frame = _ ∧ s.op = _ ∧ s.queue = _ := by
    simpa using rest
  exact ⟨s, run, by simp [events], frame, op, queue, by simp [events]⟩

end Session
end CqIrc
