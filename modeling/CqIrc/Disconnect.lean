import CqIrc.SessionInvariant

/-! The end of a session. `on_read` starts the next read before it posts the parse of
the line it holds, so the completion that ends the session may be queued in between;
where it is not, `signal_disconnect` finds no work of the session left. -/

namespace CqIrc

def ErrorCode.ends : ErrorCode → Bool
  | eof | operationAborted => true
  | _ => false

def Frame.isPosting : Frame → Bool
  | posting _ => true
  | _ => false

namespace Session

/-- Between `async_read_until` and `post` the re-armed read neither meets the end of the
stream nor is aborted. -/
def NotOvertaken (s : Session) : Act → Prop
  | .receive => s.frame.isPosting = true → s.wire.head? ≠ some .eof
  | .disconnect _ => s.frame.isPosting = true → s.op ≠ some .read
  | _ => True

instance (s : Session) : (a : Act) → Decidable (s.NotOvertaken a)
  | .receive =>
    inferInstanceAs (Decidable (s.frame.isPosting = true → s.wire.head? ≠ some .eof))
  | .disconnect _ => inferInstanceAs (Decidable (s.frame.isPosting = true → s.op ≠ some .read))
  | .copyCallbacks | .resolved _ | .connected _ | .reset | .complete | .dispatch | .proceed
  | .disconnectBehind => inferInstanceAs (Decidable True)

/-- A completion that ends the session is the last entry of the queue. -/
structure Orderly (s : Session) : Prop where
  once : s.load ≤ 1
  dead : s.alive = false → .signalDisconnect ∈ s.events
  last : ∀ error n, .onRead error n ∈ s.queue → error.ends = true →
    (∃ queue, s.queue = queue ++ [.onRead error n]) ∧ s.frame.isPosting = false
  done : .signalDisconnect ∈ s.events → s.queue = [] ∧ s.frame = .idle
  sound : s.fault ≠ some .useAfterFree

theorem Orderly.of_open {s : Session} (once : s.load ≤ 1) (alive : s.alive = true)
    (open_ : .signalDisconnect ∉ s.events)
    (last : ∀ error n, .onRead error n ∈ s.queue → error.ends = false)
    (sound : s.fault ≠ some .useAfterFree) : Orderly s := by
  refine ⟨once, fun h => ?_, fun error n h ends => ?_, fun h => absurd h open_, sound⟩
  · rw [alive] at h
    cases h
  · rw [last error n h] at ends
    cases ends

theorem fresh_orderly (table : Callbacks) (destroys : Bool) (wire : List Incoming) :
    Orderly (fresh table destroys wire) :=
  .of_open (fresh_load table destroys wire).le rfl (by simp [fresh]) (by simp [fresh])
    (by simp [fresh])

theorem Orderly.alive {s : Session} (h : Orderly s) (open_ : .signalDisconnect ∉ s.events) :
    s.alive = true := by
  by_contra dead
  exact open_ (h.dead (by simpa using dead))

theorem Orderly.alone {s : Session} (h : Orderly s) {error : ErrorCode} {n : Nat}
    {queue : List Task} (hq : s.queue = .onRead error n :: queue) (ends : error.ends = true) :
    queue = [] := by
  obtain ⟨-, parses, -⟩ := alone_of_head h.once hq (.inr rfl)
  obtain ⟨⟨front, e⟩, -⟩ := h.last error n (by simp [hq]) ends
  rw [hq] at e
  cases front with
  | nil => exact (List.cons.inj e).2
  | cons task front =>
    exact absurd ((List.cons.inj e).2 ▸ by simp) (parses.no_read error n)

theorem signalDisconnect_orderly {s : Session} (hop : s.op = none) (hq : s.queue = [])
    (hf : s.frame = .idle) (alive : s.alive = true) (once : s.signalDisconnect.load ≤ 1) :
    Orderly s.signalDisconnect := by
  cases hc : s.callbacks with
  | none =>
    rw [signalDisconnect_uninitialised hc] at once ⊢
    refine ⟨once, fun dead => absurd (alive.symm.trans dead) (by decide),
      fun error n hr => ?_, fun _ => ⟨hq, hf⟩, by simp⟩
    rw [hq] at hr
    cases hr
  | some cb =>
    have left := signalDisconnect_called hc hop
    refine ⟨once, fun _ => left.ended, fun error n hr => ?_,
      fun _ => ⟨left.queue.trans hq, left.frame.trans hf⟩, left.sound⟩
    rw [left.queue, hq] at hr
    cases hr

theorem readMessage_orderly {s : Session} (n : Nat) (parses : Parses s.queue)
    (alive : s.alive = true) (open_ : .signalDisconnect ∉ s.events) (fault : s.fault = none)
    (once : (s.readMessage n).load ≤ 1) : Orderly (s.readMessage n) := by
  cases hb : readBuffer s.input n <;> rw [readMessage, hb] at once ⊢
  · exact .of_open once alive open_ (fun error n hr => absurd hr (parses.no_read error n)) (by simp)
  · exact .of_open once alive open_ (fun error n hr => absurd hr (parses.no_read error n))
      (by simp [fault])

theorem Orderly.last_behind {s : Session} (h : Orderly s) {buf : Bytes} {queue : List Task}
    (hq : s.queue = .threadParse buf :: queue) {error : ErrorCode} {n : Nat}
    (hr : .onRead error n ∈ queue) (ends : error.ends = true) :
    ∃ front, queue = front ++ [.onRead error n] := by
  obtain ⟨⟨front, e⟩, -⟩ := h.last error n (by simp [hq, hr]) ends
  rw [hq] at e
  cases front with
  | nil => cases e
  | cons task front => exact ⟨front, (List.cons.inj e).2⟩

theorem task_orderly {s : Session} {task : Task} {queue : List Task} (h : Orderly s)
    (fault : s.fault = none) (hf : s.frame = .idle) (hq : s.queue = task :: queue)
    (alive : s.alive = true) (once : ({ s with queue := queue }.runTask task).load ≤ 1) :
    Orderly ({ s with queue := queue }.runTask task) := by
  have open_ : .signalDisconnect ∉ s.events := by
    intro ended
    have empty := (h.done ended).1
    rw [hq] at empty
    cases empty
  have parsing (parses : Parses queue) (error : ErrorCode) (n : Nat)
      (hr : .onRead error n ∈ queue) : error.ends = false := absurd hr (parses.no_read error n)
  have sound : s.fault ≠ some .useAfterFree := by simp [fault]
  cases task with
  | threadParse buf =>
    have last (error : ErrorCode) (n : Nat) (hr : .onRead error n ∈ queue)
        (ends : error.ends = true) :
        (∃ front, queue = front ++ [.onRead error n]) ∧ s.frame.isPosting = false :=
      ⟨h.last_behind hq hr ends, by rw [hf]; rfl⟩
    cases hc : s.callbacks with
    | none =>
      simp only [runTask, threadParse, hc] at once ⊢
      exact ⟨once, h.dead, last, fun ended => absurd ended open_, by simp⟩
    | some cb =>
      simp only [runTask, threadParse, hc] at once ⊢
      exact ⟨once, by simp [alive], last, fun ended => by simp [open_] at ended, sound⟩
  | onResolve error =>
    obtain ⟨-, parses, -⟩ := alone_of_head h.once hq (.inl rfl)
    cases error <;> exact .of_open once alive open_ (parsing parses) sound
  | onConnect error =>
    obtain ⟨-, parses, -⟩ := alone_of_head h.once hq (.inl rfl)
    obtain same | ⟨-, -, same⟩ := runTask_onConnect { s with queue := queue } error
    · rw [same] at once ⊢
      exact .of_open once alive open_ (parsing parses) sound
    · rw [same] at once ⊢
      cases hc : s.callbacks with
      | none =>
        simp only [onConnect, signal, hc] at once ⊢
        exact .of_open once alive open_ (parsing parses) (by simp)
      | some cb =>
        simp only [onConnect, signal, hc] at once ⊢
        refine .of_open once alive (by simp [open_]) (parsing parses) ?_
        cases cb.has .connect <;> simp
  | onRead error n =>
    obtain ⟨hop, parses, -⟩ := alone_of_head h.once hq (.inr rfl)
    cases error with
    | eof => exact signalDisconnect_orderly hop (h.alone hq rfl) hf alive once
    | operationAborted =>
      by_cases closed : s.socket = .closed
      · simp only [runTask, onRead, closed, if_true] at once ⊢
        exact signalDisconnect_orderly hop (h.alone hq rfl) hf alive once
      · simp only [runTask, onRead, closed, if_false] at once ⊢
        exact readMessage_orderly n parses alive open_ fault once
    | success => exact readMessage_orderly n parses alive open_ fault once
    | _ => exact .of_open once alive open_ (parsing parses) sound

/-- A read that is started on a closed socket does not end the session in an orderly way,
nor in any other. -/
theorem asyncReadUntil_orderly {s : Session} {frame : Frame} (h : Orderly s)
    (fault : s.fault = none) (hf : s.frame.holdsRead = true)
    (once : ({ s.asyncReadUntil with frame := frame } : Session).load ≤ 1) :
    Orderly { s.asyncReadUntil with frame := frame } := by
  obtain ⟨-, parses, open_⟩ := alone_of_frame h.once hf
  have sound : s.fault ≠ some .useAfterFree := by simp [fault]
  by_cases closed : s.socket = .closed
  · simp only [asyncReadUntil, closed, if_true] at once ⊢
    refine .of_open once (h.alive open_) open_ (fun error n hr => ?_) sound
    obtain ⟨rfl, -⟩ : error = .badDescriptor ∧ n = 0 := by simpa [parses.no_read] using hr
    rfl
  · simp only [asyncReadUntil, closed, if_false] at once ⊢
    exact .of_open once (h.alive open_) open_
      (fun error n hr => absurd hr (parses.no_read error n)) sound

theorem disconnect_orderly {s : Session} {pending : Bool} (h : Orderly s)
    (allowed : s.NotOvertaken (.disconnect pending)) (fault : s.fault = none)
    (once : (s.disconnect pending).load ≤ 1) : Orderly (s.disconnect pending) := by
  have sound : s.fault ≠ some .useAfterFree := by simp [fault]
  by_cases shuts : s.shuts pending = true
  · simp only [disconnect, shuts, if_true] at once ⊢
    cases hop : s.op with
    | none =>
      simp only [abort, hop] at once ⊢
      exact ⟨once, h.dead, h.last, h.done, sound⟩
    | some op =>
      obtain ⟨parses, -, open_⟩ := alone_of_op h.once hop
      simp only [abort, hop] at once ⊢
      refine ⟨once, h.dead, fun error n hr _ => ?_, fun hd => absurd hd open_, sound⟩
      cases op with
      | read =>
        obtain ⟨rfl, rfl⟩ : error = .operationAborted ∧ n = 0 := by
          simpa [aborted, parses.no_read] using hr
        refine ⟨⟨s.queue, rfl⟩, ?_⟩
        by_contra posting
        exact allowed (by simpa using posting) hop
      | _ => simp [aborted, parses.no_read] at hr
  · simp only [disconnect, if_neg shuts] at once ⊢
    exact ⟨once, fun dead => by simp [h.dead dead], h.last,
      fun ended => h.done (by simpa using ended), sound⟩

theorem step_orderly {a : Act} {s s' : Session} (h : Orderly s) (allowed : s.NotOvertaken a)
    (hs : step a s = some s') : Orderly s' := by
  obtain ⟨fault, move⟩ := step_move hs
  have once := move.load.trans h.once
  have sound : s.fault ≠ some .useAfterFree := by simp [fault]
  cases move with
  | copyCallbacks | reset | data => exact ⟨once, h.dead, h.last, h.done, h.sound⟩
  | resolved hop | connected hop =>
    obtain ⟨parses, -, open_⟩ := alone_of_op h.once hop
    exact .of_open once (h.alive open_) open_ (by simp [parses.no_read]) sound
  | eof hop _ hw =>
    obtain ⟨parses, -, open_⟩ := alone_of_op h.once hop
    refine ⟨once, h.dead, fun error n hr _ => ⟨?_, ?_⟩, fun hd => absurd hd open_, sound⟩
    · obtain ⟨rfl, rfl⟩ : error = .eof ∧ n = 0 := by simpa [parses.no_read] using hr
      exact ⟨s.queue, rfl⟩
    · by_contra posting
      exact allowed (by simpa using posting) (by simp [hw])
  | error hop =>
    obtain ⟨parses, -, open_⟩ := alone_of_op h.once hop
    refine .of_open once (h.alive open_) open_ (fun error n hr => ?_) sound
    obtain ⟨rfl, -⟩ : error = .other ∧ n = 0 := by simpa [parses.no_read] using hr
    rfl
  | complete hop =>
    obtain ⟨parses, -, open_⟩ := alone_of_op h.once hop
    refine .of_open once (h.alive open_) open_ (fun error n hr => ?_) sound
    obtain ⟨rfl, -⟩ : error = .success ∧ n = _ := by simpa [parses.no_read] using hr
    rfl
  | freed _ hq dead =>
    have empty := (h.done (h.dead dead)).1
    rw [hq] at empty
    cases empty
  | task hf hq alive => exact task_orderly h fault hf hq alive once
  | firstRead hf | rearm hf => exact asyncReadUntil_orderly h fault (by rw [hf]; rfl) once
  | post hf =>
    -- an ending completion in the queue would have found the handler not posting
    have none (error : ErrorCode) (n : Nat) (hr : .onRead error n ∈ s.queue) :
        error.ends = false := by
      by_contra ends
      have idle := (h.last error n hr (by simpa using ends)).2
      rw [hf] at idle
      cases idle
    have open_ : .signalDisconnect ∉ s.events := by
      intro ended
      have idle := (h.done ended).2
      rw [hf] at idle
      cases idle
    refine .of_open once (h.alive open_) open_ (fun error n hr => none error n ?_) sound
    simpa using hr
  | disconnect alive _ => exact disconnect_orderly h allowed fault once
  | behind _ _ _ hop =>
    obtain ⟨parses, -, open_⟩ := alone_of_op h.once hop
    refine .of_open once (h.alive open_) open_ (fun error n hr => ?_) sound
    obtain ⟨rfl, -⟩ : error = .badDescriptor ∧ n = 0 := by simpa [parses.no_read] using hr
    rfl

/-- If nothing overtakes the parse, `signal_disconnect` is the last that happens to a
session: no work of it is queued then, and none is run on the destroyed session. -/
theorem disconnect_is_last {table : Callbacks} {destroys : Bool} {wire : List Incoming} {n : Nat}
    {s : Session} (run : Machine.Run step NotOvertaken (fresh table destroys wire) n s) :
    s.fault ≠ some .useAfterFree ∧ (.signalDisconnect ∈ s.events → s.queue = []) := by
  have h : Orderly s := run.invariant (fresh_orderly table destroys wire)
    fun a u v hu allowed hs => step_orderly hu allowed hs
  exact ⟨h.sound, fun ended => (h.done ended).1⟩

def inTime : List Act :=
  [.copyCallbacks, .resolved true, .dispatch, .connected true, .dispatch, .proceed, .receive,
    .complete, .dispatch, .proceed, .proceed, .receive, .dispatch, .dispatch]

def overtaken : List Act :=
  [.copyCallbacks, .resolved true, .dispatch, .connected true, .dispatch, .proceed, .receive,
    .complete, .dispatch, .proceed, .receive, .proceed, .dispatch, .dispatch]

def oneLine : List Incoming := [.data [0x61, cr, lf], .eof]

theorem disconnect_is_last_inTime :
    ∃ s, Machine.Run step NotOvertaken (fresh .full true oneLine) inTime.length s ∧
      s.alive = false ∧ s.fault ≠ some .useAfterFree ∧
      (.signalDisconnect ∈ s.events → s.queue = []) := by
  obtain ⟨s, run, dead⟩ := Machine.exists_run step NotOvertaken
    (s := fresh .full true oneLine) (f := alive) (b := false) inTime (by decide)
  exact ⟨s, run, dead, disconnect_is_last run⟩

/-- The destroyed session is parsed. -/
theorem parse_after_disconnect :
    ∃ s, Machine.Run step Machine.free (fresh .full true oneLine) overtaken.length s ∧
      s.fault = some .useAfterFree :=
  Machine.exists_run step Machine.free (f := fault) overtaken (by decide)

end Session
end CqIrc
