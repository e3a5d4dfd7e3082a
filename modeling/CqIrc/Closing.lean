import CqIrc.LifeCycle

/-! Closing a session. `cq_irc_session_disconnect` calls the `shutdown` that throws in front
of `close`, so it gets to `close` only while there is a connection to shut down. -/

namespace CqIrc.Session

/-- What a call of `cq_irc_session_disconnect` is for: it returns, and the socket is closed. -/
def ReturnsClosed (s s' : Session) : Prop :=
  s'.socket = .closed ∧ s'.events.count .shutdownThrew = s.events.count .shutdownThrew

def Made (s : Session) : Prop := .onConnect .success ∈ s.queue ∨ .signalConnect ∈ s.events

instance (s : Session) : Decidable s.Made := inferInstanceAs (Decidable (_ ∨ _))

/-- A disconnect comes while the connection is made and neither side has ended it, or while
it is pending in a system that lets `shutdown` cut it off. -/
def Linked (s : Session) : Act → Prop
  | .disconnect pending =>
    (s.Made ∧ s.socket ≠ .reset ∧ s.socket ≠ .closed) ∨ (s.op = some .connect ∧ pending = true)
  | _ => True

instance (s : Session) : (a : Act) → Decidable (s.Linked a)
  | .disconnect _ => inferInstanceAs (Decidable (_ ∨ _))
  | .copyCallbacks | .resolved _ | .connected _ | .reset | .receive | .complete | .dispatch
  | .proceed | .disconnectBehind => inferInstanceAs (Decidable True)

/-- What the socket has to do with the operations of the session. -/
structure Attached (s : Session) : Prop where
  unresolved : s.op = some .resolve → s.socket = .closed
  resolved : ∀ error, .onResolve error ∈ s.queue → s.socket = .closed
  connecting : s.op = some .connect → s.socket = .opened
  made : s.fault = none → s.socket = .connected ∨ s.socket = .reset → s.Made
  opened : s.Made → s.socket ≠ .opened

theorem fresh_attached (table : Callbacks) (destroys : Bool) (wire : List Incoming) :
    Attached (fresh table destroys wire) := by
  constructor <;> simp [fresh, Made]

section attached
variable {s t : Session} {task : Task} {queue : List Task}

theorem Attached.keep (h : Attached s) (socket : t.socket = s.socket)
    (op : ∀ o, t.op = some o → o.isSetup = true → s.op = some o)
    (setups : ∀ task ∈ t.queue, task.isSetup = true → task ∈ s.queue)
    (signalled : .signalConnect ∈ t.events → .signalConnect ∈ s.events)
    (made : t.fault = none → s.fault = none ∧ (s.Made → t.Made)) : Attached t where
  unresolved ht := socket.trans (h.unresolved (op _ ht rfl))
  resolved error ht := socket.trans (h.resolved error (setups _ ht rfl))
  connecting ht := socket.trans (h.connecting (op _ ht rfl))
  made fault up := (made fault).2 (h.made (made fault).1 (socket ▸ up))
  opened ht := socket ▸ h.opened (ht.imp (setups _ · rfl) signalled)

theorem Attached.of_closed (closed : t.socket = .closed) (op : t.op ≠ some .connect) :
    Attached t where
  unresolved _ := closed
  resolved _ _ := closed
  connecting ht := absurd ht op
  made _ up := by
    rw [closed] at up
    rcases up with up | up <;> cases up
  opened _ := by simp [closed]

theorem Made.mono (h : s.Made) (queue : ∀ task ∈ s.queue, task ∈ t.queue)
    (events : .signalConnect ∈ s.events → .signalConnect ∈ t.events) : t.Made :=
  h.imp (queue _) events

theorem Made.behind (h : s.Made) (hq : s.queue = task :: queue)
    (other : task ≠ .onConnect .success) (kept : .signalConnect ∈ s.events →
      .signalConnect ∈ t.events) (queued : t.queue = queue) : t.Made := by
  rcases h with waits | signalled
  · rw [hq] at waits
    rcases List.mem_cons.mp waits with same | later
    · exact absurd same.symm other
    · exact .inl (queued ▸ later)
  · exact .inr (kept signalled)

theorem not_made (life : LifeCycle s) (hop : s.op = some .connect ∨ s.op = some .resolve) :
    ¬ s.Made := by
  obtain ⟨op, hop, setup⟩ : ∃ op, s.op = some op ∧ op.isSetup = true := by
    rcases hop with hop | hop <;> exact ⟨_, hop, rfl⟩
  have one := setups_of_op hop setup
  have connects := life.connects
  rintro (waits | signalled)
  · obtain ⟨buf, other⟩ := (alone_of_op life.once hop).1 _ waits
    cases other
  · have := List.count_pos_iff.mpr signalled
    omega

theorem not_made_of_head (life : LifeCycle s) {error : ErrorCode}
    (hq : s.queue = .onResolve error :: queue) : ¬ s.Made := by
  have one := setups_of_head hq rfl
  have connects := life.connects
  obtain ⟨-, parses, -⟩ := alone_of_head life.once hq (.inl rfl)
  rintro (waits | signalled)
  · rw [hq] at waits
    rcases List.mem_cons.mp waits with same | later
    · cases same
    · obtain ⟨buf, other⟩ := parses _ later
      cases other
  · have := List.count_pos_iff.mpr signalled
    omega

theorem Attached.dropped (h : Attached s) (fault : s.fault = none) (hq : s.queue = task :: queue)
    (other : task ≠ .onConnect .success) : Attached { s with queue := queue } :=
  h.keep rfl (fun _ hop _ => hop) (fun _ ht _ => hq ▸ List.mem_cons_of_mem _ ht) id
    fun _ => ⟨fault, fun up => up.behind hq other id rfl⟩

theorem Attached.connectRun (h : Attached s) (life : LifeCycle s) (fault : s.fault = none)
    {error : ErrorCode} (hq : s.queue = .onConnect error :: queue) :
    Attached ({ s with queue := queue }.runTask (.onConnect error)) := by
  obtain ⟨hop, -, -⟩ := alone_of_head life.once hq (.inl rfl)
  have resolved (error : ErrorCode) (hr : .onResolve error ∈ queue) : s.socket = .closed :=
    h.resolved error (hq ▸ List.mem_cons_of_mem _ hr)
  by_cases closed : s.socket = .closed
  · have same : ({ s with queue := queue } : Session).runTask (.onConnect error) =
        { s with queue := queue } := by simp [runTask, connectOp, onConnect, closed]
    rw [same]
    exact .of_closed closed (by simp [hop])
  · simp only [runTask, connectOp, if_neg closed]
    cases error with
    | success =>
      have up : s.Made := .inl (by simp [hq])
      have open_ := h.opened up
      cases hc : s.callbacks with
      | none =>
        simp only [onConnect, signal]
        exact ⟨h.unresolved, resolved, h.connecting, by simp, fun _ => open_⟩
      | some cb =>
        simp only [onConnect, signal]
        exact ⟨h.unresolved, resolved, h.connecting, fun _ _ => .inr (by simp), fun _ => open_⟩
    | _ => exact h.dropped fault hq (by simp)

theorem Attached.runTask (h : Attached s) (life : LifeCycle s) (fault : s.fault = none)
    (hq : s.queue = task :: queue) : Attached ({ s with queue := queue }.runTask task) := by
  have behind (task : Task) (ht : task ∈ queue) (_ : task.isSetup = true) : task ∈ s.queue :=
    hq ▸ List.mem_cons_of_mem _ ht
  cases task with
  | threadParse buf =>
    obtain ⟨cb, hc⟩ := life.callbacks fault (.inr (.inl ⟨buf, by simp [hq]⟩))
    simp only [Session.runTask, threadParse, hc]
    exact h.keep rfl (fun _ hop _ => hop) behind (by simp) fun _ =>
      ⟨fault, fun up => up.behind hq (by simp) (List.mem_append_left _) rfl⟩
  | onResolve error =>
    have unmade := not_made_of_head life hq
    obtain ⟨-, parses, -⟩ := alone_of_head life.once hq (.inl rfl)
    cases error with
    | success =>
      refine ⟨by simp [Session.runTask, onResolve], fun error hr => ?_, fun _ => rfl,
        by simp [Session.runTask, onResolve], fun up => absurd (up.imp_left ?_) unmade⟩
      · obtain ⟨buf, other⟩ := parses _ hr
        cases other
      · exact fun waits => hq ▸ List.mem_cons_of_mem _ waits
    | _ => exact h.dropped fault hq (by simp)
  | onConnect error => exact h.connectRun life fault hq
  | onRead error n =>
    obtain ⟨hop, parses, -⟩ := alone_of_head life.once hq (.inr rfl)
    have begun := begun_of_read hq
    obtain ⟨cb, hc⟩ := life.callbacks fault begun
    have ended : Attached ({ s with queue := queue } : Session).signalDisconnect := by
      unfold Session.signalDisconnect
      simp only
      split
      · exact .of_closed rfl (by simp [destroy, abort, signal, hc, hop])
      · simp only [signal, hc]
        exact h.keep rfl (fun _ hop _ => hop) behind (by simp) fun _ =>
          ⟨fault, fun up => up.behind hq (by simp) (List.mem_append_left _) rfl⟩
    have line : Attached ({ s with queue := queue }.readMessage n) := by
      unfold Session.readMessage
      split
      · exact h.keep rfl (fun _ hop _ => hop) behind id fun broken => by cases broken
      · exact h.keep rfl (fun _ hop _ => hop) behind id fun _ =>
          ⟨fault, fun up => up.behind hq (by simp) id rfl⟩
    cases error with
    | eof => exact ended
    | operationAborted =>
      rw [life.onRead_aborted hq]
      exact ended
    | success => exact line
    | _ => exact h.dropped fault hq (by simp)

theorem Attached.startRead {frame : Frame} (h : Attached s) (fault : s.fault = none) :
    Attached { s.asyncReadUntil with frame := frame } := by
  unfold asyncReadUntil
  split
  · refine h.keep rfl (fun _ hop _ => hop) (fun task ht setup => ?_) id fun _ => ⟨fault, fun up =>
      up.mono (fun _ => List.mem_append_left _) id⟩
    rcases List.mem_append.mp ht with old | new
    · exact old
    · rw [List.mem_singleton.mp new] at setup
      cases setup
  · refine h.keep rfl (fun o ho setup => ?_) (fun _ ht _ => ht) id fun _ => ⟨fault, id⟩
    obtain rfl := Option.some.inj ho
    cases setup

theorem Attached.disconnect {pending : Bool} (h : Attached s) (fault : s.fault = none) :
    Attached (s.disconnect pending) := by
  unfold Session.disconnect
  split
  · refine .of_closed rfl ?_
    show s.abort.op ≠ _
    cases hop : s.op <;> simp [abort, hop]
  · exact h.keep rfl (fun _ hop _ => hop) (fun _ ht _ => ht) (by simp) fun _ => ⟨fault, fun up =>
      up.mono (fun _ => id) (List.mem_append_left _)⟩

theorem Attached.readDone (h : Attached s) (fault : s.fault = none) {error : ErrorCode} {n : Nat}
    (socket : t.socket = s.socket) (op : t.op = none)
    (queue : t.queue = s.queue ++ [.onRead error n]) (events : t.events = s.events) :
    Attached t := by
  refine h.keep socket (fun o ho _ => ?_) (fun task ht setup => ?_) (events ▸ id)
    fun _ => ⟨fault, fun up => up.mono (fun _ ht => ?_) (events ▸ id)⟩
  · rw [op] at ho
    cases ho
  · rw [queue] at ht
    rcases List.mem_append.mp ht with old | new
    · exact old
    · rw [List.mem_singleton.mp new] at setup
      cases setup
  · rw [queue]
    exact List.mem_append_left _ ht

end attached

theorem Move.attached {a : Act} {s s' : Session} (move : Move s a s') (h : Attached s)
    (life : LifeCycle s) (fault : s.fault = none) : Attached s' := by
  cases move with
  | copyCallbacks =>
    exact h.keep rfl (fun _ hop _ => hop) (fun _ ht _ => ht) id fun _ => ⟨fault, id⟩
  | data => exact h.keep rfl (fun _ hop _ => hop) (fun _ ht _ => ht) id fun _ => ⟨fault, id⟩
  | resolved hop =>
    have closed := h.unresolved hop
    exact .of_closed closed (by simp)
  | @connected ok hop =>
    have unmade := not_made life (.inl hop)
    have parses := (alone_of_op life.once hop).1
    have opened := h.connecting hop
    refine ⟨by simp, fun error hr => ?_, by simp, fun _ up => ?_, fun up => ?_⟩
    · rcases List.mem_append.mp hr with old | new
      · obtain ⟨buf, other⟩ := parses _ old
        cases other
      · cases List.mem_singleton.mp new
    · cases ok with
      | true => exact .inl (by simp [code])
      | false => simp [opened] at up
    · cases ok with
      | true => simp
      | false =>
        refine absurd (up.imp_left fun waits => ?_) unmade
        simpa [code] using waits
  | reset connected =>
    have made := h.made fault (.inl connected)
    have none (op : Operation) (hop : s.op = some op) (setup : op = .resolve ∨ op = .connect) :
        False := by
      rcases setup with rfl | rfl
      · exact not_made life (.inr hop) made
      · exact not_made life (.inl hop) made
    refine ⟨fun hop => (none _ hop (.inl rfl)).elim, fun error hr => ?_,
      fun hop => (none _ hop (.inr rfl)).elim, fun _ _ => made, by simp⟩
    have closed := h.resolved error hr
    rw [connected] at closed
    cases closed
  | eof | complete => exact h.readDone fault rfl rfl rfl rfl
  | error hop =>
    have signalled := life.begun fault (.inl (reads_of_op hop))
    have parses := (alone_of_op life.once hop).1
    refine ⟨by simp, fun error hr => ?_, by simp, fun _ _ => .inr signalled, by simp⟩
    obtain ⟨buf, other⟩ := parses _ (by simpa using hr)
    cases other
  | freed _ hq =>
    have behind (task : Task) (ht : task ∈ _) (_ : task.isSetup = true) : task ∈ s.queue :=
      hq ▸ List.mem_cons_of_mem _ ht
    exact h.keep rfl (fun _ hop _ => hop) behind id fun broken => by cases broken
  | task _ hq => exact h.runTask life fault hq
  | firstRead | rearm => exact h.startRead fault
  | post =>
    refine h.keep rfl (fun _ hop _ => hop) (fun task ht setup => ?_) id fun _ => ⟨fault, fun up =>
      up.mono (fun _ => List.mem_append_left _) id⟩
    rcases List.mem_append.mp ht with old | new
    · exact old
    · rw [List.mem_singleton.mp new] at setup
      cases setup
  | disconnect => exact h.disconnect fault
  | behind => exact .of_closed rfl (by simp)

theorem step_attached {a : Act} {s t : Session} (h : LifeCycle s ∧ Attached s)
    (hs : step a s = some t) : LifeCycle t ∧ Attached t := by
  obtain ⟨fault, move⟩ := step_move hs
  exact ⟨move.lifeCycle h.1 fault, move.attached h.2 h.1 fault⟩

theorem run_attached {allowed : Session → Act → Prop} {table : Callbacks} {destroys : Bool}
    {wire : List Incoming} {n : Nat} {s : Session}
    (run : Machine.Run step allowed (fresh table destroys wire) n s) :
    LifeCycle s ∧ Attached s :=
  run.invariant ⟨fresh_lifeCycle table destroys wire, fresh_attached table destroys wire⟩
    fun _ _ _ h _ hs => step_attached h hs

section closing
variable {s t : Session} {a : Act}

theorem Attached.shuts_iff (h : Attached s) (fault : s.fault = none) (pending : Bool) :
    s.shuts pending = true ↔ s.Linked (.disconnect pending) := by
  have connecting := h.connecting
  have made := h.made fault
  have opened := h.opened
  unfold shuts Linked
  cases hs : s.socket with
  | closed =>
    refine iff_of_false Bool.false_ne_true ?_
    rintro (⟨-, -, up⟩ | ⟨hop, -⟩)
    · exact up rfl
    · cases hs.symm.trans (connecting hop)
  | opened =>
    refine ⟨fun cuts => .inr ?_, ?_⟩
    · simpa [and_comm] using cuts
    · rintro (⟨up, -⟩ | ⟨hop, cuts⟩)
      · exact absurd hs (opened up)
      · simp [hop, cuts]
  | connected => exact iff_of_true rfl (.inl ⟨made (.inl hs), by simp, by simp⟩)
  | reset =>
    refine iff_of_false Bool.false_ne_true ?_
    rintro (⟨-, up, -⟩ | ⟨hop, -⟩)
    · exact up rfl
    · cases hs.symm.trans (connecting hop)

theorem disconnect_returnsClosed (s : Session) (pending : Bool) :
    ReturnsClosed s (s.disconnect pending) ↔ s.shuts pending = true := by
  unfold disconnect
  split
  · next shuts => exact iff_of_true ⟨rfl, by rw [abort_events]⟩ shuts
  · next throws => exact iff_of_false (fun h => by simpa using h.2) throws

theorem Attached.returnsClosed (h : Attached s) (call : a.disconnects = true)
    (hs : step a s = some t) : ReturnsClosed s t ↔ s.Linked a := by
  obtain ⟨fault, move⟩ := step_move hs
  cases move with
  | disconnect => exact (s.disconnect_returnsClosed _).trans (h.shuts_iff fault _)
  | behind => exact iff_of_true ⟨rfl, rfl⟩ trivial
  | _ => cases call

theorem Move.throws (move : Move s a t) (ha : a.disconnects = false) :
    t.events.count .shutdownThrew = s.events.count .shutdownThrew := by
  cases move with
  | task => exact (runTask_handled _ _).throws
  | firstRead | rearm =>
    unfold asyncReadUntil
    split <;> rfl
  | disconnect | behind => cases ha
  | _ => rfl

/-- Whatever has happened before, a call returns with the socket closed exactly if the
connection is made and neither side has ended it, or is pending and `shutdown` cuts it off.
In a run whose calls all find it so, none has thrown. -/
theorem returnsClosed_iff {table : Callbacks} {destroys : Bool} {wire : List Incoming} {n : Nat}
    {s : Session} :
    (Machine.Run step Machine.free (fresh table destroys wire) n s →
      ∀ a s', a.disconnects = true → step a s = some s' → (ReturnsClosed s s' ↔ s.Linked a)) ∧
    (Machine.Run step Linked (fresh table destroys wire) n s →
      .shutdownThrew ∉ s.events ∧
      ∀ a s', a.disconnects = true → s.Linked a → step a s = some s' → ReturnsClosed s s') := by
  refine ⟨fun run a s' call hs => (run_attached run).2.returnsClosed call hs, fun run => ?_⟩
  refine ⟨?_, fun a s' call linked hs => ((run_attached run).2.returnsClosed call hs).mpr linked⟩
  have calm := run.invariant (P := fun s => (LifeCycle s ∧ Attached s) ∧ .shutdownThrew ∉ s.events)
    ⟨⟨fresh_lifeCycle table destroys wire, fresh_attached table destroys wire⟩, by simp [fresh]⟩
    fun a u v hu linked hs => by
      obtain ⟨kept, none⟩ := hu
      refine ⟨step_attached kept hs, ?_⟩
      rw [← List.count_eq_zero] at none ⊢
      cases call : a.disconnects with
      | true => exact ((kept.2.returnsClosed call hs).mpr linked).2.trans none
      | false => exact ((step_move hs).2.throws call).trans none
  exact calm.2

structure Shut (s : Session) : Prop where
  socket : s.socket = .closed
  op : s.op = none
  resolved : ∀ error, .onResolve error ∉ s.queue

theorem Attached.shut (h : Attached s) (call : a.disconnects = true) (hs : step a s = some t)
    (closed : ReturnsClosed s t) : Shut t := by
  obtain ⟨fault, move⟩ := step_move hs
  cases move with
  | @disconnect pending =>
    have shuts := (s.disconnect_returnsClosed pending).mp closed
    have open_ : s.socket ≠ .closed := fun closed => by simp [Session.shuts, closed] at shuts
    have none (error : ErrorCode) : .onResolve error ∉ s.queue :=
      fun hr => open_ (h.resolved error hr)
    simp only [Session.disconnect, shuts, if_true]
    refine ⟨rfl, ?_, fun error hr => ?_⟩
    · show s.abort.op = .none
      cases hop : s.op <;> simp [abort, hop]
    · replace hr : .onResolve error ∈ s.abort.queue := hr
      cases hop : s.op with
      | none => exact none error (by simpa [abort, hop] using hr)
      | some op =>
        cases op with
        | resolve => exact open_ (h.unresolved hop)
        | _ => exact none error (by simpa [abort, hop, aborted] using hr)
  | behind _ _ connected =>
    refine ⟨rfl, rfl, fun error hr => ?_⟩
    have closed := h.resolved error (by simpa using hr)
    rw [connected] at closed
    cases closed
  | _ => cases call

theorem Shut.runTask (h : Shut s) {task : Task} {queue : List Task} (hq : s.queue = task :: queue) :
    Shut ({ s with queue := queue }.runTask task) := by
  have none (error : ErrorCode) : .onResolve error ∉ queue :=
    fun hr => h.resolved error (hq ▸ List.mem_cons_of_mem _ hr)
  have signalled (f : Signal) (e : Event) : Shut ({ s with queue := queue }.signal f e) := by
    unfold signal
    split <;> exact ⟨h.socket, h.op, none⟩
  have ended : Shut ({ s with queue := queue } : Session).signalDisconnect := by
    have left := signalled .disconnect .signalDisconnect
    unfold Session.signalDisconnect
    simp only
    split
    · refine ⟨rfl, ?_, ?_⟩ <;> simp only [destroy, abort, left.op]
      exact left.resolved
    · exact left
  have line (n : Nat) : Shut ({ s with queue := queue }.readMessage n) := by
    unfold Session.readMessage
    split <;> exact ⟨h.socket, h.op, none⟩
  cases task with
  | onResolve error => exact absurd (by simp [hq]) (h.resolved error)
  | onConnect error =>
    obtain same | ⟨-, opened, -⟩ := runTask_onConnect { s with queue := queue } error
    · rw [same]
      exact ⟨h.socket, h.op, none⟩
    · exact absurd h.socket opened
  | onRead error n =>
    cases error with
    | eof => exact ended
    | success => exact line n
    | operationAborted =>
      simp only [Session.runTask, onRead]
      split
      · exact ended
      · exact line n
    | _ => exact ⟨h.socket, h.op, none⟩
  | threadParse buf =>
    simp only [Session.runTask, threadParse]
    split <;> exact ⟨h.socket, h.op, none⟩

theorem Shut.step (h : Shut s) (hs : step a s = some t) : Shut t := by
  obtain ⟨-, move⟩ := step_move hs
  have socket := h.socket
  have op := h.op
  cases move with
  | copyCallbacks | post => exact ⟨h.socket, h.op, by simpa using h.resolved⟩
  | resolved hop | connected hop | data hop | eof hop | error hop | complete hop =>
    cases op.symm.trans hop
  | reset connected | behind _ _ connected => cases socket.symm.trans connected
  | freed _ hq =>
    exact ⟨h.socket, h.op, fun error hr => h.resolved error (hq ▸ List.mem_cons_of_mem _ hr)⟩
  | task _ hq => exact h.runTask hq
  | firstRead | rearm =>
    rw [asyncReadUntil, if_pos socket]
    exact ⟨h.socket, h.op, by simpa using h.resolved⟩
  | @disconnect pending =>
    have throws : ¬ s.shuts pending = true := by simp [Session.shuts, socket]
    rw [Session.disconnect, if_neg throws]
    exact ⟨h.socket, h.op, h.resolved⟩

theorem Shut.runTask_connects (h : Shut s) {task : Task} {queue : List Task}
    (hq : s.queue = task :: queue)
    (connects : .signalConnect ∈ ({ s with queue := queue }.runTask task).events) :
    .signalConnect ∈ s.events := by
  have signalled (t : Session)
      (ht : .signalConnect ∈ (t.signal .disconnect .signalDisconnect).events) :
      .signalConnect ∈ t.events := by
    unfold signal at ht
    split at ht
    · exact ht
    · simpa using ht
  have ended (ht : .signalConnect ∈ ({ s with queue := queue } : Session).signalDisconnect.events) :
      .signalConnect ∈ s.events := by
    unfold Session.signalDisconnect at ht
    simp only at ht
    split at ht
    · exact signalled { s with queue := queue } (abort_events _ ▸ ht)
    · exact signalled { s with queue := queue } ht
  have line (n : Nat) : ({ s with queue := queue }.readMessage n).events = s.events := by
    unfold Session.readMessage
    split <;> rfl
  cases task with
  | onResolve error => exact absurd (by simp [hq]) (h.resolved error)
  | onConnect error =>
    obtain same | ⟨-, opened, -⟩ := runTask_onConnect { s with queue := queue } error
    · rwa [same] at connects
    · exact absurd h.socket opened
  | onRead error n =>
    cases error with
    | eof => exact ended connects
    | success => exact line n ▸ connects
    | operationAborted =>
      simp only [Session.runTask, onRead] at connects
      split at connects
      · exact ended connects
      · exact line n ▸ connects
    | _ => exact connects
  | threadParse buf =>
    simp only [Session.runTask, threadParse] at connects
    split at connects
    · exact connects
    · simpa using connects

theorem Shut.step_connects (h : Shut s) (hs : Session.step a s = some t)
    (connects : .signalConnect ∈ t.events) : .signalConnect ∈ s.events := by
  obtain ⟨-, move⟩ := step_move hs
  cases move with
  | task _ hq => exact h.runTask_connects hq connects
  | firstRead | rearm => rwa [asyncReadUntil, if_pos h.socket] at connects
  | @disconnect pending =>
    have throws : ¬ s.shuts pending = true := by simp [Session.shuts, h.socket]
    rw [Session.disconnect, if_neg throws] at connects
    simpa using connects
  | _ => exact connects

/-- A call that returns is the last one to: the socket stays closed, nothing is under way on
it any more, a connect that was queued is not reported, and every later call throws. -/
theorem closed_for_good {table : Callbacks} {destroys : Bool} {wire : List Incoming} {n k : Nat}
    {u : Session} (run : Machine.Run Session.step Machine.free (fresh table destroys wire) n s)
    (call : a.disconnects = true) (hs : Session.step a s = some t) (closed : ReturnsClosed s t)
    (later : Machine.Run Session.step Machine.free t k u) :
    u.socket = .closed ∧ u.op = none ∧ (.signalConnect ∈ u.events → .signalConnect ∈ t.events) ∧
      ∀ b v, b.disconnects = true → Session.step b u = some v → ¬ ReturnsClosed u v := by
  obtain ⟨shut, silent⟩ := later.invariant
    (P := fun u => Shut u ∧ (.signalConnect ∈ u.events → .signalConnect ∈ t.events))
    ⟨(run_attached run).2.shut call hs closed, id⟩
    fun _ _ _ h _ hs => ⟨h.1.step hs, fun connects => h.2 (h.1.step_connects hs connects)⟩
  refine ⟨shut.socket, shut.op, silent, fun b v again hv returned => ?_⟩
  obtain ⟨-, move⟩ := step_move hv
  cases move with
  | disconnect =>
    have shuts := (u.disconnect_returnsClosed _).mp returned
    simp [Session.shuts, shut.socket] at shuts
  | behind _ _ connected => cases shut.socket.symm.trans connected
  | _ => cases again

end closing

def untilRead : List Act :=
  [.copyCallbacks, .resolved true, .dispatch, .connected true, .dispatch, .proceed]

/-- A pending connect that `shutdown` cuts off, and a connection that is closed in its first
read and reports its end. -/
theorem returnsClosed_connected :
    (∃ s s', Machine.Run step Machine.free (fresh .full false [.eof]) (untilRead.take 3).length s ∧
      step (.disconnect true) s = some s' ∧ s.op = some .connect ∧ ReturnsClosed s s') ∧
    ∃ s s', Machine.Run step Linked (fresh .full false [.eof]) untilRead.length s ∧
      step (.disconnect false) s = some s' ∧ .shutdownThrew ∉ s.events ∧ ReturnsClosed s s' := by
  constructor
  · obtain ⟨s, run, left⟩ := Machine.exists_run step Machine.free
      (s := fresh .full false [.eof])
      (f := fun s => (s.op, (step (.disconnect true) s).isSome)) (b := (some .connect, true))
      (untilRead.take 3) (by decide)
    obtain ⟨pending, some⟩ := Prod.mk.inj left
    obtain ⟨s', hs⟩ := Option.isSome_iff_exists.mp some
    exact ⟨s, s', run, hs, pending,
      (returnsClosed_iff.1 run _ s' rfl hs).mpr (.inr ⟨pending, rfl⟩)⟩
  · obtain ⟨s, run, left⟩ := Machine.exists_run step Linked (s := fresh .full false [.eof])
      (f := fun s => (decide (s.Linked (.disconnect false)), (step (.disconnect false) s).isSome))
      (b := (true, true)) untilRead (by decide)
    obtain ⟨linked, some⟩ := Prod.mk.inj left
    obtain ⟨s', hs⟩ := Option.isSome_iff_exists.mp some
    obtain ⟨none, closed⟩ := returnsClosed_iff.2 run
    exact ⟨s, s', run, hs, none, closed _ s' rfl (of_decide_eq_true linked) hs⟩

/-- The connect has been made and its handler is still queued: it is told of the abort. -/
theorem closed_for_good_queued :
    ∃ s s' t, Machine.Run step Machine.free (fresh .full false [.eof]) (untilRead.take 4).length s ∧
      s.queue = [.onConnect .success] ∧ step (.disconnect false) s = some s' ∧
      Machine.Run step Machine.free s' 2 t ∧ t.queue = [] ∧ t.socket = .closed ∧ t.op = none ∧
      .signalConnect ∉ t.events ∧ .shutdownThrew ∈ t.events := by
  obtain ⟨s, run, left⟩ := Machine.exists_run step Machine.free (s := fresh .full false [.eof])
    (f := fun s => ((s.queue, decide (s.Linked (.disconnect false))),
      (step (.disconnect false) s).bind fun s' =>
        (Machine.exec step Machine.free [.dispatch, .disconnect true] s').map fun t =>
          (s'.events, t.events, t.queue)))
    (b := (([.onConnect .success], true), some ([], [.shutdownThrew], []))) (untilRead.take 4)
    (by decide)
  obtain ⟨here, rest⟩ := Prod.mk.inj left
  obtain ⟨queued, linked⟩ := Prod.mk.inj here
  obtain ⟨s', hs, after⟩ := Option.bind_eq_some_iff.mp rest
  obtain ⟨t, ht, view⟩ := Option.map_eq_some_iff.mp after
  simp only [Prod.mk.injEq] at view
  have later : Machine.Run step Machine.free s' 2 t := .of_exec _ ht
  have closed := ((run_attached run).2.returnsClosed rfl hs).mpr (of_decide_eq_true linked)
  obtain ⟨socket, op, silent, -⟩ := closed_for_good run rfl hs closed later
  refine ⟨s, s', t, run, queued, hs, later, view.2.2, socket, op, fun told => ?_, by simp [view.2.1]⟩
  have before := silent told
  rw [view.1] at before
  cases before

def refused : List Act := [.copyCallbacks, .resolved true, .dispatch, .connected false, .dispatch]

/-- Behind the failed connect the call throws and the socket stays open; and of two calls for
one connection the second throws. -/
theorem not_returnsClosed_refused :
    (∃ s s', Machine.Run step Machine.free (fresh .full false []) refused.length s ∧
      step (.disconnect true) s = some s' ∧ s'.socket = .opened ∧ ¬ ReturnsClosed s s') ∧
    ∃ s s', Machine.Run step Machine.free (fresh .full false [])
        (untilRead ++ [Act.disconnect true]).length s ∧
      step (.disconnect true) s = some s' ∧ s'.events = s.events ++ [.shutdownThrew] ∧
      ¬ ReturnsClosed s s' := by
  constructor
  · obtain ⟨s, run, left⟩ := Machine.exists_run step Machine.free (s := fresh .full false [])
      (f := fun s => (step (.disconnect true) s).map socket) (b := some .opened) refused (by decide)
    obtain ⟨s', hs, opened⟩ := Option.map_eq_some_iff.mp left
    refine ⟨s, s', run, hs, opened, fun closed => ?_⟩
    rw [closed.1] at opened
    cases opened
  · obtain ⟨s, run, left⟩ := Machine.exists_run step Machine.free (s := fresh .full false [])
      (f := fun s => (s.events, (step (.disconnect true) s).map events))
      (b := ([.signalConnect], some [.signalConnect, .shutdownThrew]))
      (untilRead ++ [Act.disconnect true]) (by decide)
    obtain ⟨before, after⟩ := Prod.mk.inj left
    obtain ⟨s', hs, threw⟩ := Option.map_eq_some_iff.mp after
    refine ⟨s, s', run, hs, by rw [threw, before]; rfl, fun closed => ?_⟩
    have same := closed.2
    rw [threw, before] at same
    simp at same

end CqIrc.Session
