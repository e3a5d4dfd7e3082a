import CqIrc.LineEnds
import CqIrc.SessionInvariant

/-! From chunks to lines. Whatever the chunks, the buffers handed to `thread_parse` are
the pieces of the stream up to each successive CR LF: those handed over, those queued,
the one being read and those still on the way always make up the same list. -/

namespace CqIrc

def Incoming.bytes : Incoming → Bytes
  | data chunk => chunk
  | _ => []

def Task.buffer? : Task → Option Bytes
  | threadParse buf => some buf
  | onResolve _ | onConnect _ | onRead _ _ => none

def Frame.buffer? : Frame → Option Bytes
  | onRead buf | posting buf => some buf
  | idle | onConnect => none

def Event.buffer? : Event → Option Bytes
  | parse buf => some buf
  | signalConnect | signalDisconnect | shutdownThrew => none

def terminated (line : Bytes) : Bytes := line ++ [nul, nul]

theorem bufSize_eq {n : Nat} (h : n + 2 < 2 ^ 31) : bufSize n = (n + 2 : Nat) := by
  have mod : (n + 2) % 2 ^ 32 = n + 2 := Nat.mod_eq_of_lt (by omega)
  rw [bufSize, BitVec.toInt_eq_toNat_cond, BitVec.toNat_ofNat, mod, if_pos (by omega)]

theorem readBuffer_eq {p rest : Bytes} (h : p.length + 2 < 2 ^ 31) :
    readBuffer (p ++ rest) p.length = some (terminated p) := by
  have text : (p ++ rest).take (min p.length (bufSize p.length).toNat) = p := by
    rw [bufSize_eq h, Int.toNat_natCast, Nat.min_eq_left (by omega), List.take_left]
  rw [readBuffer, if_neg (by rw [bufSize_eq h]; omega)]
  simp only [text]
  rw [bufSize_eq h, Int.toNat_natCast, Nat.add_sub_cancel_left]
  rfl

namespace Session

/-- The bytes not yet taken out of the stream buffer. -/
def rest (s : Session) : Bytes := s.input ++ s.wire.flatMap Incoming.bytes

def lines (stream : Bytes) : List Bytes := (Stream.pieces delimiter [] stream).1

def unterminated (stream : Bytes) : Bytes := (Stream.pieces delimiter [] stream).2

def handed (s : Session) : List Bytes := s.events.filterMap Event.buffer?

/-- Those, the queued ones, the one of the running handler and those still to come. -/
def account (s : Session) : List Bytes :=
  s.handed ++ (s.queue.filterMap Task.buffer? ++
    (s.frame.buffer?.toList ++ (lines s.rest).map terminated))

def stream (chunks : List Bytes) : List Incoming := chunks.map .data ++ [.eof]

def connected (table : Callbacks) (wire : List Incoming) : Session :=
  ⟨table, false, true, some table, .connected, [], none, [.onConnect .success], .idle, wire, [],
    none⟩

example (table : Callbacks) (wire : List Incoming) :
    Machine.Run step Machine.free (fresh table false wire) 4 (connected table wire) :=
  .of_exec [.copyCallbacks, .resolved true, .dispatch, .connected true] rfl

/-- A stream that still comes in chunks and ends with EOF, or has ended. -/
def Remaining (s : Session) : Prop :=
  (∃ chunks, s.wire = stream chunks) ∨
    (s.wire = [] ∧ Stream.cut delimiter [] s.input = none ∧ s.op = none ∧
      s.frame.holdsRead = false)

structure Framed (table : Callbacks) (target : List Bytes) (s : Session) : Prop where
  once : s.load ≤ 1
  fault : s.fault = none
  alive : s.alive = true
  stays : s.destroys = false
  callbacks : s.callbacks = some table
  socket : s.socket = .connected
  op : s.op = none ∨ s.op = some .read
  setup : ∀ task ∈ s.queue, task.isSetup = true →
    task = .onConnect .success ∧ ∃ chunks, s.wire = stream chunks
  reads : ∀ error n, .onRead error n ∈ s.queue →
    (error = .success ∧ ∃ p r, Stream.cut delimiter [] s.input = some (p, r) ∧ n = p.length) ∨
      (error = .eof ∧ s.wire = [])
  remaining : s.Remaining
  going : s.wire ≠ [] → 1 ≤ s.setups + s.reads
  account : s.account = target

theorem stream_bytes (chunks : List Bytes) :
    (stream chunks).flatMap Incoming.bytes = chunks.flatten := by
  induction chunks with
  | nil => rfl
  | cons chunk chunks ih => exact congrArg (chunk ++ ·) ih

theorem connected_framed (table : Callbacks) (chunks : List Bytes) :
    Framed table ((lines chunks.flatten).map terminated) (connected table (stream chunks)) := by
  have setup : ∀ task ∈ (connected table (stream chunks)).queue, task.isSetup = true →
      task = .onConnect .success ∧ ∃ cs, stream chunks = stream cs :=
    fun task ht _ => ⟨List.mem_singleton.mp ht, chunks, rfl⟩
  refine ⟨le_rfl, rfl, rfl, rfl, rfl, rfl, .inl rfl, setup, by simp [connected],
    .inl ⟨chunks, rfl⟩, fun _ => le_refl 1, ?_⟩
  simp [Session.account, handed, connected, Task.buffer?, Frame.buffer?, rest, stream_bytes]

def frameEffort : Frame → Nat
  | .onRead _ => 5
  | .onConnect => 3
  | .posting _ => 2
  | .idle => 0

/-- Bounds the steps still to come: a byte is worth three, and each stage on the way of
a line to its parse is worth less than the one before. -/
def effort (s : Session) : Nat :=
  3 * s.rest.length + s.wire.length + 2 * s.op.toList.length +
    s.queue.length + 3 * s.queue.countP Task.isSetup + frameEffort s.frame

theorem stream_cons {chunks : List Bytes} {x : Incoming} {wire : List Incoming}
    (h : x :: wire = stream chunks) :
    (x = .eof ∧ wire = []) ∨ ∃ chunk rest, x = .data chunk ∧ wire = stream rest := by
  cases chunks with
  | nil =>
    obtain ⟨rfl, rfl⟩ := List.cons.inj h
    exact .inl ⟨rfl, rfl⟩
  | cons chunk chunks =>
    obtain ⟨rfl, rfl⟩ := List.cons.inj h
    exact .inr ⟨chunk, chunks, rfl, rfl⟩

theorem Remaining.open_ {s : Session} (h : s.Remaining)
    (reading : s.op ≠ none ∨ s.frame.holdsRead = true) : ∃ chunks, s.wire = stream chunks := by
  rcases h with h | ⟨-, -, hop, hf⟩
  · exact h
  · rcases reading with hr | hr
    · exact absurd hop hr
    · rw [hf] at hr
      cases hr

theorem stream_ne_nil (chunks : List Bytes) : stream chunks ≠ [] := by
  simp [stream]

section serving
variable {table : Callbacks} {target : List Bytes} {s : Session}

theorem Framed.next_line (h : Framed table target s)
    (short : ∀ buf ∈ target, buf.length < 2 ^ 31) {p r : Bytes}
    (hc : Stream.cut delimiter [] s.input = some (p, r)) :
    s.input = p ++ r ∧ 2 ≤ p.length ∧ readBuffer s.input p.length = some (terminated p) ∧
      lines s.rest = p :: lines (r ++ s.wire.flatMap Incoming.bytes) := by
  have input : s.input = p ++ r := Stream.cut_eq hc
  have split : lines s.rest = p :: lines (r ++ s.wire.flatMap Incoming.bytes) := by
    rw [lines, rest, Stream.pieces_of_cut (Stream.cut_append hc _)]
    rfl
  have fits : (terminated p).length < 2 ^ 31 := by
    refine short _ ?_
    rw [← h.account, Session.account, split]
    simp
  have size : p.length + 2 < 2 ^ 31 := by simpa [terminated] using fits
  refine ⟨input, ?_, input ▸ readBuffer_eq size, split⟩
  simpa [delimiter] using (Stream.cut_first hc).1.length_le

theorem Framed.data {chunk : Bytes} {wire : List Incoming} (h : Framed table target s)
    (once : ({ s with input := s.input ++ chunk, wire := wire } : Session).load ≤ 1)
    (hop : s.op = some .read) (hw : s.wire = .data chunk :: wire) :
    Framed table target { s with input := s.input ++ chunk, wire := wire } ∧
      effort { s with input := s.input ++ chunk, wire := wire } < s.effort := by
  obtain ⟨parses, -⟩ := alone_of_op h.once hop
  have same : ({ s with input := s.input ++ chunk, wire := wire } : Session).rest = s.rest := by
    simp [rest, hw, Incoming.bytes]
  constructor
  · obtain ⟨chunks, e⟩ := h.remaining.open_ (.inl (by simp [hop]))
    rw [hw] at e
    obtain ⟨x, -⟩ | ⟨c, cs, -, remaining⟩ := stream_cons e
    · cases x
    · exact { h with
        once := once
        setup := fun task ht setup => ⟨(h.setup task ht setup).1, cs, remaining⟩
        reads := fun error n hr => absurd hr (parses.no_read error n)
        remaining := .inl ⟨cs, remaining⟩
        going := fun _ => h.going (by simp [hw])
        account := by
          rw [← h.account, Session.account, Session.account, same]
          rfl }
  · simp only [effort, same, hw, List.length_cons]
    omega

theorem Framed.completed {error : ErrorCode} {n : Nat} {wire : List Incoming}
    (h : Framed table target s) (hop : s.op = some .read)
    (once : ({ s with op := none, queue := s.queue ++ [.onRead error n], wire := wire } :
      Session).load ≤ 1)
    (same : wire.flatMap Incoming.bytes = s.wire.flatMap Incoming.bytes)
    (shorter : wire.length ≤ s.wire.length)
    (how : (error = .success ∧ ∃ p r, Stream.cut delimiter [] s.input = some (p, r) ∧
      n = p.length) ∨ (error = .eof ∧ wire = []))
    (remaining : Remaining { s with
      op := none, queue := s.queue ++ [.onRead error n], wire := wire }) :
    Framed table target { s with op := none, queue := s.queue ++ [.onRead error n], wire := wire } ∧
      effort { s with op := none, queue := s.queue ++ [.onRead error n], wire := wire } <
        s.effort := by
  obtain ⟨parses, -⟩ := alone_of_op h.once hop
  constructor
  · exact { h with
      once := once
      op := .inl rfl
      setup := fun task ht setup => by
        rcases List.mem_append.mp ht with old | new
        · obtain ⟨buf, rfl⟩ := parses task old
          cases setup
        · rw [List.mem_singleton.mp new] at setup
          cases setup
      reads := fun error' n' hr => by
        obtain ⟨rfl, rfl⟩ : error' = error ∧ n' = n := by simpa [parses.no_read] using hr
        exact how
      remaining := remaining
      going := fun _ => by
        have := reads_of_task (s := { s with
          op := none, queue := s.queue ++ [.onRead error n], wire := wire }) error n (by simp)
        omega
      account := by
        rw [← h.account]
        simp [Session.account, handed, rest, same, Task.buffer?] }
  · simp only [effort, rest, same, hop, List.length_append, List.countP_append]
    simp [Task.isSetup]
    omega

theorem Framed.startRead {frame : Frame} (h : Framed table target s)
    (hf : s.frame.holdsRead = true) (buffer : frame.buffer? = s.frame.buffer?)
    (once : ({ s.asyncReadUntil with frame := frame } : Session).load ≤ 1)
    (less : frameEffort frame + 2 < frameEffort s.frame) :
    Framed table target { s.asyncReadUntil with frame := frame } ∧
      effort { s.asyncReadUntil with frame := frame } < s.effort := by
  have opened : s.socket ≠ .closed := by simp [h.socket]
  obtain ⟨hop, -⟩ := alone_of_frame h.once hf
  simp only [asyncReadUntil, opened, if_false] at once ⊢
  constructor
  · exact { h with
      once := once
      op := .inr rfl
      remaining := .inl (h.remaining.open_ (.inr hf))
      going := fun _ => by
        have := reads_of_op (s := { s with op := some .read, frame := frame }) rfl
        omega
      account := by
        rw [← h.account]
        simp [Session.account, handed, rest, buffer] }
  · simp only [effort, rest, hop, Option.toList_some, Option.toList_none, List.length_singleton,
      List.length_nil]
    omega

theorem Framed.post {buf : Bytes} (h : Framed table target s) (hf : s.frame = .posting buf)
    (once : ({ s with queue := s.queue ++ [.threadParse buf], frame := .idle } : Session).load ≤ 1) :
    Framed table target { s with queue := s.queue ++ [.threadParse buf], frame := .idle } ∧
      effort { s with queue := s.queue ++ [.threadParse buf], frame := .idle } < s.effort := by
  constructor
  · exact { h with
      once := once
      setup := fun task ht setup => by
        rcases List.mem_append.mp ht with old | new
        · exact h.setup task old setup
        · rw [List.mem_singleton.mp new] at setup
          cases setup
      reads := by simpa using h.reads
      remaining := by
        rcases h.remaining with ⟨chunks, hw⟩ | ⟨hw, hc, hop, -⟩
        · exact .inl ⟨chunks, hw⟩
        · exact .inr ⟨hw, hc, hop, rfl⟩
      going := fun hw => by
        have going := h.going hw
        simpa [setups, Session.reads, hf, Frame.holdsRead, Task.isSetup, Task.isRead] using going
      account := by
        rw [← h.account]
        simp [Session.account, handed, rest, hf, Task.buffer?, Frame.buffer?] }
  · simp [effort, Task.isSetup, frameEffort, rest, hf]
    omega

theorem Framed.parse {buf : Bytes} {queue : List Task} (h : Framed table target s)
    (hq : s.queue = .threadParse buf :: queue)
    (once : ({ s with queue := queue, events := s.events ++ [.parse buf] } : Session).load ≤ 1) :
    Framed table target { s with queue := queue, events := s.events ++ [.parse buf] } ∧
      effort { s with queue := queue, events := s.events ++ [.parse buf] } < s.effort := by
  constructor
  · exact { h with
      once := once
      setup := fun task ht => h.setup task (by simp [hq, ht])
      reads := fun error n hr => h.reads error n (by simp [hq, hr])
      remaining := h.remaining
      going := fun hw => by
        have going := h.going hw
        simpa [setups, Session.reads, hq, Task.isSetup, Task.isRead] using going
      account := by
        rw [← h.account]
        simp [Session.account, handed, rest, hq, Task.buffer?, Event.buffer?] }
  · simp [effort, Task.isSetup, frameEffort, rest, hq]

theorem Framed.connect {queue : List Task} (h : Framed table target s) (hf : s.frame = .idle)
    (hq : s.queue = .onConnect .success :: queue)
    (once : ({ s with queue := queue, events := s.events ++ [.signalConnect],
                      frame := .onConnect } : Session).load ≤ 1) :
    Framed table target { s with queue := queue, events := s.events ++ [.signalConnect],
                                 frame := .onConnect } ∧
      effort { s with queue := queue, events := s.events ++ [.signalConnect],
                      frame := .onConnect } < s.effort := by
  obtain ⟨hop, parses, -⟩ := alone_of_head h.once hq (.inl rfl)
  constructor
  · exact { h with
      once := once
      setup := fun task ht => h.setup task (by simp [hq, ht])
      reads := fun error n hr => absurd hr (parses.no_read error n)
      remaining := .inl (h.setup (.onConnect .success) (by simp [hq]) rfl).2
      going := fun _ => by
        have := reads_of_frame (s := { s with
          queue := queue, events := s.events ++ [.signalConnect], frame := .onConnect }) rfl
        omega
      account := by
        rw [← h.account]
        simp [Session.account, handed, rest, hq, hf, List.filterMap_cons, Task.buffer?,
          Event.buffer?, Frame.buffer?] }
  · simp [effort, List.countP_cons, Task.isSetup, frameEffort, rest, hq, hf]
    omega

theorem Framed.readLine {p r : Bytes} {queue : List Task} (h : Framed table target s)
    (short : ∀ buf ∈ target, buf.length < 2 ^ 31) (hf : s.frame = .idle)
    (hq : s.queue = .onRead .success p.length :: queue)
    (hc : Stream.cut delimiter [] s.input = some (p, r))
    (once : ({ s with queue := queue }.readMessage p.length).load ≤ 1) :
    Framed table target ({ s with queue := queue }.readMessage p.length) ∧
      effort ({ s with queue := queue }.readMessage p.length) < s.effort := by
  obtain ⟨input, two, buffer, next⟩ := h.next_line short hc
  obtain ⟨hop, parses, -⟩ := alone_of_head h.once hq (.inr rfl)
  have drop : s.input.drop p.length = r := by rw [input, List.drop_left]
  simp only [readMessage, buffer, drop] at once ⊢
  constructor
  · exact { h with
      once := once
      setup := fun task ht => h.setup task (by simp [hq, ht])
      reads := fun error n hr => absurd hr (parses.no_read error n)
      remaining := by
        rcases h.remaining with open_ | ⟨-, none, -⟩
        · exact .inl open_
        · rw [hc] at none
          cases none
      going := fun _ => by
        have := reads_of_frame (s := { s with
          input := r, queue := queue, frame := .onRead (terminated p) }) rfl
        omega
      account := by
        rw [← h.account, Session.account, Session.account, next]
        simp [handed, hq, hf, List.filterMap_cons, Task.buffer?, Frame.buffer?, rest] }
  · simp [effort, Task.isSetup, frameEffort, rest, hq, hf, input]
    omega

theorem Framed.report {k : Nat} {queue : List Task} (h : Framed table target s)
    (full : ∀ f, table.has f = true) (hq : s.queue = .onRead .eof k :: queue) (hw : s.wire = [])
    (once : ({ s with queue := queue } : Session).signalDisconnect.load ≤ 1) :
    Framed table target ({ s with queue := queue } : Session).signalDisconnect ∧
      effort ({ s with queue := queue } : Session).signalDisconnect < s.effort := by
  obtain ⟨hop, parses, -⟩ := alone_of_head h.once hq (.inr rfl)
  have same : ({ s with queue := queue } : Session).signalDisconnect =
      { s with queue := queue, events := s.events ++ [.signalDisconnect] } := by
    simp [signalDisconnect, signal, h.callbacks, h.stays, full, h.fault]
  rw [same] at once ⊢
  constructor
  · exact { h with
      once := once
      setup := fun task ht => h.setup task (by simp [hq, ht])
      reads := fun error n hr => absurd hr (parses.no_read error n)
      remaining := h.remaining
      going := fun hw' => absurd hw hw'
      account := by
        rw [← h.account]
        simp [Session.account, handed, rest, hq, List.filterMap_cons, Task.buffer?,
          Event.buffer?] }
  · simp [effort, Task.isSetup, frameEffort, rest, hq]

theorem step_framed {a : Act} {s' : Session} (full : ∀ f, table.has f = true)
    (short : ∀ buf ∈ target, buf.length < 2 ^ 31) (h : Framed table target s)
    (ha : a.disconnects = false) (hs : step a s = some s') :
    Framed table target s' ∧ s'.effort < s.effort := by
  obtain ⟨-, move⟩ := step_move hs
  have once : s'.load ≤ 1 := move.load.trans h.once
  have reading (hop : s.op ≠ none) : s.op = some .read := h.op.resolve_left hop
  cases move with
  | copyCallbacks none => simp [h.callbacks] at none
  | resolved hop => simp [hop] at reading
  | connected hop => simp [hop] at reading
  | reset _ torn =>
    rcases h.remaining with ⟨chunks, hw⟩ | ⟨hw, -⟩
    · simp [hw, stream] at torn
    · simp [hw] at torn
  | data hop _ hw => exact h.data once hop hw
  | eof hop hc hw =>
    obtain ⟨chunks, e⟩ := h.remaining.open_ (.inl (by simp [hop]))
    obtain ⟨-, ended⟩ | ⟨c, cs, x, -⟩ := stream_cons (hw.symm.trans e)
    · have idle := (alone_of_op h.once hop).2.1
      refine h.completed hop once (by simp [hw, Incoming.bytes]) (by simp [hw])
        (.inr ⟨rfl, ended⟩) (.inr ⟨ended, hc, rfl, idle⟩)
    · cases x
  | error hop _ hw =>
    obtain ⟨chunks, e⟩ := h.remaining.open_ (.inl (by simp [hop]))
    obtain ⟨x, -⟩ | ⟨c, cs, x, -⟩ := stream_cons (hw.symm.trans e) <;> cases x
  | complete hop hc =>
    exact h.completed hop once rfl le_rfl (.inl ⟨rfl, _, _, hc, rfl⟩)
      (.inl (h.remaining.open_ (.inl (by simp [hop]))))
  | freed _ _ dead => simp [h.alive] at dead
  | @task task queue hf hq _ =>
    have head : task ∈ s.queue := by simp [hq]
    cases task with
    | onResolve error => cases (h.setup _ head rfl).1
    | onConnect error =>
      obtain ⟨⟨⟩, -⟩ := h.setup _ head rfl
      have same : ({ s with queue := queue } : Session).runTask (.onConnect .success) =
          { s with queue := queue, events := s.events ++ [.signalConnect], frame := .onConnect } := by
        simp [runTask, connectOp, onConnect, signal, h.socket, h.callbacks, full, h.fault]
      rw [same] at once ⊢
      exact h.connect hf hq once
    | onRead error n =>
      obtain ⟨rfl, p, r, hc, rfl⟩ | ⟨rfl, hw⟩ := h.reads _ _ head
      · exact h.readLine short hf hq hc once
      · exact h.report full hq hw once
    | threadParse buf =>
      have same : ({ s with queue := queue } : Session).runTask (.threadParse buf) =
          { s with queue := queue, events := s.events ++ [.parse buf] } := by
        simp [runTask, threadParse, h.callbacks]
      rw [same] at once ⊢
      exact h.parse hq once
  | firstRead hf =>
    exact h.startRead (by rw [hf]; rfl) (by rw [hf]; rfl) once (by rw [hf]; decide)
  | rearm hf =>
    exact h.startRead (by rw [hf]; rfl) (by rw [hf]; rfl) once (by rw [hf]; exact Nat.lt_add_one 4)
  | post hf => exact h.post hf once
  | disconnect | behind => cases ha

/-- Where nothing but a disconnect can happen, every line has been handed over. -/
theorem Framed.stuck (h : Framed table target s)
    (stuck : ∀ a, Act.disconnects a = false → step a s = none) : s.handed = target := by
  have no_act {a : Act} (ha : a.disconnects = false) : s.act a = none := by
    simpa [step, h.fault] using stuck a ha
  have hf : s.frame = .idle := by
    have none := no_act (a := .proceed) rfl
    simp only [act, proceed] at none
    split at none
    · assumption
    all_goals cases none
  have hq : s.queue = [] := by
    have none := no_act (a := .dispatch) rfl
    simp only [act, dispatch, hf] at none
    split at none
    · cases none
    · next other =>
      cases queue : s.queue with
      | nil => rfl
      | cons task queue' => exact absurd queue (other task queue' rfl)
  have hop : s.op = none := by
    refine h.op.resolve_right fun hop => ?_
    have no_line := no_act (a := .complete) rfl
    have no_chunk := no_act (a := .receive) rfl
    simp only [act, hop, if_true, Option.map_eq_none_iff] at no_line
    obtain ⟨chunks, hw⟩ := h.remaining.open_ (.inl (by simp [hop]))
    cases chunks <;> simp [act, hop, no_line, receive, hw, stream] at no_chunk
  rcases h.remaining with ⟨chunks, hw⟩ | ⟨hw, hc, -⟩
  · have going := h.going (hw ▸ stream_ne_nil chunks)
    simp [setups, Session.reads, hop, hq, hf, Frame.holdsRead] at going
  · have no_more : lines s.rest = [] := by
      simp [lines, rest, hw, Stream.pieces_of_no_cut hc]
    rw [← h.account, Session.account, hq, hf, no_more]
    simp [Frame.buffer?]

end serving

def Undisturbed (_ : Session) (a : Act) : Prop := a.disconnects = false

instance (s : Session) (a : Act) : Decidable (Undisturbed s a) :=
  inferInstanceAs (Decidable (a.disconnects = false))

end Session
end CqIrc
