import CqIrc.Threads

/-! From a completed read to the buffer of `thread_parse`. What is copied and what is
consumed go by the `size_t` that asio reported, the length of the array by an `int`. -/

namespace CqIrc

/-- The text that `yy_scan_buffer` is to scan; `none` where it returns NULL. -/
def yyScanBuffer (buf : Bytes) : Option Bytes :=
  if [nul, nul] <:+ buf then some (buf.take (buf.length - 2)) else none

theorem yyScanBuffer_eq_none {buf : Bytes} : yyScanBuffer buf = none ↔ ¬ [nul, nul] <:+ buf := by
  simp [yyScanBuffer]

theorem threadParse_fail0 {buf : Bytes} (h : yyScanBuffer buf = none) (cb : Callbacks) :
    threadParse cb buf = .parsing [] := if_neg (yyScanBuffer_eq_none.mp h)

theorem yyScanBuffer_terminated (line : Bytes) : yyScanBuffer (terminated line) = some line := by
  simp [yyScanBuffer, terminated]

theorem bufSize_eq_iff (n : Nat) : bufSize n = n + 2 ↔ n + 2 < 2 ^ 31 := by
  refine ⟨fun same => ?_, fun fits => by rw [bufSize_eq fits]; rfl⟩
  have below := BitVec.toInt_lt (x := BitVec.ofNat 32 (n + 2))
  rw [← bufSize, same] at below
  omega

theorem readBuffer_take {input : Bytes} {n : Nat} (inside : n ≤ input.length)
    (fits : n + 2 < 2 ^ 31) : readBuffer input n = some (terminated (input.take n)) := by
  have length : (input.take n).length = n := List.length_take_of_le inside
  have made : readBuffer (input.take n ++ input.drop n) (input.take n).length =
      some (terminated (input.take n)) := readBuffer_eq (by rwa [length])
  rwa [List.take_append_drop, length] at made

theorem readBuffer_ends (input : Bytes) {n : Nat} (fits : n + 2 < 2 ^ 31) :
    ∃ buf, readBuffer input n = some buf ∧ [nul, nul] <:+ buf := by
  rcases Nat.le_total n input.length with inside | short
  · exact ⟨_, readBuffer_take inside fits, List.suffix_append _ _⟩
  · have size := bufSize_eq fits
    refine ⟨_, if_neg (by rw [size]; omega), ?_⟩
    rw [size, Int.toNat_natCast, List.take_of_length_le (by omega)]
    have two : n + 2 - input.length = n - input.length + 2 := by omega
    rw [two, List.replicate_add, ← List.append_assoc]
    exact List.suffix_append _ _

namespace Session

/-- `on_read` takes the reported message, and the scanner can start on it. -/
structure TakesMessage (s : Session) (msgSize : Nat) : Prop where
  size : bufSize msgSize = msgSize + 2
  copied : (s.readMessage msgSize).frame = .onRead (terminated (s.input.take msgSize))
  consumed : (s.readMessage msgSize).input = s.input.drop msgSize
  scanned : ∀ buf, readBuffer s.input msgSize = some buf → yyScanBuffer buf ≠ none

theorem takesMessage_of_fits {s : Session} {n : Nat} (inside : n ≤ s.input.length) :
    TakesMessage s n ↔ n + 2 < 2 ^ 31 := by
  refine ⟨fun h => (bufSize_eq_iff n).mp h.size, fun fits => ?_⟩
  have made := readBuffer_take inside fits
  have taken : s.readMessage n = { s with
      input := s.input.drop n, frame := .onRead (terminated (s.input.take n)) } := by
    simp only [readMessage, made]
  refine ⟨(bufSize_eq_iff n).mpr fits, by rw [taken], by rw [taken], fun buf hb => ?_⟩
  obtain rfl := Option.some.inj (made.symm.trans hb)
  rw [yyScanBuffer_terminated]
  exact Option.some_ne_none _

end Session

def Task.short : Task → Bool
  | onRead _ msgSize => decide (msgSize + 2 < 2 ^ 31)
  | onResolve _ | onConnect _ | threadParse _ => true

namespace Session

/-- Every buffer made so far ends as flex wants it, and every array could be allocated. -/
structure Terminated (s : Session) : Prop where
  buffers : ∀ buf ∈ s.buffers, [nul, nul] <:+ buf
  sound : s.fault ≠ some .badArrayLength

variable {s t : Session}

theorem mem_buffers {buf : Bytes} : buf ∈ s.buffers ↔
    buf ∈ s.handed ∨ .threadParse buf ∈ s.queue ∨ s.frame.buffer? = some buf := by
  have queued : buf ∈ s.queue.filterMap Task.buffer? ↔ .threadParse buf ∈ s.queue := by
    refine List.mem_filterMap.trans ⟨?_, fun posted => ⟨_, posted, rfl⟩⟩
    rintro ⟨task, posted, hb⟩
    cases task with
    | threadParse other => exact Option.some.inj hb ▸ posted
    | _ => cases hb
  simp [buffers, queued]

theorem Terminated.mono (h : Terminated s) (sub : t.buffers ⊆ s.buffers)
    (sound : t.fault ≠ some .badArrayLength) : Terminated t :=
  ⟨fun buf hb => h.buffers buf (sub hb), sound⟩

theorem Terminated.reframe (h : Terminated s) {f : Frame}
    (held : ∀ buf, f.buffer? = some buf → [nul, nul] <:+ buf) :
    Terminated { s with frame := f } := by
  refine ⟨fun buf hb => ?_, h.sound⟩
  rcases mem_buffers.mp hb with given | posted | here
  · exact h.buffers buf (mem_buffers.mpr (.inl given))
  · exact h.buffers buf (mem_buffers.mpr (.inr (.inl posted)))
  · exact held buf here

theorem Terminated.held (h : Terminated s) {buf : Bytes} (hf : s.frame.buffer? = some buf) :
    [nul, nul] <:+ buf := h.buffers buf (mem_buffers.mpr (.inr (.inr hf)))

theorem signal_terminated (h : Terminated s) (f : Signal) {e : Event} (he : e.buffer? = none) :
    Terminated (s.signal f e) := by
  have same := s.signal_handed f he
  unfold signal at same ⊢
  split at same
  · exact ⟨h.buffers, by simp⟩
  · refine h.mono ?_ (by split <;> simp)
    unfold buffers
    rw [same]
    exact List.Subset.refl _

theorem signalDisconnect_terminated (h : Terminated s) : Terminated s.signalDisconnect := by
  have signalled := signal_terminated h .disconnect (e := .signalDisconnect) rfl
  unfold signalDisconnect
  simp only
  split
  · refine signalled.mono ?_ (by simpa [destroy, abort_fault] using signalled.sound)
    change (s.signal .disconnect .signalDisconnect).abort.buffers ⊆ _
    rw [abort_buffers]
    exact List.Subset.refl _
  · exact signalled

theorem readMessage_terminated (h : Terminated s) {n : Nat} (fits : n + 2 < 2 ^ 31) :
    Terminated (s.readMessage n) := by
  obtain ⟨buf, made, ends⟩ := readBuffer_ends s.input fits
  simp only [readMessage, made]
  refine Terminated.reframe (s := { s with input := s.input.drop n }) ⟨h.buffers, h.sound⟩ ?_
  rintro _ ⟨⟩
  exact ends

theorem runTask_terminated (h : Terminated s) {task : Task} {queue : List Task}
    (hq : s.queue = task :: queue) (fits : task.short = true) :
    Terminated ({ s with queue := queue }.runTask task) := by
  have left : Terminated { s with queue := queue } := by
    refine h.mono (fun buf hb => ?_) h.sound
    rw [mem_buffers] at hb ⊢
    exact hb.imp_right (.imp_left fun posted => hq ▸ List.mem_cons_of_mem _ posted)
  cases task with
  | onResolve error =>
    cases error with
    | success => exact left.mono (List.Subset.refl _) left.sound
    | _ => exact left
  | onConnect error =>
    obtain same | ⟨-, -, same⟩ := runTask_onConnect { s with queue := queue } error
    · rw [same]
      exact left
    · rw [same]
      refine (signal_terminated left .connect (e := .signalConnect) rfl).reframe ?_
      rintro _ ⟨⟩
  | onRead error n =>
    have room : n + 2 < 2 ^ 31 := by simpa [Task.short] using fits
    cases error with
    | eof => exact signalDisconnect_terminated left
    | success => exact readMessage_terminated left room
    | operationAborted =>
      simp only [runTask, onRead]
      split
      · exact signalDisconnect_terminated left
      · exact readMessage_terminated left room
    | _ => exact left
  | threadParse buf =>
    simp only [runTask, threadParse]
    split
    · exact ⟨left.buffers, by simp⟩
    · refine h.mono (fun other hb => ?_) h.sound
      -- the buffer goes from the queue to the scanner
      simp only [buffers, handed, hq] at hb ⊢
      simpa [Event.buffer?, Task.buffer?, or_assoc] using hb

theorem Move.terminated {a : Act} (h : Terminated s) (move : Move s a t)
    (fits : a = .dispatch → s.queue.head?.all Task.short = true) : Terminated t := by
  have same {t : Session} (buffers : t.buffers = s.buffers) (fault : t.fault = s.fault) :
      Terminated t :=
    h.mono (by rw [buffers]; exact List.Subset.refl _) (by rw [fault]; exact h.sound)
  cases move with
  | copyCallbacks | reset | data => exact same rfl rfl
  | resolved | connected | eof | error | complete | behind =>
    exact same (by simp [buffers, handed, Task.buffer?]) rfl
  | freed _ hq _ =>
    refine h.mono (fun buf hb => ?_) (by simp)
    rw [mem_buffers] at hb ⊢
    exact hb.imp_right (.imp_left fun posted => hq ▸ List.mem_cons_of_mem _ posted)
  | task _ hq _ => exact runTask_terminated h hq (by simpa [hq] using fits rfl)
  | firstRead hf | rearm hf =>
    unfold asyncReadUntil
    split <;> exact same (by simp [buffers, handed, hf, Task.buffer?, Frame.buffer?]) rfl
  | post hf => exact same (by simp [buffers, handed, hf, Task.buffer?, Frame.buffer?]) rfl
  | disconnect =>
    unfold Session.disconnect
    split
    · exact same s.abort_buffers s.abort_fault
    · exact same (by simp [buffers, handed, Event.buffer?]) rfl

end Session

namespace Pool
open Session Machine
variable {threads : Nat} {p p' : Pool threads}

/-- A thread takes a completed read only if the buffer for it has a size in an `int`. -/
def ShortReads (p : Pool threads) : Act threads → Prop
  | .take _ => p.session.queue.head?.all Task.short = true
  | .outside _ | .proceed _ | .advance _ => True

instance (p : Pool threads) : (a : Act threads) → Decidable (p.ShortReads a)
  | .take _ => inferInstanceAs (Decidable (_ = true))
  | .outside _ | .proceed _ | .advance _ => inferInstanceAs (Decidable True)

/-- The buffers that threads hold end as flex wants them, like those of the session. -/
structure Terminated (p : Pool threads) : Prop where
  session : p.session.Terminated
  held : ∀ k buf, (p.workers k).frame.buffer? = some buf → [nul, nul] <:+ buf

theorem start_terminated (threads : Nat) (table : Callbacks) (destroys : Bool)
    (wire : List Incoming) : Terminated (start threads (fresh table destroys wire)) where
  session := ⟨by simp [start, fresh, buffers, handed, Frame.buffer?], by simp [start, fresh]⟩
  held k buf := by rintro ⟨⟩

theorem Terminated.put (h : Terminated p) {k : Fin threads} {w : Worker} {s : Session}
    (session : s.Terminated)
    (held : ∀ buf, w.frame.buffer? = some buf → [nul, nul] <:+ buf) : Terminated (p.put k w s) := by
  refine ⟨session.reframe (by rintro _ ⟨⟩), fun j buf hj => ?_⟩
  by_cases same : j = k
  · subst same
    exact held buf (by simpa [Pool.put] using hj)
  · exact h.held j buf (by simpa [Pool.put, Function.update_of_ne same] using hj)

theorem step_terminated {a : Act threads} (h : Terminated p) (allowed : p.ShortReads a)
    (hs : Pool.step a p = some p') : Terminated p' := by
  obtain ⟨-, move⟩ := step_move hs
  cases move with
  | outside hd _ moved =>
    exact ⟨(Session.step_move moved).2.terminated h.session fun taken => absurd taken hd, h.held⟩
  | @take k task queue s _ _ moved =>
    have left := (Session.step_move moved).2.terminated h.session fun _ => allowed
    refine h.put left fun buf hb => left.held ?_
    unfold entered at hb
    split at hb
    · rw [threadParse_frame] at hb
      cases hb
    · exact hb
  | @proceed k f s hw moved =>
    have before := h.session.reframe (f := f) fun buf hb => h.held k buf (by rw [hw]; exact hb)
    have left := (Session.step_move moved).2.terminated before nofun
    exact h.put left fun buf hb => left.held hb
  | @call k e rest hw =>
    have left := h.put (k := k) (w := .parsing rest) h.session nofun
    exact ⟨left.session, left.held⟩
  | scanned hw => exact h.put h.session nofun
  | freed => exact ⟨⟨h.session.buffers, by simp [Pool.freed]⟩, h.held⟩

/-- A message is taken whole exactly when its size and the two NUL bytes fit an `int`.
While all are so short, no allocation fails and no scan ends at `fail0`. -/
theorem takesMessage_iff {threads : Nat} {table : Callbacks} {destroys : Bool}
    {wire : List Incoming} {n : Nat} {p : Pool threads} :
    (∀ (s : Session) (msgSize : Nat), msgSize ≤ s.input.length →
      (s.TakesMessage msgSize ↔ msgSize + 2 < 2 ^ 31)) ∧
    (Run Pool.step ShortReads (start threads (fresh table destroys wire)) n p →
      p.session.fault ≠ some .badArrayLength ∧
      ∀ buf, .threadParse buf ∈ p.session.queue → yyScanBuffer buf ≠ none) := by
  refine ⟨fun s msgSize inside => takesMessage_of_fits inside, fun run => ?_⟩
  have h : Terminated p := run.invariant (start_terminated threads table destroys wire)
    fun a u v hu allowed hs => step_terminated hu allowed hs
  refine ⟨h.session.sound, fun buf posted failed => ?_⟩
  have ends := h.session.buffers buf (mem_buffers.mpr (.inr (.inl posted)))
  exact yyScanBuffer_eq_none.mp failed ends

theorem takesMessage_ping :
    ({ fresh .full false [] with input := pingLine } : Session).TakesMessage pingLine.length ∧
    ∃ p, Run Pool.step ShortReads (start 2 (fresh .full false [.data twoPings]))
        (inTurn.take 11).length p ∧
      p.session.queue = [.threadParse (terminated pingLine)] ∧
      p.session.fault ≠ some .badArrayLength ∧ yyScanBuffer (terminated pingLine) ≠ none := by
  obtain ⟨p, run, posted⟩ := exists_run Pool.step ShortReads
    (s := start 2 (fresh .full false [.data twoPings])) (f := fun p => p.session.queue)
    (b := [.threadParse (terminated pingLine)]) (inTurn.take 11) (by decide +kernel)
  obtain ⟨taken, read⟩ := takesMessage_iff (n := (inTurn.take 11).length) (p := p)
  obtain ⟨sound, scanned⟩ := read run
  exact ⟨(taken _ _ le_rfl).mpr (by decide), p, run, posted, sound,
    scanned _ (by rw [posted]; exact List.mem_singleton_self _)⟩

def longLine (letters : Nat) : Bytes := List.replicate letters 0x61 ++ delimiter

theorem cut_line (acc : Bytes) {text : Bytes} (h : lf ∉ text) :
    Stream.cut delimiter acc (text ++ delimiter) = some (acc ++ text ++ delimiter, []) := by
  have inside {acc : Bytes} {b : Byte} (other : b ≠ lf) : ¬ delimiter <:+ acc ++ [b] := by
    rintro ⟨front, same⟩
    have same : (front ++ [cr]) ++ [lf] = acc ++ [b] := by simpa [delimiter] using same
    exact other (List.singleton_inj.mp (List.append_inj' same rfl).2).symm
  induction text generalizing acc with
  | nil =>
    have ends : delimiter <:+ acc ++ [cr] ++ [lf] := ⟨acc, by simp [delimiter]⟩
    change Stream.cut delimiter acc [cr, lf] = _
    rw [Stream.cut, if_neg (inside (by decide)), Stream.cut, if_pos ends]
    simp [delimiter]
  | cons b text ih =>
    have other : b ≠ lf := (List.ne_of_not_mem_cons h).symm
    rw [List.cons_append, Stream.cut, if_neg (inside other), ih _ (List.not_mem_of_not_mem_cons h)]
    simp

theorem longLine_length (letters : Nat) : (longLine letters).length = letters + 2 := by
  rw [longLine, List.length_append, List.length_replicate]
  rfl

theorem cut_longLine (letters : Nat) :
    Stream.cut delimiter [] (longLine letters) = some (longLine letters, []) := by
  refine cut_line [] fun h => ?_
  cases List.eq_of_mem_replicate h

theorem readBuffer_one {b : Byte} {text : Bytes} {n : Nat} (size : bufSize n = 1) (pos : 1 ≤ n) :
    readBuffer (b :: text) n = some [b] := by
  have one : min n (bufSize n).toNat = 1 := by
    rw [size]
    exact Nat.min_eq_right pos
  rw [readBuffer, if_neg (by rw [size]; decide), one, size]
  rfl

def arriving (k : Fin threads) : List (Act threads) :=
  connecting k ++ [.proceed k, .outside .receive]

theorem exists_arriving {line : Bytes} (hc : Stream.cut delimiter [] line = some (line, [])) :
    ∃ p, Run Pool.step Machine.free (start 1 (fresh .full false [.data line])) 8 p ∧
      p.session.input = line ∧ p.session.queue = [.onRead .success line.length] := by
  obtain ⟨p, run, left⟩ := exists_run Pool.step Machine.free
    (s := start 1 (fresh .full false [.data line])) (f := fun p => p.session)
    (b := { fresh .full false [] with
      callbacks := some .full, socket := .connected, input := line, op := some .read,
      events := [.signalConnect] }) (arriving 0) rfl
  have completed : Pool.step (.outside .complete) p = some { p with session := { p.session with
      op := none, queue := [.onRead .success line.length] } } := by
    simp [Pool.step, Session.step, act, left, hc, fresh]
  exact ⟨_, .tail run trivial completed, congrArg Session.input left, rfl⟩

/-- A line of 2 ^ 32 - 1 bytes gets an array of one, and the scan of it ends at `fail0`. -/
theorem not_takesMessage_long :
    ∃ p, Run Pool.step Machine.free
        (start 1 (fresh .full false [.data (longLine (2 ^ 32 - 3))])) 8 p ∧
      p.session.queue = [.onRead .success (2 ^ 32 - 1)] ∧
      ¬ p.session.TakesMessage (2 ^ 32 - 1) ∧
      ∃ buf, readBuffer p.session.input (2 ^ 32 - 1) = some buf ∧ yyScanBuffer buf = none ∧
        threadParse .full buf = .parsing [] := by
  obtain ⟨p, run, input, queue⟩ := exists_arriving (cut_longLine (2 ^ 32 - 3))
  have length : (longLine (2 ^ 32 - 3)).length = 2 ^ 32 - 1 := longLine_length _
  rw [length] at queue
  have long : ¬ p.session.TakesMessage (2 ^ 32 - 1) := fun taken => by
    have := (bufSize_eq_iff _).mp taken.size
    omega
  have letters : longLine (2 ^ 32 - 3) = 0x61 :: longLine (2 ^ 32 - 4) := rfl
  have scanned : yyScanBuffer [0x61] = none := by decide
  refine ⟨p, run, queue, long, [0x61], ?_, scanned, threadParse_fail0 scanned .full⟩
  rw [input, letters]
  exact readBuffer_one (by decide) (by decide)

end Pool
end CqIrc
