import CqIrc.Asio.Streambuf
import CqIrc.Session

/-! `impl/read_until.hpp`: `async_read_until` with a string as its delimiter. The operation
reads into the stream buffer and searches what is new, beginning at the front of a match
that was cut off. Its result is where the buffer's first delimiter ends. -/

namespace CqIrc.Asio

inductive Match where
  | full
  | part
  | mismatch
  deriving DecidableEq, Repr

section search
variable {α : Type*} [DecidableEq α]

/-- The inner loop of `partial_search`; `moved` is `test_iter2 != first2`. -/
def test : Bool → List α → List α → Match
  | _, _, [] => .full
  | moved, [], _ :: _ => if moved then .part else .mismatch
  | _, a :: u, b :: d => if a = b then test true u d else .mismatch

def partialSearch (d : List α) : List α → Nat × Bool
  | [] => (0, false)
  | a :: u =>
    match test false (a :: u) d with
    | .full => (0, true)
    | .part => (0, false)
    | .mismatch => ((partialSearch d u).1 + 1, (partialSearch d u).2)

variable {d u : List α} {moved : Bool}

theorem test_full (h : test moved u d = .full) : d <+: u := by
  induction d generalizing moved u with
  | nil => exact List.nil_prefix
  | cons b d ih =>
    cases u with
    | nil => cases moved <;> cases h
    | cons a u =>
      rw [test] at h
      split at h
      · next same => exact same ▸ (List.prefix_cons_inj a).mpr (ih h)
      · cases h

theorem test_part (h : test moved u d = .part) : u.length < d.length := by
  induction d generalizing moved u with
  | nil => cases u <;> cases h
  | cons b d ih =>
    cases u with
    | nil => simp
    | cons a u =>
      rw [test] at h
      split at h
      · simpa using ih h
      · cases h

theorem test_mismatch (ne : moved = true ∨ u ≠ []) (h : test moved u d = .mismatch) (v : List α) :
    ¬ d <+: u ++ v := by
  induction d generalizing moved u with
  | nil => cases u <;> cases h
  | cons b d ih =>
    cases u with
    | nil =>
      obtain rfl := ne.resolve_right (by simp)
      cases h
    | cons a u =>
      rw [test] at h
      split at h
      · intro found
        exact ih (.inl rfl) h ((List.cons_prefix_cons.mp found).2)
      · next other =>
        intro found
        exact other (List.cons_prefix_cons.mp found).1.symm

/-- Nothing that may still come makes a match in front of this position. -/
def Passed (d text : List α) (i : Nat) : Prop := ∀ j < i, ∀ v, ¬ d <+: text.drop j ++ v

omit [DecidableEq α] in
theorem Passed.cons {a : α} {i : Nat} (h : Passed d u i) (first : ∀ v, ¬ d <+: a :: u ++ v) :
    Passed d (a :: u) (i + 1) := by
  intro j hj v
  cases j with
  | zero => exact first v
  | succ j => exact h j (by omega) v

theorem partialSearch_spec (d u : List α) :
    (partialSearch d u).1 ≤ u.length ∧ Passed d u (partialSearch d u).1 ∧
      ((partialSearch d u).2 = true → d <+: u.drop (partialSearch d u).1) ∧
      ((partialSearch d u).2 = false → u.length < (partialSearch d u).1 + d.length ∨
        (partialSearch d u).1 = u.length) := by
  induction u with
  | nil => exact ⟨le_rfl, nofun, nofun, fun _ => .inr rfl⟩
  | cons a u ih =>
    cases ht : test false (a :: u) d with
    | full => simpa [partialSearch, ht, Passed] using test_full ht
    | part =>
      have short := test_part ht
      simp only [partialSearch, ht, Passed]
      exact ⟨Nat.zero_le _, nofun, nofun, fun _ => .inl (by omega)⟩
    | mismatch =>
      obtain ⟨inside, passed, found, rest⟩ := ih
      simp only [partialSearch, ht, List.length_cons, List.drop_succ_cons]
      refine ⟨by omega, passed.cons (test_mismatch (.inr (by simp)) ht), found, fun none => ?_⟩
      rcases rest none with short | all
      · exact .inl (by omega)
      · exact .inr (by omega)

omit [DecidableEq α] in
theorem Passed.freeBefore {text : List α} {i : Nat} (h : Passed d text i) :
    Stream.FreeBefore d text i := fun j hj found => h j hj [] (by rwa [List.append_nil])

/-- The search of a text of which a front part has been passed: it finds the first
delimiter, or a position that need not be searched again. -/
theorem search_spec (ne : d ≠ []) {text : List α} {i : Nat} (inside : i ≤ text.length)
    (passed : Passed d text i) {x : Nat × Bool} (hx : partialSearch d (text.drop i) = x) :
    i + x.1 ≤ text.length ∧ Passed d text (i + x.1) ∧
      (x.2 = true → Stream.cut d [] text =
        some (text.take (i + x.1 + d.length), text.drop (i + x.1 + d.length))) ∧
      (x.2 = false → Stream.cut d [] text = none) := by
  obtain ⟨short, later, found, rest⟩ := partialSearch_spec d (text.drop i)
  rw [hx] at short later found rest
  rw [List.length_drop] at short rest
  have all : Passed d text (i + x.1) := by
    intro j hj v
    by_cases before : j < i
    · exact passed j before v
    · have := later (j - i) (by omega) v
      rwa [List.drop_drop, Nat.add_sub_cancel' (Nat.le_of_not_lt before)] at this
  refine ⟨by omega, all, fun full => ?_, fun none => ?_⟩
  · refine Stream.cut_of_match ne all.freeBefore ?_
    have here := found full
    rwa [List.drop_drop] at here
  · refine Stream.cut_of_free ne fun j hj here => ?_
    by_cases before : j < i + x.1
    · exact all j before [] (by rwa [List.append_nil])
    · -- too little is left behind the stop for a whole delimiter
      have room := here.length_le
      have pos := List.length_pos_iff.mpr ne
      rw [List.length_drop] at room
      rcases rest none with less | all <;> omega

omit [DecidableEq α] in
theorem Passed.append {text : List α} {i : Nat} (h : Passed d text i) (inside : i ≤ text.length)
    (u : List α) : Passed d (text ++ u) i := by
  intro j hj v
  rw [List.drop_append_of_le_length (by omega), List.append_assoc]
  exact h j hj (u ++ v)

end search

structure ReadUntilOp where
  streambuf : Streambuf
  searchPosition : Nat

def notFound : Nat := 2 ^ 64 - 1

/-- Where an `async_read_until` stands: in `async_read_some` with a buffer of this size, or
behind the call of its handler. -/
inductive ReadState where
  | reading (op : ReadUntilOp) (bytesToRead : Nat)
  | called (streambuf : Streambuf) (error : ErrorCode) (bytesTransferred : Nat)

structure Read where
  error : ErrorCode
  bytes : Bytes
  deriving DecidableEq, Repr

namespace ReadUntilOp

def result (d : Bytes) (op : ReadUntilOp) : Nat × Bool :=
  let found := partialSearch d (op.streambuf.data.drop op.searchPosition)
  (op.searchPosition + found.1, found.2)

def search (d : Bytes) (op : ReadUntilOp) : Nat × Nat :=
  let last := op.streambuf.data.length
  if (op.result d).1 ≠ last ∧ (op.result d).2 = true then ((op.result d).1 + d.length, 0)
  else if op.streambuf.size = op.streambuf.maxSize then (notFound, 0)
  else (if (op.result d).1 ≠ last then (op.result d).1 else last, op.streambuf.readSize 65536)

def finish (op : ReadUntilOp) (ec : ErrorCode) : ReadState :=
  .called op.streambuf (if op.searchPosition = notFound then .other else ec)
    (if ec ≠ .success ∨ op.searchPosition = notFound then 0 else op.searchPosition)

def turn (g : Growth) (d : Bytes) (start : Bool) (op : ReadUntilOp) : Option ReadState :=
  if start = false ∧ (op.search d).2 = 0 then
    some (finish ⟨op.streambuf, (op.search d).1⟩ .success)
  else
    (op.streambuf.reserve g (op.search d).2).map fun sb =>
      .reading ⟨sb, (op.search d).1⟩ (op.search d).2

def resume (g : Growth) (d : Bytes) (op : ReadUntilOp) (x : Read) : Option ReadState :=
  if room : op.streambuf.pptr + x.bytes.length ≤ op.streambuf.epptr then
    ((op.streambuf.store x.bytes room).commit x.bytes.length).bind fun sb =>
      if x.error ≠ .success ∨ x.bytes.length = 0 then some (finish ⟨sb, op.searchPosition⟩ x.error)
      else turn g d false ⟨sb, op.searchPosition⟩
  else none

end ReadUntilOp

def asyncReadUntil (g : Growth) (d : Bytes) (sb : Streambuf) : Option ReadState :=
  ReadUntilOp.turn g d true ⟨sb, 0⟩

def ReadState.step (g : Growth) (d : Bytes) (x : Read) : ReadState → Option ReadState
  | .reading op _ => op.resume g d x
  | .called .. => none

/-- What is to be reported of these bytes, if anything. -/
def verdict (d : Bytes) (maxSize : Nat) (q : Bytes) : Option (ErrorCode × Nat) :=
  match Stream.cut d [] q with
  | some x => some (.success, x.1.length)
  | none => if q.length = maxSize then some (.other, 0) else none

/-- The same operation on a queue of bytes, searched from its front each time. -/
inductive ByteRead where
  | waiting (q : Bytes)
  | called (q : Bytes) (error : ErrorCode) (bytesTransferred : Nat)
  deriving DecidableEq, Repr

def ByteRead.step (d : Bytes) (maxSize : Nat) (x : Read) : ByteRead → Option ByteRead
  | .waiting q =>
    if x.error = .success then
      match verdict d maxSize (q ++ x.bytes) with
      | some r => some (.called (q ++ x.bytes) r.1 r.2)
      | none => some (.waiting (q ++ x.bytes))
    else some (.called q x.error 0)
  | .called .. => none

def ReadState.view : ReadState → ByteRead
  | .reading op _ => .waiting op.streambuf.data
  | .called sb error n => .called sb.data error n

/-- What `async_read_some` does with a buffer of this size: an empty buffer is filled at
once, a failed read has no bytes, and otherwise there are some. -/
def Read.Fills (n : Nat) (x : Read) : Prop :=
  x.bytes.length ≤ n ∧ if x.error = .success then (x.bytes = [] → n = 0) else x.bytes = [] ∧ n ≠ 0

instance (n : Nat) (x : Read) : Decidable (x.Fills n) := inferInstanceAs (Decidable (_ ∧ _))

def ReadState.Proper : ReadState → Read → Prop
  | .reading op n, x => x.Fills n ∧ op.streambuf.size + x.bytes.length + 65536 ≤ vectorMax
  | .called .., _ => False

instance (st : ReadState) (x : Read) : Decidable (st.Proper x) := by
  cases st <;> unfold ReadState.Proper <;> infer_instance

/-- A read that is under way: either all is found and an empty buffer is filled, or
nothing is found and what stands in front of the position is passed. -/
structure Pending (d : Bytes) (op : ReadUntilOp) (n : Nat) : Prop where
  room : op.streambuf.pptr + n ≤ op.streambuf.epptr
  short : n ≤ 65536
  ready : n = 0 → ∃ r, verdict d op.streambuf.maxSize op.streambuf.data = some r ∧
    op.finish .success = .called op.streambuf r.1 r.2
  more : n ≠ 0 → verdict d op.streambuf.maxSize op.streambuf.data = none ∧
    op.searchPosition ≤ op.streambuf.data.length ∧
    Passed d op.streambuf.data op.searchPosition

section refinement
variable {g : Growth} {d : Bytes} {sb : Streambuf} {op : ReadUntilOp} {n : Nat} {x : Read}

theorem Streambuf.size_le (s : Streambuf) : s.size ≤ s.maxSize ∧ s.size ≤ vectorMax := by
  have order := s.pptr_le
  have bound := s.epptr_le
  have length := s.length_eq
  have limit := s.length_max
  unfold Streambuf.size
  omega

theorem ne_notFound {i : Nat} (inside : i ≤ sb.data.length) : i ≠ notFound := by
  have limit := sb.size_le.2
  rw [Streambuf.length_data] at inside
  rw [notFound]
  rw [vectorMax] at limit
  omega

theorem finish_found (h : op.searchPosition ≠ notFound) :
    op.finish .success = .called op.streambuf .success op.searchPosition := by
  simp [ReadUntilOp.finish, h]

theorem finish_error {ec : ErrorCode} (h : op.searchPosition ≠ notFound) (hec : ec ≠ .success) :
    op.finish ec = .called op.streambuf ec 0 := by
  simp [ReadUntilOp.finish, h, hec]

theorem verdict_of_cut {q : Bytes} {y : Bytes × Bytes} (h : Stream.cut d [] q = some y) (m : Nat) :
    verdict d m q = some (.success, y.1.length) := by
  rw [verdict, h]

theorem verdict_of_none {q : Bytes} (h : Stream.cut d [] q = none) (m : Nat) :
    verdict d m q = if q.length = m then some (.other, 0) else none := by
  rw [verdict, h]

def Searched (d : Bytes) (op : ReadUntilOp) : Prop :=
  op.searchPosition ≤ op.streambuf.data.length ∧ Passed d op.streambuf.data op.searchPosition

theorem result_spec (ne : d ≠ []) (h : Searched d op) :
    (op.result d).1 ≤ op.streambuf.data.length ∧ Passed d op.streambuf.data (op.result d).1 ∧
      ((op.result d).2 = true → (op.result d).1 + d.length ≤ op.streambuf.data.length ∧
        Stream.cut d [] op.streambuf.data =
          some (op.streambuf.data.take ((op.result d).1 + d.length),
            op.streambuf.data.drop ((op.result d).1 + d.length))) ∧
      ((op.result d).2 = false → Stream.cut d [] op.streambuf.data = none) := by
  obtain ⟨short, passed, found, free⟩ := search_spec ne h.1 h.2 rfl
  refine ⟨short, passed, fun full => ⟨?_, found full⟩, free⟩
  have piece := (partialSearch_spec d _).2.2.1 full
  have fits := piece.length_le
  have pos := List.length_pos_iff.mpr ne
  simp only [List.length_drop] at fits
  show op.searchPosition + _ + d.length ≤ _
  omega

theorem search_ready (ne : d ≠ []) (h : Searched d op) {r : ErrorCode × Nat}
    (hr : verdict d op.streambuf.maxSize op.streambuf.data = some r) :
    (op.search d).2 = 0 ∧ ReadUntilOp.finish ⟨op.streambuf, (op.search d).1⟩ .success =
      .called op.streambuf r.1 r.2 := by
  obtain ⟨-, -, found, free⟩ := result_spec ne h
  cases full : (op.result d).2 with
  | true =>
    obtain ⟨whole, cut⟩ := found full
    have pos := List.length_pos_iff.mpr ne
    rw [verdict_of_cut cut] at hr
    obtain rfl := Option.some.inj hr
    rw [ReadUntilOp.search, if_pos ⟨by omega, full⟩]
    refine ⟨rfl, ?_⟩
    rw [finish_found (ne_notFound whole), List.length_take, Nat.min_eq_left whole]
  | false =>
    rw [verdict_of_none (free full), Streambuf.length_data] at hr
    split at hr
    · next size =>
      obtain rfl := Option.some.inj hr
      rw [ReadUntilOp.search, if_neg (by simp [full]), if_pos size]
      exact ⟨rfl, by simp [ReadUntilOp.finish]⟩
    · cases hr

theorem search_more (ne : d ≠ []) (h : Searched d op)
    (hr : verdict d op.streambuf.maxSize op.streambuf.data = none) :
    (op.search d).2 ≠ 0 ∧ (op.search d).2 ≤ 65536 ∧
      op.streambuf.size + (op.search d).2 ≤ op.streambuf.maxSize ∧
      Searched d ⟨op.streambuf, (op.search d).1⟩ := by
  obtain ⟨short, passed, found, free⟩ := result_spec ne h
  cases full : (op.result d).2 with
  | true =>
    rw [verdict_of_cut (found full).2] at hr
    cases hr
  | false =>
    rw [verdict_of_none (free full), Streambuf.length_data] at hr
    split at hr
    · cases hr
    · next size =>
      have bound := op.streambuf.size_le.1
      have position : (if (op.result d).1 ≠ op.streambuf.data.length then (op.result d).1
          else op.streambuf.data.length) = (op.result d).1 := by
        split
        · rfl
        · next last => exact (not_not.mp last).symm
      rw [ReadUntilOp.search, if_neg (by simp [full]), if_neg size, position, Streambuf.readSize]
      exact ⟨by omega, by omega, by omega, short, passed⟩

theorem Streambuf.reserve_room {s : Streambuf} (room : s.size + n ≤ s.maxSize)
    (limit : s.size + n ≤ vectorMax) :
    ∃ t, s.reserve g n = some t ∧ t.data = s.data ∧ t.maxSize = s.maxSize ∧
      t.pptr + n ≤ t.epptr := by
  have free : s.reserve g n ≠ none := fun full => by
    have := reserve_eq_none_iff.mp full
    omega
  obtain ⟨t, ht⟩ := Option.ne_none_iff_exists'.mp free
  exact ⟨t, ht, reserve_spec ht⟩

def Holds (d : Bytes) (maxSize : Nat) (q : Bytes) : ReadState → Prop
  | .reading op n => Pending d op n ∧ op.streambuf.data = q ∧ op.streambuf.maxSize = maxSize
  | .called .. => False

theorem turn_more (ne : d ≠ []) (h : Searched d op)
    (hr : verdict d op.streambuf.maxSize op.streambuf.data = none)
    (limit : op.streambuf.size + 65536 ≤ vectorMax) (start : Bool) :
    ∃ st, op.turn g d start = some st ∧
      Holds d op.streambuf.maxSize op.streambuf.data st := by
  obtain ⟨some_, short, room, searched⟩ := search_more ne h hr
  obtain ⟨t, ht, data, max, area⟩ := op.streambuf.reserve_room (g := g) room (by omega)
  refine ⟨.reading ⟨t, (op.search d).1⟩ (op.search d).2, ?_, ?_, data, max⟩
  · rw [ReadUntilOp.turn, if_neg (fun none => some_ none.2), ht]
    rfl
  · refine ⟨area, short, fun none => absurd none some_, fun _ => ?_⟩
    show verdict d t.maxSize t.data = none ∧ _ ≤ t.data.length ∧ Passed d t.data _
    rw [data, max]
    exact ⟨hr, searched⟩

theorem turn_ready (ne : d ≠ []) (h : Searched d op) {r : ErrorCode × Nat}
    (hr : verdict d op.streambuf.maxSize op.streambuf.data = some r) :
    op.turn g d false = some (.called op.streambuf r.1 r.2) := by
  obtain ⟨nothing, found⟩ := search_ready ne h hr
  rw [ReadUntilOp.turn, if_pos ⟨rfl, nothing⟩, found]

theorem turn_empty (ne : d ≠ []) (h : Searched d op) {r : ErrorCode × Nat}
    (hr : verdict d op.streambuf.maxSize op.streambuf.data = some r) :
    ∃ st, op.turn g d true = some st ∧ Holds d op.streambuf.maxSize op.streambuf.data st := by
  obtain ⟨nothing, found⟩ := search_ready ne h hr
  obtain ⟨bound, limit⟩ := op.streambuf.size_le
  obtain ⟨t, ht, data, max, area⟩ := op.streambuf.reserve_room (g := g) (n := 0) bound limit
  refine ⟨.reading ⟨t, (op.search d).1⟩ 0, ?_, ?_, data, max⟩
  · rw [ReadUntilOp.turn, if_neg (by simp), nothing, ht]
    rfl
  · refine ⟨area, Nat.zero_le _, fun _ => ⟨r, ?_, ?_⟩, fun some_ => absurd rfl some_⟩
    · show verdict d t.maxSize t.data = some r
      rw [data, max, hr]
    · -- the position is found in other memory, but it is the same position
      simp only [ReadUntilOp.finish, ReadState.called.injEq, true_and] at found ⊢
      exact found

theorem asyncReadUntil_holds (ne : d ≠ []) (g : Growth) (limit : sb.size + 65536 ≤ vectorMax) :
    ∃ st, asyncReadUntil g d sb = some st ∧ Holds d sb.maxSize sb.data st := by
  have searched : Searched d ⟨sb, 0⟩ := ⟨Nat.zero_le _, fun j hj => absurd hj (Nat.not_lt_zero j)⟩
  cases hr : verdict d sb.maxSize sb.data with
  | some r => exact turn_empty ne searched hr
  | none => exact turn_more ne searched hr limit true

theorem resume_eq (room : op.streambuf.pptr + x.bytes.length ≤ op.streambuf.epptr)
    (short : x.bytes.length ≤ 65536) :
    ∃ sb, sb.data = op.streambuf.data ++ x.bytes ∧ sb.maxSize = op.streambuf.maxSize ∧
      op.resume g d x =
        if x.error ≠ .success ∨ x.bytes.length = 0 then
          some (ReadUntilOp.finish ⟨sb, op.searchPosition⟩ x.error)
        else ReadUntilOp.turn g d false ⟨sb, op.searchPosition⟩ := by
  obtain ⟨sb, hsb, stored, same⟩ := op.streambuf.commit_store room (by omega)
  refine ⟨sb, stored, same, ?_⟩
  rw [ReadUntilOp.resume, dif_pos room, hsb, Option.bind_some]

def Agree (d : Bytes) (m : Nat) : ReadState → ByteRead → Prop
  | st, .waiting q => Holds d m q st
  | st, .called q ec n => ∃ sb, st = .called sb ec n ∧ sb.data = q ∧ sb.maxSize = m

theorem Agree.view {m : Nat} {st : ReadState} {b : ByteRead} (h : Agree d m st b) : st.view = b := by
  cases b with
  | waiting q =>
    cases st with
    | reading op n => exact congrArg ByteRead.waiting h.2.1
    | called => exact h.elim
  | called q ec n =>
    obtain ⟨sb, rfl, rfl, -⟩ := h
    rfl

theorem step_agrees (ne : d ≠ []) {m : Nat} {q : Bytes} {st : ReadState} (h : Holds d m q st)
    (proper : st.Proper x) :
    ∃ t b, st.step g d x = some t ∧ (ByteRead.waiting q).step d m x = some b ∧ Agree d m t b := by
  cases st with
  | called => exact h.elim
  | reading op n =>
  obtain ⟨pending, rfl, rfl⟩ := h
  obtain ⟨⟨inside, fills⟩, limit⟩ := proper
  have room := pending.room
  have short := pending.short
  have inside : op.streambuf.pptr + x.bytes.length ≤ op.streambuf.epptr := by omega
  have few : x.bytes.length ≤ 65536 := by omega
  obtain ⟨sb, data, max, resumed⟩ := resume_eq (g := g) (d := d) inside few
  by_cases success : x.error = .success
  · rw [if_pos success] at fills
    by_cases none_ : x.bytes = []
    · -- all was found in the call
      obtain ⟨r, hr, found⟩ := pending.ready (fills none_)
      rw [if_pos (.inr (congrArg List.length none_)), success] at resumed
      rw [none_, List.append_nil] at data
      refine ⟨_, .called op.streambuf.data r.1 r.2, resumed, ?_, sb, ?_, data, max⟩
      · rw [ByteRead.step, if_pos success, none_, List.append_nil, hr]
      · simp only [ReadUntilOp.finish, ReadState.called.injEq, true_and] at found ⊢
        exact found
    · -- the search goes on behind what is passed
      have some_ : n ≠ 0 := fun none => none_ (List.length_eq_zero_iff.mp (by omega))
      obtain ⟨-, before, passed⟩ := pending.more some_
      have searched : Searched d ⟨sb, op.searchPosition⟩ := by
        show op.searchPosition ≤ sb.data.length ∧ Passed d sb.data op.searchPosition
        rw [data]
        exact ⟨before.trans (List.prefix_append _ _).length_le, passed.append before x.bytes⟩
      have length : ¬ x.bytes.length = 0 := fun none => none_ (List.length_eq_zero_iff.mp none)
      rw [if_neg (by simp [success, length])] at resumed
      have abstract_ : (ByteRead.waiting op.streambuf.data).step d op.streambuf.maxSize x =
          match verdict d sb.maxSize sb.data with
          | some r => some (.called sb.data r.1 r.2)
          | none => some (.waiting sb.data) := by
        rw [ByteRead.step, if_pos success, data, max]
      cases hr : verdict d sb.maxSize sb.data with
      | some r =>
        rw [hr] at abstract_
        exact ⟨_, _, resumed.trans (turn_ready ne searched hr), abstract_, sb, rfl, rfl, max⟩
      | none =>
        rw [hr] at abstract_
        have size : sb.size + 65536 ≤ vectorMax := by
          have sizes := congrArg List.length data
          rw [List.length_append, Streambuf.length_data, Streambuf.length_data] at sizes
          omega
        obtain ⟨t, ht, holds⟩ := turn_more (g := g) ne searched hr size false
        exact ⟨t, _, resumed.trans ht, abstract_, max ▸ holds⟩
  · rw [if_neg success] at fills
    obtain ⟨-, before, -⟩ := pending.more fills.2
    rw [if_pos (.inl success)] at resumed
    rw [fills.1, List.append_nil] at data
    refine ⟨_, .called op.streambuf.data x.error 0, resumed, ?_, sb, ?_, data, max⟩
    · rw [ByteRead.step, if_neg success]
    · have found : (ReadUntilOp.mk sb op.searchPosition).searchPosition ≠ notFound :=
        ne_notFound (data ▸ before)
      exact finish_error found success

theorem verdict_of_waiting {m : Nat} {q : Bytes} {st : ReadState} (h : Holds d m q st)
    (proper : st.Proper x) (waits : x.error ≠ .success ∨ x.bytes ≠ []) : verdict d m q = none := by
  cases st with
  | called => exact h.elim
  | reading op n =>
  obtain ⟨pending, rfl, rfl⟩ := h
  obtain ⟨⟨inside, fills⟩, -⟩ := proper
  refine (pending.more fun none => ?_).1
  rcases waits with error | some_
  · rw [if_neg error] at fills
    exact fills.2 none
  · exact some_ (List.length_eq_zero_iff.mp (by omega))

theorem ReadState.Proper.no_bytes {st : ReadState} (h : st.Proper x) (error : x.error ≠ .success) :
    x.bytes = [] := by
  cases st with
  | called => exact h.elim
  | reading op n =>
    have fills := h.1.2
    rw [if_neg error] at fills
    exact fills.1

theorem step_view (ne : d ≠ []) {m : Nat} {st : ReadState} (h : Agree d m st st.view)
    (proper : st.Proper x) :
    ∃ t, st.step g d x = some t ∧ st.view.step d m x = some t.view ∧ Agree d m t t.view := by
  cases st with
  | called => exact proper.elim
  | reading op n =>
    have holds : Holds d m op.streambuf.data (.reading op n) := h
    obtain ⟨t, b, ht, hb, agree⟩ := step_agrees (g := g) ne holds proper
    obtain rfl := agree.view
    exact ⟨t, ht, hb, agree⟩

end refinement

/-- Whatever chunks the socket brings and wherever they are stored, the operation never
throws, and it reports what a search of all the bytes from the front would report. -/
theorem asyncReadUntil_refines (g : Growth) {d : Bytes} (ne : d ≠ []) {sb : Streambuf}
    (limit : sb.size + 65536 ≤ vectorMax) :
    ∃ st, asyncReadUntil g d sb = some st ∧ st.view = .waiting sb.data ∧
      ∀ xs t, Machine.exec (ReadState.step g d) ReadState.Proper xs st = some t →
        Machine.exec (ByteRead.step d sb.maxSize) Machine.free xs (.waiting sb.data) =
          some t.view ∧
        ∀ x, t.Proper x → (t.step g d x).isSome := by
  obtain ⟨st, hst, holds⟩ := asyncReadUntil_holds (d := d) ne g limit
  have view : st.view = .waiting sb.data := Agree.view (b := .waiting sb.data) holds
  have start : Agree d sb.maxSize st st.view := by
    rw [view]
    exact holds
  refine ⟨st, hst, view, fun xs t run => ⟨?_, fun x proper => ?_⟩⟩
  · rw [← view]
    refine Machine.exec_map (P := fun st => Agree d sb.maxSize st st.view) xs run start ?_
    intro x u v agree proper step
    obtain ⟨w, hw, moved, kept⟩ := step_view (g := g) ne agree proper
    obtain rfl := Option.some.inj (step.symm.trans hw)
    exact ⟨kept, moved⟩
  · have kept : Agree d sb.maxSize t t.view := by
      refine (Machine.Run.of_exec xs run).invariant (P := fun st => Agree d sb.maxSize st st.view)
        start fun y u v agree allowed step => ?_
      obtain ⟨w, hw, -, next⟩ := step_view (g := g) ne agree allowed
      obtain rfl := Option.some.inj (step.symm.trans hw)
      exact next
    obtain ⟨w, hw, -⟩ := step_view (g := g) ne kept proper
    exact Option.isSome_of_mem hw

theorem asyncReadUntil_refines_apart :
    ∃ st t, asyncReadUntil Streambuf.exactly [cr, lf] (.new Streambuf.exactly 600) = some st ∧
      Machine.exec (ReadState.step Streambuf.exactly [cr, lf]) ReadState.Proper
        [⟨.success, [0x61, cr]⟩, ⟨.success, [lf, 0x62]⟩] st = some t ∧
      some t.view = Machine.exec (ByteRead.step [cr, lf] 600) Machine.free
        [⟨.success, [0x61, cr]⟩, ⟨.success, [lf, 0x62]⟩] (.waiting []) ∧
      t.view = .called [0x61, cr, lf, 0x62] .success 3 := by
  have ne : [cr, lf] ≠ [] := by simp
  have limit : (Streambuf.new Streambuf.exactly 600).size + 65536 ≤ vectorMax := by decide
  obtain ⟨st, hst, -, run⟩ := asyncReadUntil_refines Streambuf.exactly ne limit
  have runs : ((asyncReadUntil Streambuf.exactly [cr, lf] (.new Streambuf.exactly 600)).bind
      (Machine.exec (ReadState.step Streambuf.exactly [cr, lf]) ReadState.Proper
        [⟨.success, [0x61, cr]⟩, ⟨.success, [lf, 0x62]⟩])).map ReadState.view =
        some (.called [0x61, cr, lf, 0x62] .success 3) := by decide +kernel
  rw [hst, Option.bind_some] at runs
  obtain ⟨t, ht, view⟩ := Option.map_eq_some_iff.mp runs
  exact ⟨st, t, hst, ht, (run _ t ht).1.symm, view⟩

end CqIrc.Asio
