import CqIrc.Machine.Runs
import CqIrc.Message

/-! `basic_streambuf.hpp`: one vector with a get area in front of a put area. What has been
taken stays in front until room is needed; then the rest is moved to the start. The class
stands for a queue of bytes, whatever is moved and wherever it grows. -/

namespace CqIrc.Asio

structure Growth where
  capacity : Nat → Nat → Nat
  fits : ∀ old n, n ≤ capacity old n

def vectorMax : Nat := 2 ^ 63 - 1

/-- `basic_streambuf`; the pointers are offsets from `&buffer_[0]`. The get area ends at
`pptr`, as behind every `commit`. -/
structure Streambuf where
  maxSize : Nat
  buffer : Bytes
  capacity : Nat
  gptr : Nat
  pptr : Nat
  epptr : Nat
  gptr_le : gptr ≤ pptr
  pptr_le : pptr ≤ epptr
  epptr_le : epptr ≤ maxSize
  length_eq : buffer.length = max epptr 1
  length_le : buffer.length ≤ capacity
  length_max : buffer.length ≤ vectorMax

namespace Streambuf

def bufferDelta : Nat := 128

def resize (b : Bytes) (n : Nat) : Bytes := b.take n ++ List.replicate (n - b.length) 0

theorem length_resize (b : Bytes) (n : Nat) : (resize b n).length = n := by
  simp [resize]
  omega

def new (g : Growth) (maximumSize : Nat) : Streambuf where
  maxSize := maximumSize
  buffer := resize [] (max (min maximumSize bufferDelta) 1)
  capacity := g.capacity 0 (max (min maximumSize bufferDelta) 1)
  gptr := 0
  pptr := 0
  epptr := min maximumSize bufferDelta
  gptr_le := le_rfl
  pptr_le := Nat.zero_le _
  epptr_le := Nat.min_le_left _ _
  length_eq := length_resize _ _
  length_le := by
    rw [length_resize]
    exact g.fits 0 _
  length_max := by
    rw [length_resize, vectorMax, bufferDelta]
    omega

def size (s : Streambuf) : Nat := s.pptr - s.gptr

/-- The bytes that have been committed and not consumed. -/
def data (s : Streambuf) : Bytes := (s.buffer.drop s.gptr).take s.size

theorem length_data (s : Streambuf) : s.data.length = s.size := by
  have := s.pptr_le
  have := s.length_eq
  simp only [data, size, List.length_take, List.length_drop]
  omega

def shift (s : Streambuf) : Streambuf :=
  { s with
    buffer := s.data ++ s.buffer.drop s.size
    gptr := 0
    pptr := s.size
    gptr_le := Nat.zero_le _
    pptr_le := (Nat.sub_le _ _).trans s.pptr_le
    length_eq := by
      have := s.pptr_le
      have := s.length_eq
      rw [List.length_append, length_data, List.length_drop, size]
      omega
    length_le := by
      have := s.pptr_le
      have := s.length_eq
      have := s.length_le
      rw [List.length_append, length_data, List.length_drop, size]
      omega
    length_max := by
      have := s.pptr_le
      have := s.length_eq
      have := s.length_max
      rw [List.length_append, length_data, List.length_drop, size]
      omega }

def enlarge (g : Growth) (s : Streambuf) (n : Nat) (room : s.pptr + n ≤ s.maxSize)
    (limit : s.pptr + n ≤ vectorMax) : Streambuf :=
  { s with
    buffer := resize s.buffer (max (s.pptr + n) 1)
    capacity := g.capacity s.capacity (max (s.pptr + n) 1)
    epptr := s.pptr + n
    pptr_le := Nat.le_add_right _ _
    epptr_le := room
    length_eq := length_resize _ _
    length_le := by
      rw [length_resize]
      exact g.fits _ _
    length_max := by
      rw [length_resize, vectorMax] at *
      omega }

def reserve (g : Growth) (s : Streambuf) (n : Nat) : Option Streambuf :=
  if n ≤ s.epptr - s.pptr then some s
  else if n ≤ s.shift.epptr - s.shift.pptr then some s.shift
  else if h : n ≤ s.shift.maxSize ∧ s.shift.pptr ≤ s.shift.maxSize - n ∧
      s.shift.pptr + n ≤ vectorMax then
    some (s.shift.enlarge g n (by omega) h.2.2)
  else none

def store (s : Streambuf) (u : Bytes) (room : s.pptr + u.length ≤ s.epptr) : Streambuf :=
  { s with
    buffer := s.buffer.take s.pptr ++ (u ++ s.buffer.drop (s.pptr + u.length))
    length_eq := by
      have := s.length_eq
      simp only [List.length_append, List.length_take, List.length_drop]
      omega
    length_le := by
      have := s.length_eq
      have := s.length_le
      simp only [List.length_append, List.length_take, List.length_drop]
      omega
    length_max := by
      have := s.length_eq
      have := s.length_max
      simp only [List.length_append, List.length_take, List.length_drop]
      omega }

/-- A pointer after `pbump` or `gbump` with `static_cast<int>(n)`. -/
def bump (p n : Nat) : Int := p + (BitVec.ofNat 32 n).toInt

def pbump (s : Streambuf) (n : Nat) : Option Streambuf :=
  if h : (s.gptr : Int) ≤ bump s.pptr n ∧ bump s.pptr n ≤ s.epptr then
    some { s with
      pptr := (bump s.pptr n).toNat
      gptr_le := by omega
      pptr_le := by omega }
  else none

def gbump (s : Streambuf) (n : Nat) : Option Streambuf :=
  if h : 0 ≤ bump s.gptr n ∧ bump s.gptr n ≤ s.pptr then
    some { s with
      gptr := (bump s.gptr n).toNat
      gptr_le := by omega }
  else none

def commit (s : Streambuf) (n : Nat) : Option Streambuf :=
  s.pbump (if s.epptr < s.pptr + n then s.epptr - s.pptr else n)

def consume (s : Streambuf) (n : Nat) : Option Streambuf :=
  s.gbump (if s.pptr < s.gptr + n then s.pptr - s.gptr else n)

def fill (g : Growth) (s : Streambuf) (n : Nat) (u : Bytes) : Option Streambuf :=
  (s.reserve g n).bind fun t =>
    if room : t.pptr + u.length ≤ t.epptr then (t.store u room).commit u.length else none

def readSize (s : Streambuf) (maxSize : Nat) : Nat :=
  min (max 512 (s.capacity - s.size)) (min maxSize (s.maxSize - s.size))

/-! What the operations do to the bytes. -/

section contents
variable {g : Growth} {s t : Streambuf} {n : Nat}

theorem data_eq {front u back : Bytes} (hb : s.buffer = front ++ (u ++ back))
    (hg : s.gptr = front.length) (hp : s.pptr = s.gptr + u.length) : s.data = u := by
  rw [data, size, hb, hp, hg, List.drop_left, Nat.add_sub_cancel_left, List.take_left]

theorem split (s : Streambuf) :
    ∃ front back, s.buffer = front ++ (s.data ++ back) ∧ s.gptr = front.length := by
  have inside : s.gptr ≤ s.buffer.length := by
    have := s.gptr_le
    have := s.pptr_le
    have := s.length_eq
    omega
  refine ⟨s.buffer.take s.gptr, (s.buffer.drop s.gptr).drop s.size, ?_, ?_⟩
  · rw [data, List.take_append_drop, List.take_append_drop]
  · rw [List.length_take, Nat.min_eq_left inside]

theorem pptr_eq (s : Streambuf) : s.pptr = s.gptr + s.data.length := by
  have := s.gptr_le
  rw [length_data, size]
  omega

theorem data_shift (s : Streambuf) : s.shift.data = s.data :=
  data_eq (show s.shift.buffer = [] ++ (s.data ++ _) from rfl) rfl (by simp [shift, length_data])

theorem data_enlarge (room : s.pptr + n ≤ s.maxSize) (limit : s.pptr + n ≤ vectorMax)
    (more : s.epptr ≤ s.pptr + n) : (s.enlarge g n room limit).data = s.data := by
  obtain ⟨front, back, hb, hg⟩ := s.split
  have short : s.buffer.length ≤ max (s.pptr + n) 1 := by
    have := s.length_eq
    omega
  have grown : (s.enlarge g n room limit).buffer =
      s.buffer ++ List.replicate (max (s.pptr + n) 1 - s.buffer.length) 0 :=
    congrArg (· ++ _) (List.take_of_length_le short)
  rw [hb, List.append_assoc, List.append_assoc] at grown
  exact data_eq grown hg s.pptr_eq

theorem reserve_spec (h : s.reserve g n = some t) :
    t.data = s.data ∧ t.maxSize = s.maxSize ∧ t.pptr + n ≤ t.epptr := by
  unfold reserve at h
  have order := s.pptr_le
  have moved : s.shift.pptr ≤ s.shift.epptr := s.shift.pptr_le
  split at h
  · obtain rfl := Option.some.inj h
    exact ⟨rfl, rfl, by omega⟩
  split at h
  · obtain rfl := Option.some.inj h
    exact ⟨s.data_shift, rfl, by omega⟩
  split at h
  · next room =>
    obtain rfl := Option.some.inj h
    exact ⟨(data_enlarge (by omega) room.2.2 (by omega)).trans s.data_shift, rfl, le_rfl⟩
  · cases h

/-- It throws exactly where the documentation says, or where the vector cannot grow. -/
theorem reserve_eq_none_iff :
    s.reserve g n = none ↔ min s.maxSize vectorMax < s.size + n := by
  have limit := s.length_max
  have length := s.length_eq
  have order := s.pptr_le
  have size_eq : s.size = s.pptr - s.gptr := rfl
  have bound := s.epptr_le
  have gets := s.gptr_le
  unfold reserve
  split
  · simp
    omega
  split
  · next room =>
    simp only [shift, reduceCtorEq, false_iff] at room ⊢
    omega
  split
  · next full room =>
    simp only [shift, reduceCtorEq, false_iff] at full room ⊢
    omega
  · next full room =>
    simp only [shift, true_iff] at full room ⊢
    omega

theorem bump_eq {p : Nat} (small : n < 2 ^ 31) : bump p n = (p + n : Nat) := by
  have value : (BitVec.ofNat 32 n).toInt = n := by
    rw [BitVec.toInt_eq_toNat_cond, BitVec.toNat_ofNat, Nat.mod_eq_of_lt (by omega),
      if_pos (by omega)]
  rw [bump, value]
  rfl

theorem pbump_spec (room : s.pptr + n ≤ s.epptr) (small : n < 2 ^ 31) :
    ∃ t, s.pbump n = some t ∧ t.buffer = s.buffer ∧ t.gptr = s.gptr ∧ t.pptr = s.pptr + n ∧
      t.maxSize = s.maxSize := by
  have moved := bump_eq (p := s.pptr) small
  have order := s.gptr_le
  exact ⟨_, dif_pos (by omega), rfl, rfl, congrArg Int.toNat moved, rfl⟩

theorem gbump_spec (room : s.gptr + n ≤ s.pptr) (small : n < 2 ^ 31) :
    ∃ t, s.gbump n = some t ∧ t.buffer = s.buffer ∧ t.gptr = s.gptr + n ∧ t.pptr = s.pptr ∧
      t.maxSize = s.maxSize := by
  have moved := bump_eq (p := s.gptr) small
  exact ⟨_, dif_pos (by omega), rfl, congrArg Int.toNat moved, rfl, rfl⟩

theorem commit_store {u : Bytes} (room : s.pptr + u.length ≤ s.epptr) (small : u.length < 2 ^ 31) :
    ∃ t, (s.store u room).commit u.length = some t ∧ t.data = s.data ++ u ∧
      t.maxSize = s.maxSize := by
  obtain ⟨t, ht, buffer, gptr, pptr, max⟩ := (s.store u room).pbump_spec room small
  have whole : ¬ (s.store u room).epptr < (s.store u room).pptr + u.length := Nat.not_lt.mpr room
  obtain ⟨front, back, hb, hg⟩ := s.split
  have inside := s.pptr_eq
  have area : s.buffer.take s.pptr = front ++ s.data := by
    rw [hb, inside, hg, ← List.append_assoc, ← List.length_append, List.take_left]
  have stored : t.buffer = front ++ (s.data ++ u ++ s.buffer.drop (s.pptr + u.length)) := by
    have built : (s.store u room).buffer =
        s.buffer.take s.pptr ++ (u ++ s.buffer.drop (s.pptr + u.length)) := rfl
    rw [buffer, built, area, List.append_assoc, List.append_assoc]
  refine ⟨t, by rw [commit, if_neg whole, ht], data_eq stored (gptr.trans hg) ?_, max⟩
  rw [pptr, gptr, List.length_append, ← Nat.add_assoc]
  exact congrArg (· + u.length) inside

theorem consume_spec (s : Streambuf) (small : n < 2 ^ 31) :
    ∃ t, s.consume n = some t ∧ t.data = s.data.drop n ∧ t.maxSize = s.maxSize := by
  obtain ⟨front, back, hb, hg⟩ := s.split
  have inside := s.pptr_eq
  have taken : (if s.pptr < s.gptr + n then s.pptr - s.gptr else n) = min n s.data.length := by
    split <;> omega
  obtain ⟨t, ht, buffer, gptr, pptr, max⟩ :=
    s.gbump_spec (n := min n s.data.length) (by omega) (by omega)
  have rest : t.buffer = front ++ s.data.take n ++ (s.data.drop n ++ back) := by
    rw [buffer, hb, List.append_assoc, ← List.append_assoc (s.data.take n), List.take_append_drop]
  refine ⟨t, by rw [consume, taken, ht], data_eq rest ?_ ?_, max⟩
  · rw [gptr, hg, List.length_append, List.length_take]
  · rw [pptr, gptr, List.length_drop]
    omega

theorem fill_spec {u : Bytes} (inside : u.length ≤ n) (small : u.length < 2 ^ 31) :
    (s.fill g n u).map data =
      if min s.maxSize vectorMax < s.data.length + n then none else some (s.data ++ u) := by
  rw [fill, length_data]
  split
  · next full =>
    rw [reserve_eq_none_iff.mpr full]
    rfl
  · next free =>
    obtain ⟨t, ht⟩ := Option.ne_none_iff_exists'.mp fun none => free (reserve_eq_none_iff.mp none)
    obtain ⟨same, -, area⟩ := reserve_spec ht
    have room : t.pptr + u.length ≤ t.epptr := by omega
    obtain ⟨v, hv, data, -⟩ := commit_store room small
    rw [ht, Option.bind_some, dif_pos room, hv, Option.map_some, data, same]

theorem pbump_maxSize (h : s.pbump n = some t) : t.maxSize = s.maxSize := by
  unfold pbump at h
  split at h
  · obtain rfl := Option.some.inj h
    rfl
  · cases h

theorem gbump_maxSize (h : s.gbump n = some t) : t.maxSize = s.maxSize := by
  unfold gbump at h
  split at h
  · obtain rfl := Option.some.inj h
    rfl
  · cases h

theorem fill_maxSize {u : Bytes} (h : s.fill g n u = some t) : t.maxSize = s.maxSize := by
  obtain ⟨r, hr, h⟩ := Option.bind_eq_some_iff.mp h
  obtain ⟨-, max, -⟩ := reserve_spec hr
  split at h
  · exact (pbump_maxSize h).trans max
  · cases h

end contents

inductive Use where
  | fill (n : Nat) (u : Bytes)
  | consume (n : Nat)

def Use.Fits : Use → Prop
  | fill n u => u.length ≤ n ∧ u.length < 2 ^ 31
  | consume n => n < 2 ^ 31

def use (g : Growth) : Use → Streambuf → Option Streambuf
  | .fill n u, s => s.fill g n u
  | .consume n, s => s.consume n

def queueUse (maxSize : Nat) : Use → Bytes → Option Bytes
  | .fill n u, q => if min maxSize vectorMax < q.length + n then none else some (q ++ u)
  | .consume n, q => some (q.drop n)

theorem use_maxSize {g : Growth} {s t : Streambuf} {a : Use} (h : use g a s = some t) :
    t.maxSize = s.maxSize := by
  cases a with
  | fill n u => exact fill_maxSize h
  | consume n => exact gbump_maxSize h

/-- Whatever is moved and wherever the vector grows, a stream buffer is a queue: it gives
back the bytes in order, and throws exactly where the queue has no room. -/
theorem refines_queue (g : Growth) (maxSize : Nat) {as : List Use} (fits : ∀ a ∈ as, a.Fits) :
    (Machine.exec (use g) Machine.free as (new g maxSize)).map data =
      Machine.exec (queueUse maxSize) Machine.free as [] := by
  refine Machine.exec_agree (f := data) (P := fun s => s.maxSize = maxSize) (Q := Use.Fits) fits rfl
    (fun a s max ok => ?_) fun a s t max _ h => (use_maxSize h).trans max
  cases a with
  | fill n u => rw [use, fill_spec ok.1 ok.2, max, queueUse]
  | consume n =>
    obtain ⟨t, ht, data, -⟩ := s.consume_spec ok
    rw [use, ht, Option.map_some, data, queueUse]

def exactly : Growth := ⟨fun _ n => n, fun _ _ => le_rfl⟩

theorem refines_queue_moving :
    (Machine.exec (use exactly) Machine.free
      [.fill 3 [0x61, cr, lf], .fill 1 [0x62], .consume 3, .fill 3 [0x63, cr, lf]]
      (new exactly 4)).map data = some [0x62, 0x63, cr, lf] :=
  (refines_queue exactly 4 (by simp [Use.Fits])).trans (by decide)

end Streambuf
end CqIrc.Asio
