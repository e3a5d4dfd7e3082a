import CqIrc.Fmt.Rendered

/-! `format.h`: the writer's buffer. It grows to what a field needs, but `append` asks for
the appended part alone and then copies behind what is already there. A part of at most
half the inline storage always finds room; a longer one may not. -/

namespace CqIrc.Fmt

def inlineBufferSize : Nat := 500

/-- `internal::Array<char, INLINE_BUFFER_SIZE>`: the elements and the room for them. -/
structure Array where
  data : Bytes
  capacity : Nat
  fits : data.length ≤ capacity
  inline_ : inlineBufferSize ≤ capacity

namespace Array

def empty : Array := ⟨[], inlineBufferSize, Nat.zero_le _, le_rfl⟩

def size (a : Array) : Nat := a.data.length

/-- `Grow`: at least this size, and by half of the old room. -/
def grow (a : Array) (size : Nat) : Array :=
  ⟨a.data, max size (a.capacity + a.capacity / 2),
    a.fits.trans ((Nat.le_add_right _ _).trans (Nat.le_max_right _ _)),
    a.inline_.trans ((Nat.le_add_right _ _).trans (Nat.le_max_right _ _))⟩

def appendRoom (a : Array) (length : Nat) : Array :=
  if a.size + length > a.capacity then a.grow length else a

/-- `append`; none if it copies behind the end of the memory. -/
def append (a : Array) (text : Bytes) : Option Array :=
  let room := a.appendRoom text.length
  if h : (a.data ++ text).length ≤ room.capacity then
    some ⟨a.data ++ text, room.capacity, h, room.inline_⟩
  else none

theorem le_grow (a : Array) (size : Nat) : size ≤ (a.grow size).capacity := Nat.le_max_left _ _

def growBuffer (a : Array) (text : Bytes) : Array :=
  let newSize := (a.data ++ text).length
  if h : newSize > a.capacity then
    ⟨a.data ++ text, (a.grow newSize).capacity, a.le_grow newSize, (a.grow newSize).inline_⟩
  else ⟨a.data ++ text, a.capacity, Nat.le_of_not_lt h, a.inline_⟩

def write (a : Array) : Piece → Option Array
  | .append text => a.append text
  | .grow text => some (a.growBuffer text)

def writeAll (a : Array) : List Piece → Option Array
  | [] => some a
  | piece :: pieces => (a.write piece).bind fun a => a.writeAll pieces

section append
variable {a a' : Array} {text : Bytes}

theorem append_data (h : a.append text = some a') : a'.data = a.data ++ text := by
  simp only [append] at h
  split at h
  · obtain rfl := Option.some.inj h
    rfl
  · cases h

theorem growBuffer_data (a : Array) (text : Bytes) :
    (a.growBuffer text).data = a.data ++ text := by
  simp only [growBuffer]
  split <;> rfl

theorem growBuffer_capacity (h : (a.data ++ text).length ≤ a.capacity) :
    (a.growBuffer text).capacity = a.capacity := by
  rw [growBuffer, dif_neg (Nat.not_lt.mpr h)]

/-- The copy leaves the memory exactly where the text is longer than the room and a half,
behind something. -/
theorem append_eq_none_iff :
    a.append text = none ↔
      0 < a.size ∧ a.capacity + a.capacity / 2 < a.size + text.length := by
  have fits : a.size ≤ a.capacity := a.fits
  have length : (a.data ++ text).length = a.size + text.length := List.length_append
  have none_iff : a.append text = none ↔
      ¬ a.size + text.length ≤ (a.appendRoom text.length).capacity := by
    simp only [append, length]
    split
    · next stored => exact iff_of_false nofun (not_not.mpr stored)
    · next out => exact iff_of_true rfl out
  rw [none_iff, appendRoom]
  split
  · next more =>
    have grown : (a.grow text.length).capacity =
      max text.length (a.capacity + a.capacity / 2) := rfl
    rw [grown]
    omega
  · next enough => omega

theorem exists_append (short : text.length ≤ inlineBufferSize / 2) :
    ∃ a', a.append text = some a' ∧ a'.data = a.data ++ text := by
  have room : a.append text ≠ none := by
    intro none
    have fits : a.size ≤ a.capacity := a.fits
    have large := a.inline_
    have := (append_eq_none_iff.mp none).2
    simp only [inlineBufferSize] at short large
    omega
  obtain ⟨a', h⟩ := Option.ne_none_iff_exists'.mp room
  exact ⟨a', h, append_data h⟩

end append

theorem exists_writeAll (pieces : List Piece)
    (short : ∀ text, .append text ∈ pieces → text.length ≤ inlineBufferSize / 2) (a : Array) :
    ∃ a', a.writeAll pieces = some a' ∧ a'.data = a.data ++ pieces.flatMap Piece.text := by
  induction pieces generalizing a with
  | nil => exact ⟨a, rfl, by simp⟩
  | cons piece pieces ih =>
    have next : ∃ a₁, a.write piece = some a₁ ∧ a₁.data = a.data ++ piece.text := by
      cases piece with
      | append text => exact exists_append (short text (by simp))
      | grow text => exact ⟨_, rfl, growBuffer_data a text⟩
    obtain ⟨a₁, written, data₁⟩ := next
    obtain ⟨a', all, data⟩ := ih (fun text ht => short text (by simp [ht])) a₁
    refine ⟨a', by rw [writeAll, written, Option.bind_some, all], ?_⟩
    rw [data, data₁, List.flatMap_cons, List.append_assoc]

end Array

theorem scan_append_length {args : List ArgInfo} {skip : Nat} {next : Int} {held s text : Bytes}
    (h : .append text ∈ (scan args skip next held s).pieces) :
    text.length ≤ held.length + s.length := by
  induction s generalizing skip next held with
  | nil =>
    rw [scan] at h
    obtain rfl := Piece.append.inj (List.mem_singleton.mp h)
    simp
  | cons c s ih =>
    cases skip with
    | succ skip =>
      have := ih h
      simp only [List.length_cons]
      omega
    | zero =>
      rw [scan] at h
      split at h
      · have := ih h
        simp only [List.length_append, List.length_cons, List.length_nil] at this ⊢
        omega
      split at h
      · rcases List.mem_cons.mp h with same | later
        · obtain rfl := Piece.append.inj same
          simp
        · have := ih later
          simp only [List.length_nil, List.length_cons] at this ⊢
          omega
      split at h
      · cases h
      split at h
      · obtain rfl := Piece.append.inj (List.mem_singleton.mp h)
        simp
      · rcases List.mem_cons.mp h with same | later
        · obtain rfl := Piece.append.inj same
          simp
        · have := ih (List.mem_of_ne_of_mem (fun same => by cases same) later)
          simp only [List.length_nil, List.length_cons] at this ⊢
          omega

/-- A `Format` with a short format never leaves its buffer, whatever the arguments. -/
theorem format_stored {s : Bytes} (short : s.length ≤ inlineBufferSize / 2)
    (args : List ArgInfo) :
    ∃ a, Array.empty.writeAll (format s args).pieces = some a ∧
      a.data = (format s args).pieces.flatMap Piece.text := by
  have parts : ∀ text, .append text ∈ (format s args).pieces →
      text.length ≤ inlineBufferSize / 2 := by
    intro text h
    have inside := scan_append_length h
    rw [List.length_nil, Nat.zero_add] at inside
    exact inside.trans short
  exact Array.exists_writeAll _ parts _

theorem scan_plain {args : List ArgInfo} {next : Int} {s : Bytes}
    (plain : ∀ c ∈ s, c ≠ openBrace ∧ c ≠ closeBrace) (held : Bytes) :
    scan args 0 next held s = ⟨[.append (held ++ s)], none⟩ := by
  induction s generalizing held with
  | nil => simp [scan]
  | cons c s ih =>
    rw [scan, if_pos (plain c (by simp)), ih fun c hc => plain c (by simp [hc])]
    simp

theorem take_strlen {str : Bytes} (clean : nul ∉ str) :
    str.take (FormatParser.strlen str) = str := by
  have all : str.takeWhile (· ≠ nul) = str :=
    List.takeWhile_eq_self_iff.mpr fun c hc => decide_eq_true fun same => clean (same ▸ hc)
  rw [FormatParser.strlen, all, List.take_length]

theorem formatArg_cString {str : Bytes} (clean : nul ∉ str) (precision : Int) :
    FormatParser.formatArg .empty precision (.cString (some str)) = .ok str := by
  simp [FormatParser.formatArg, ArgInfo.cString, FormatSpec.empty, take_strlen clean, formatString]

def fieldZero : Bytes := [openBrace, byte '0', closeBrace]

theorem format_fieldZero {s str : Bytes} (plain : ∀ c ∈ s, c ≠ openBrace ∧ c ≠ closeBrace)
    (clean : nul ∉ str) :
    (format (fieldZero ++ s) [.cString (some str)]).pieces =
      [.append [], .grow str, .append s] := by
  have read := field_text [.cString (some str)] 0 (s := s)
    (Segment.plain_sound (i := 0) (Nat.two_pow_pos 32))
  have first : takeArg [.cString (some str)] 0 (some 0) = .ok (.cString (some str), -1) := rfl
  rw [first] at read
  simp only [Except.bind, Option.elim, formatArg_cString clean, Except.map] at read
  have two : (byte '0' :: closeBrace :: s).length - s.length = 2 := by
    simp only [List.length_cons]
    omega
  have skipped := scan_skip [.cString (some str)] (-1) [byte '0', closeBrace] s
  have index : indexText (some 0) ++ [] ++ closeBrace :: s = byte '0' :: closeBrace :: s := rfl
  rw [index] at read
  rw [format, fieldZero, List.cons_append, List.cons_append, List.singleton_append, scan,
    if_neg (by decide), List.head?_cons, if_neg (by decide), if_neg (by decide), read]
  simp only [two]
  rw [show (2 : Nat) = [byte '0', closeBrace].length from rfl]
  simp only [List.cons_append, List.nil_append] at skipped
  rw [skipped, scan_plain plain]
  rfl

theorem format_overflow {s : Bytes} (plain : ∀ c ∈ s, c ≠ openBrace ∧ c ≠ closeBrace)
    (long : inlineBufferSize / 2 < s.length) :
    ∃ str, nul ∉ str ∧
      Array.empty.writeAll (format (fieldZero ++ s) [.cString (some str)]).pieces = none := by
  have clean : nul ∉ List.replicate inlineBufferSize (byte 'a') := by
    intro inside
    exact absurd (List.eq_of_mem_replicate inside) (by decide)
  have first : Array.empty.append [] = some .empty := rfl
  have length : (Array.empty.data ++ List.replicate inlineBufferSize (byte 'a')).length =
      inlineBufferSize := List.length_replicate ..
  have full : (Array.empty.growBuffer (List.replicate inlineBufferSize (byte 'a'))).capacity =
      inlineBufferSize := Array.growBuffer_capacity length.le
  refine ⟨List.replicate inlineBufferSize (byte 'a'), clean, ?_⟩
  rw [format_fieldZero plain clean, Array.writeAll, Array.write, first, Option.bind_some,
    Array.writeAll, Array.write, Option.bind_some, Array.writeAll, Array.write,
    Array.append_eq_none_iff.mpr]
  · rfl
  · rw [Array.size, Array.growBuffer_data, full, length]
    have half : inlineBufferSize = 500 := rfl
    omega

/-- The buffer of `{0}` and a literal is large enough for every argument exactly when the
literal is at most half the inline storage. -/
theorem format_fits_iff {s : Bytes} (plain : ∀ c ∈ s, c ≠ openBrace ∧ c ≠ closeBrace) :
    (∀ str, nul ∉ str → Array.empty.writeAll
        (format (fieldZero ++ s) [.cString (some str)]).pieces ≠ none) ↔
      s.length ≤ inlineBufferSize / 2 := by
  constructor
  · intro always
    by_contra long
    obtain ⟨str, clean, none⟩ := format_overflow plain (Nat.lt_of_not_le long)
    exact always str clean none
  · intro short str clean
    have parts : ∀ text, .append text ∈ [Piece.append [], .grow str, .append s] →
        text.length ≤ inlineBufferSize / 2 := by
      intro text h
      simp only [List.mem_cons, Piece.append.injEq, reduceCtorEq, List.not_mem_nil, or_false,
        false_or] at h
      rcases h with rfl | rfl
      · exact Nat.zero_le _
      · exact short
    obtain ⟨a, stored, -⟩ := Array.exists_writeAll _ parts .empty
    rw [format_fieldZero plain clean, stored]
    exact Option.some_ne_none a

theorem format_fits_letters :
    (∀ str, nul ∉ str → Array.empty.writeAll (format (fieldZero ++ List.replicate 250 (byte 'x'))
        [.cString (some str)]).pieces ≠ none) ∧
      ∃ str, nul ∉ str ∧ Array.empty.writeAll (format (fieldZero ++ List.replicate 251 (byte 'x'))
        [.cString (some str)]).pieces = none := by
  have plain (n : Nat) : ∀ c ∈ List.replicate n (byte 'x'), c ≠ openBrace ∧ c ≠ closeBrace := by
    intro c hc
    rw [List.eq_of_mem_replicate hc]
    decide
  have fits (n : Nat) := format_fits_iff (plain n)
  simp only [List.length_replicate, inlineBufferSize] at fits
  refine ⟨(fits 250).mpr (by decide), ?_⟩
  have leaves := mt (fits 251).mp (by decide)
  push Not at leaves
  exact leaves

end CqIrc.Fmt
