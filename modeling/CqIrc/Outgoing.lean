import CqIrc.Session

/-! From a call to the line it writes. The formatting functions hand their text to
`cq_irc_session_write` with its length as an `int`; the line is the text and CR LF. -/

namespace CqIrc

/-- `size + 2` does not fit an `int`, or is negative; `memcpy` leaves the message or the new
array; `fmt` got a NULL string. -/
inductive WriteFault where
  | signedOverflow
  | badArrayLength
  | copyOutOfBounds
  | formatError
  deriving DecidableEq, Repr

/-- What the application may call on a session to write to it; a pointer is NULL or
points to these bytes. -/
inductive Call where
  | write (msg : Option Bytes) (size : BitVec 32)
  | writeSync (msg : Option Bytes) (size : BitVec 32)
  | pong (ping : Option Bytes)
  | privmsg (channel message : Option Bytes)
  | quit (message : Option Bytes)
  deriving DecidableEq, Repr

/-- The buffer of `cq_irc_session_write` and `cq_irc_session_write_sync`, unless they
return before they make one. -/
def lineBuffer (msg : Option Bytes) (size : BitVec 32) : Except WriteFault (Option Bytes) :=
  match msg with
  | none => .ok none
  | some msg =>
    if size = 0 then .ok none
    else if 2 ^ 31 ≤ size.toInt + 2 then .error .signedOverflow
    else if size.toInt + 2 < 0 then .error .badArrayLength
    else if size.toInt < 0 ∨ msg.length < size.toInt then .error .copyOutOfBounds
    else .ok (some (msg.take size.toNat ++ delimiter))

namespace Call

def isSync : Call → Bool
  | writeSync _ _ => true
  | _ => false

def message : Call → Option Bytes
  | write msg size | writeSync msg size => msg.map (List.take size.toNat)
  | pong ping => ping.map (ascii ['P', 'O', 'N', 'G', ' '] ++ ·)
  | privmsg channel message =>
    channel.bind fun channel => message.map fun message =>
      ascii ['P', 'R', 'I', 'V', 'M', 'S', 'G', ' '] ++ channel ++ ascii [' ', ':'] ++ message
  | quit none => some (ascii ['Q', 'U', 'I', 'T'])
  | quit (some message) => some (ascii ['Q', 'U', 'I', 'T', ' ', ':'] ++ message)

def formatted (c : Call) : Except WriteFault (Option Bytes) :=
  match c.message with
  | none => .error .formatError
  | some out => lineBuffer (some out) (BitVec.ofNat 32 out.length)

def buffer : Call → Except WriteFault (Option Bytes)
  | write msg size | writeSync msg size => lineBuffer msg size
  | pong ping => (pong ping).formatted
  | privmsg channel message => (privmsg channel message).formatted
  | quit message => (quit message).formatted

/-- The complete line of a call; an empty message has none. -/
def line (c : Call) : Option Bytes :=
  c.message.bind fun text => if text = [] then none else some (text ++ delimiter)

def Fits (c : Call) : Prop := ∀ text, c.message = some text → text.length + 2 < 2 ^ 31

instance (c : Call) : Decidable c.Fits :=
  match h : c.message with
  | none => isTrue fun text ht => by simp [h] at ht
  | some out =>
    decidable_of_iff (out.length + 2 < 2 ^ 31) (by simp [Fits, h])

end Call

theorem lineBuffer_eq {msg : Bytes} {size : BitVec 32} {buffer : Option Bytes}
    (h : lineBuffer (some msg) size = .ok buffer) :
    buffer = if msg.take size.toNat = [] then none else some (msg.take size.toNat ++ delimiter) := by
  simp only [lineBuffer] at h
  split at h
  · next zero =>
    obtain rfl := Except.ok.inj h
    simp [zero]
  split at h
  · cases h
  split at h
  · cases h
  split at h
  · cases h
  · next nonzero _ _ inside =>
    obtain rfl := Except.ok.inj h
    refine (if_neg fun empty => ?_).symm
    rcases List.take_eq_nil_iff.mp empty with zero | rfl
    · exact nonzero (BitVec.eq_of_toNat_eq zero)
    · have zero : size.toInt = 0 := by
        rw [List.length_nil] at inside
        omega
      exact nonzero (BitVec.eq_of_toInt_eq zero)

namespace Call

theorem formatted_eq {c : Call} (fits : c.Fits) {buffer : Option Bytes}
    (h : c.formatted = .ok buffer) : buffer = c.line := by
  unfold formatted at h
  cases hm : c.message with
  | none => simp [hm] at h
  | some out =>
    simp only [hm] at h
    have size : (BitVec.ofNat 32 out.length).toNat = out.length := by
      rw [BitVec.toNat_ofNat]
      exact Nat.mod_eq_of_lt (by have := fits out hm; omega)
    rw [lineBuffer_eq h, size, List.take_length, line, hm]
    rfl

theorem written_eq {msg : Option Bytes} {size : BitVec 32} {buffer : Option Bytes}
    (h : lineBuffer msg size = .ok buffer) : buffer = (write msg size).line := by
  cases msg with
  | none =>
    obtain rfl := Except.ok.inj h
    rfl
  | some msg => exact lineBuffer_eq h

theorem buffer_eq {c : Call} (fits : c.Fits) {buffer : Option Bytes}
    (h : c.buffer = .ok buffer) : buffer = c.line := by
  cases c with
  | write => exact written_eq h
  | writeSync => exact written_eq h
  | pong => exact formatted_eq fits h
  | privmsg => exact formatted_eq fits h
  | quit => exact formatted_eq fits h

def formats : Call → Bool
  | write _ _ | writeSync _ _ => false
  | pong _ | privmsg _ _ | quit _ => true

def arguments : Call → List Bytes
  | write msg _ | writeSync msg _ => msg.toList
  | pong ping => ping.toList
  | privmsg channel message => channel.toList ++ message.toList
  | quit message => message.toList

theorem buffer_of_formats {c : Call} (h : c.formats = true) : c.buffer = c.formatted := by
  cases c with
  | write | writeSync => cases h
  | _ => rfl

theorem message_ne_nil {c : Call} (h : c.formats = true) {text : Bytes}
    (ht : c.message = some text) : text ≠ [] := by
  rintro rfl
  cases c with
  | write | writeSync => cases h
  | pong ping => cases ping <;> cases ht
  | privmsg channel message => cases channel <;> cases message <;> cases ht
  | quit message => cases message <;> cases ht

theorem toInt_of_room {n : Nat} (room : n + 2 < 2 ^ 31) : (BitVec.ofNat 32 n).toInt = n := by
  rw [BitVec.toInt_eq_toNat_cond, BitVec.toNat_ofNat, Nat.mod_eq_of_lt (by omega),
    if_pos (by omega)]

theorem buffer_of_fits {c : Call} (h : c.formats = true) (fits : c.Fits) {text : Bytes}
    (ht : c.message = some text) : c.buffer = .ok (some (text ++ delimiter)) := by
  have room := fits text ht
  have ne := List.length_pos_iff.mpr (message_ne_nil h ht)
  have size : (BitVec.ofNat 32 text.length).toNat = text.length := by
    rw [BitVec.toNat_ofNat]
    exact Nat.mod_eq_of_lt (by omega)
  have int := toInt_of_room room
  have nonzero : BitVec.ofNat 32 text.length ≠ 0 := by
    intro zero
    rw [zero] at size
    exact ne.ne size
  rw [buffer_of_formats h, formatted, ht]
  simp only [lineBuffer]
  rw [if_neg nonzero, if_neg (by omega), if_neg (by omega), if_neg (by omega), size,
    List.take_length]

theorem buffer_length {c : Call} (h : c.formats = true) {buffer : Bytes}
    (hb : c.buffer = .ok (some buffer)) : buffer.length < 2 ^ 31 := by
  rw [buffer_of_formats h, formatted] at hb
  split at hb
  · cases hb
  · next text _ =>
    simp only [lineBuffer] at hb
    split_ifs at hb with zero large
    · cases hb
    · obtain rfl := Option.some.inj (Except.ok.inj hb)
      have width := BitVec.toInt_eq_toNat_cond (BitVec.ofNat 32 text.length)
      rw [List.length_append, List.length_take, delimiter, List.length_cons, List.length_singleton]
      split at width <;> omega

theorem buffer_front {c : Call} (h : c.formats = true) {text buffer : Bytes}
    (ht : c.message = some text) (hb : c.buffer = .ok (some buffer)) :
    ∃ front, front <+: text ∧ buffer = front ++ delimiter := by
  rw [buffer_of_formats h, formatted, ht] at hb
  have made := lineBuffer_eq hb
  split at made
  · cases made
  · exact ⟨_, List.take_prefix _ _, Option.some.inj made⟩

/-- One CR LF, at the end, and no other CR, LF or NUL. -/
def OneLine (buffer : Bytes) : Prop :=
  ∃ text, buffer = text ++ delimiter ∧ ∀ b ∈ text, b ≠ nul ∧ b ≠ cr ∧ b ≠ lf

theorem oneLine_iff {text : Bytes} :
    OneLine (text ++ delimiter) ↔ ∀ b ∈ text, b ≠ nul ∧ b ≠ cr ∧ b ≠ lf := by
  refine ⟨?_, fun h => ⟨text, rfl, h⟩⟩
  rintro ⟨other, same, clean⟩
  exact List.append_cancel_right same ▸ clean

theorem clean_iff {c : Call} (h : c.formats = true) (strings : ∀ a ∈ c.arguments, nul ∉ a)
    {text : Bytes} (ht : c.message = some text) :
    (∀ b ∈ text, b ≠ nul ∧ b ≠ cr ∧ b ≠ lf) ↔ ∀ a ∈ c.arguments, cr ∉ a ∧ lf ∉ a := by
  have letters {a : Bytes} (hn : nul ∉ a) :
      (∀ b ∈ a, b ≠ nul ∧ b ≠ cr ∧ b ≠ lf) ↔ cr ∉ a ∧ lf ∉ a := by
    constructor
    · exact fun all => ⟨fun hc => (all cr hc).2.1 rfl, fun hl => (all lf hl).2.2 rfl⟩
    · rintro ⟨hc, hl⟩ b hb
      exact ⟨fun e => hn (e ▸ hb), fun e => hc (e ▸ hb), fun e => hl (e ▸ hb)⟩
  have literal (a : List Char)
      (ha : (ascii a).all (fun b => b != nul && b != cr && b != lf) = true) :
      ∀ b ∈ ascii a, b ≠ nul ∧ b ≠ cr ∧ b ≠ lf := by
    intro b hb
    simpa [and_assoc] using List.all_eq_true.mp ha b hb
  cases c with
  | write | writeSync => cases h
  | pong ping =>
    obtain ⟨a, rfl, rfl⟩ := Option.map_eq_some_iff.mp ht
    simp only [arguments, Option.toList_some, List.mem_singleton, forall_eq, List.forall_mem_append]
      at strings ⊢
    rw [letters strings]
    exact and_iff_right (literal _ (by decide))
  | privmsg channel message =>
    obtain ⟨a, rfl, ht⟩ := Option.bind_eq_some_iff.mp ht
    obtain ⟨b, rfl, rfl⟩ := Option.map_eq_some_iff.mp ht
    simp only [arguments, Option.toList_some, List.mem_singleton, forall_eq, List.forall_mem_append]
      at strings ⊢
    rw [letters strings.1, letters strings.2]
    have front := literal ['P', 'R', 'I', 'V', 'M', 'S', 'G', ' '] (by decide)
    have mark := literal [' ', ':'] (by decide)
    rw [and_iff_right front, and_iff_left mark]
  | quit message =>
    cases message with
    | none =>
      obtain rfl := Option.some.inj ht
      simpa [arguments] using literal ['Q', 'U', 'I', 'T'] (by decide)
    | some a =>
      obtain rfl := Option.some.inj ht
      simp only [arguments, Option.toList_some, List.mem_singleton, forall_eq,
        List.forall_mem_append] at strings ⊢
      rw [letters strings]
      exact and_iff_right (literal _ (by decide))

theorem oneLine_of_clean {c : Call} (h : c.formats = true)
    (clean : ∀ a ∈ c.arguments, nul ∉ a ∧ cr ∉ a ∧ lf ∉ a) {text : Bytes}
    (ht : c.message = some text) : OneLine (text ++ delimiter) :=
  oneLine_iff.mpr ((clean_iff h (fun a ha => (clean a ha).1) ht).mpr fun a ha => (clean a ha).2)

/-- Arguments without CR and LF make one line; with one of them the text is another
command for the server. -/
theorem one_line (c : Call) (h : c.formats = true) (strings : ∀ a ∈ c.arguments, nul ∉ a) :
    ((∀ a ∈ c.arguments, cr ∉ a ∧ lf ∉ a) →
        ∀ buffer, c.buffer = .ok (some buffer) → OneLine buffer) ∧
      (c.Fits → ∀ text, c.message = some text → ∃ buffer, c.buffer = .ok (some buffer) ∧
        (OneLine buffer ↔ ∀ a ∈ c.arguments, cr ∉ a ∧ lf ∉ a)) := by
  constructor
  · intro clean buffer hb
    cases ht : c.message with
    | none =>
      rw [buffer_of_formats h, formatted, ht] at hb
      cases hb
    | some text =>
      obtain ⟨front, inside, rfl⟩ := buffer_front h ht hb
      exact oneLine_iff.mpr fun b hb => (clean_iff h strings ht).mpr clean b (inside.subset hb)
  · intro fits text ht
    exact ⟨_, buffer_of_fits h fits ht, oneLine_iff.trans (clean_iff h strings ht)⟩

def greeting : Call := .privmsg (some (ascii ['#', 'c'])) (some (ascii ['h', 'i']))

theorem one_line_greeting :
    (∀ a ∈ greeting.arguments, cr ∉ a ∧ lf ∉ a) ∧
      ∀ buffer, greeting.buffer = .ok (some buffer) → OneLine buffer := by
  have clean : ∀ a ∈ greeting.arguments, cr ∉ a ∧ lf ∉ a := by simp [greeting, arguments]; decide
  exact ⟨clean, (one_line greeting rfl (by simp [greeting, arguments]; decide)).1 clean⟩

def forwarded : Call :=
  .privmsg (some (ascii ['#', 'c'])) (some (ascii ['h', 'i', '\r', '\n', 'Q', 'U', 'I', 'T']))

theorem not_one_line_forwarded :
    (∀ a ∈ forwarded.arguments, nul ∉ a) ∧
      ∃ buffer, forwarded.buffer = .ok (some buffer) ∧ ¬ OneLine buffer := by
  refine ⟨by simp [forwarded, arguments]; decide, _, rfl, ?_⟩
  exact fun h => absurd (oneLine_iff.mp h cr (by decide)).2.1 (by decide)

end Call

theorem lineBuffer_none_iff {msg : Bytes} {size : BitVec 32} :
    lineBuffer (some msg) size = .ok none ↔ size = 0 := by
  simp only [lineBuffer]
  split_ifs with zero
  · exact iff_of_true rfl zero
  all_goals exact iff_of_false nofun zero

theorem lineBuffer_some_iff {msg buf : Bytes} {size : BitVec 32} :
    lineBuffer (some msg) size = .ok (some buf) ↔
      (0 < size.toInt ∧ size.toInt + 2 < 2 ^ 31 ∧ size.toInt ≤ msg.length) ∧
        buf = msg.take size.toNat ++ delimiter := by
  simp only [lineBuffer]
  split_ifs with zero large negative outside
  · simp [zero]
  · exact iff_of_false nofun fun h => by omega
  · exact iff_of_false nofun fun h => by omega
  · exact iff_of_false nofun fun h => by omega
  · have nonzero : size.toInt ≠ 0 := fun same => zero (BitVec.eq_of_toInt_eq same)
    refine ⟨fun h => ⟨by omega, ?_⟩, fun h => by rw [h.2]⟩
    exact (Option.some.inj (Except.ok.inj h)).symm

namespace Call

def size : Call → Option (BitVec 32)
  | write _ size | writeSync _ size => some size
  | pong ping => (pong ping).message.map fun out => BitVec.ofNat 32 out.length
  | privmsg channel message =>
    (privmsg channel message).message.map fun out => BitVec.ofNat 32 out.length
  | quit message => (quit message).message.map fun out => BitVec.ofNat 32 out.length

/-- The call has no effect, or its length arrives and the bytes sent are its text and CR LF. -/
def LengthSound (c : Call) : Prop :=
  c.buffer = .ok none ∨ ∃ text size, c.message = some text ∧ c.size = some size ∧
    size.toInt = text.length ∧ size.toInt + 2 < 2 ^ 31 ∧
    c.buffer = .ok (some (text ++ delimiter))

def SizeFits (msg : Option Bytes) (size : BitVec 32) : Prop :=
  size = 0 ∨ ∀ text ∈ msg, 0 < size.toInt ∧ size.toInt + 2 < 2 ^ 31 ∧ size.toInt ≤ text.length

def TextFits (c : Call) : Prop := c.Fits ∨ ∀ text, c.message = some text → 2 ^ 32 ∣ text.length

def LengthFits : Call → Prop
  | write msg size | writeSync msg size => SizeFits msg size
  | pong ping => (pong ping).TextFits
  | privmsg channel message => (privmsg channel message).TextFits
  | quit message => (quit message).TextFits

theorem size_of_formats {c : Call} (h : c.formats = true) {text : Bytes}
    (ht : c.message = some text) : c.size = some (BitVec.ofNat 32 text.length) := by
  cases c with
  | write | writeSync => cases h
  | _ => exact congrArg (Option.map _) ht

theorem lengthFits_of_formats {c : Call} (h : c.formats = true) : c.LengthFits ↔ c.TextFits := by
  cases c with
  | write | writeSync => cases h
  | _ => exact Iff.rfl

theorem lengthSound_of_sizes {c : Call} {msg : Bytes} {size : BitVec 32}
    (ht : c.message = some (msg.take size.toNat)) (hs : c.size = some size)
    (hb : c.buffer = lineBuffer (some msg) size) :
    c.LengthSound ↔ SizeFits (some msg) size := by
  unfold LengthSound
  rw [ht, hs, hb, lineBuffer_none_iff]
  refine or_congr_right ⟨?_, fun fits => ?_⟩
  · rintro ⟨_, _, ⟨⟩, ⟨⟩, -, -, made⟩ _ ⟨⟩
    exact (lineBuffer_some_iff.mp made).1
  · obtain ⟨positive, room, inside⟩ := fits msg rfl
    have width := BitVec.toInt_eq_toNat_cond size
    have length : size.toInt = (msg.take size.toNat).length := by
      rw [List.length_take]
      split at width <;> omega
    exact ⟨_, _, rfl, rfl, length, room,
      lineBuffer_some_iff.mpr ⟨⟨positive, room, inside⟩, rfl⟩⟩

theorem lengthSound_of_formats {c : Call} (h : c.formats = true) {text : Bytes}
    (ht : c.message = some text) : c.LengthSound ↔ c.TextFits := by
  have size := size_of_formats h ht
  have zero : BitVec.ofNat 32 text.length = 0 ↔ 2 ^ 32 ∣ text.length := by
    rw [← BitVec.toNat_inj, BitVec.toNat_ofNat]
    exact (Nat.dvd_iff_mod_eq_zero).symm
  have none_iff : c.buffer = .ok none ↔ 2 ^ 32 ∣ text.length := by
    rw [buffer_of_formats h, formatted, ht, ← zero]
    exact lineBuffer_none_iff
  constructor
  · rintro (nothing | ⟨_, _, same, arrived, length, room, -⟩)
    · refine .inr fun other ho => ?_
      obtain rfl := Option.some.inj (ht.symm.trans ho)
      exact none_iff.mp nothing
    · obtain rfl := Option.some.inj (ht.symm.trans same)
      refine .inl fun other ho => ?_
      obtain rfl := Option.some.inj (ht.symm.trans ho)
      omega
  · rintro (fits | multiple)
    · have room := fits text ht
      have int := toInt_of_room room
      exact .inr ⟨text, _, ht, size, int, by rw [int]; omega, buffer_of_fits h fits ht⟩
    · exact .inl (none_iff.mpr (multiple text ht))

/-- A length arrives, and is computed with soundly, for exactly the sizes that fit. -/
theorem lengthSound_iff {c : Call} {text : Bytes} (ht : c.message = some text) :
    c.LengthSound ↔ c.LengthFits := by
  cases formats : c.formats with
  | true => exact (lengthSound_of_formats formats ht).trans (lengthFits_of_formats formats).symm
  | false =>
    cases c with
    | write msg size | writeSync msg size =>
      obtain ⟨msg, rfl, rfl⟩ := Option.map_eq_some_iff.mp ht
      exact lengthSound_of_sizes rfl rfl rfl
    | _ => cases formats

theorem lengthSound_greeting : greeting.LengthFits ∧ greeting.LengthSound := by
  have fits : greeting.LengthFits := .inl (by decide)
  exact ⟨fits, (lengthSound_iff rfl).mpr fits⟩

theorem not_lengthSound_negative :
    (write (some (ascii ['h', 'i'])) (-1)).buffer = .error .copyOutOfBounds ∧
      ¬ (write (some (ascii ['h', 'i'])) (-1)).LengthSound := by
  have failed : (write (some (ascii ['h', 'i'])) (-1)).buffer = .error .copyOutOfBounds := by decide
  refine ⟨failed, ?_⟩
  rintro (nothing | ⟨_, _, -, -, -, -, made⟩)
  · cases failed.symm.trans nothing
  · cases failed.symm.trans made

end Call
end CqIrc
