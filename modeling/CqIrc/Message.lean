import Mathlib.Data.List.TakeWhile
import Mathlib.Data.Vector.Basic

/-! The data of `irc-client.h`: prefixes, parameters, messages and the table of
callbacks. A C string is the list of its bytes, a pointer to one is an `Option`
whose `none` is NULL. The parameter array keeps its fourteen slots and its
`uint8_t` length; the slot written by a new parameter must exist. -/

namespace CqIrc

abbrev Byte := UInt8
abbrev Bytes := List Byte

def ascii (text : List Char) : Bytes := text.map fun c => UInt8.ofNat c.toNat

def nul : Byte := 0x00
def lf : Byte := 0x0A
def cr : Byte := 0x0D
def sp : Byte := 0x20
def colon : Byte := 0x3A

/-- `strndup(text, length of text)` stops at the first NUL. -/
def strndup (text : Bytes) : Bytes := text.takeWhile (· != nul)

theorem strndup_eq {text : Bytes} (h : ∀ b ∈ text, b ≠ nul) : strndup text = text := by
  rw [strndup, List.takeWhile_eq_self_iff]
  intro b hb
  simpa using h b hb

structure Prefix where
  host : Option Bytes
  user : Option Bytes
  source : Option Bytes
  deriving DecidableEq, Repr

structure Params where
  param : Vector (Option Bytes) 14
  length : UInt8
  deriving DecidableEq, Repr

structure Message where
  pfx : Prefix
  params : Params
  trailing : Option Bytes
  deriving DecidableEq, Repr

def Message.zero : Message :=
  ⟨⟨none, none, none⟩, ⟨Vector.replicate 14 none, 0⟩, none⟩

/-- The parameters a callback may read: the first `length` slots. -/
def Params.listed (p : Params) : List (Option Bytes) := p.param.toList.take p.length.toNat

/-- `IRC_ADD_PARAM`; `none` when the slot lies behind the array. -/
def Params.add (p : Params) (x : Bytes) : Option Params :=
  if h : p.length.toNat < 14 then
    some ⟨p.param.set p.length.toNat (some x) h, p.length + 1⟩
  else none

theorem Params.add_isSome {p : Params} {x : Bytes} :
    (p.add x).isSome = true ↔ p.length.toNat < 14 := by
  unfold add
  split <;> simp_all

theorem Params.add_length {p q : Params} {x : Bytes} (h : p.add x = some q) :
    p.length.toNat < 14 ∧ q.length.toNat = p.length.toNat + 1 := by
  unfold add at h
  split at h
  · next lt =>
    obtain rfl := Option.some.inj h
    refine ⟨lt, ?_⟩
    rw [UInt8.toNat_add]
    exact Nat.mod_eq_of_lt (by simpa using by omega)
  · simp at h

theorem Params.add_listed {p q : Params} {x : Bytes} (h : p.add x = some q) :
    q.listed = p.listed ++ [some x] := by
  have hq := (add_length h).2
  unfold add at h
  split at h
  · next lt =>
    obtain rfl := Option.some.inj h
    rw [listed, hq, Vector.toList_set, List.take_succ_eq_append_getElem (by simpa using lt)]
    rw [List.take_set_of_le le_rfl, List.getElem_set_self, listed]
  · simp at h

def Params.addAll (p : Params) (xs : List Bytes) : Option Params := xs.foldlM Params.add p

theorem Params.addAll_cons (p : Params) (x : Bytes) (xs : List Bytes) :
    p.addAll (x :: xs) = (p.add x).bind fun q => q.addAll xs := List.foldlM_cons

theorem Params.addAll_spec {p : Params} (xs : List Bytes)
    (room : p.length.toNat + xs.length ≤ 14) :
    ∃ q, p.addAll xs = some q ∧ q.listed = p.listed ++ xs.map some ∧
      q.length.toNat = p.length.toNat + xs.length := by
  induction xs generalizing p with
  | nil => exact ⟨p, rfl, by simp, rfl⟩
  | cons x xs ih =>
    rw [List.length_cons] at room
    obtain ⟨q, hq⟩ := Option.isSome_iff_exists.mp
      (add_isSome (x := x).mpr (show p.length.toNat < 14 by omega))
    have len := (add_length hq).2
    obtain ⟨r, hr, listed, total⟩ := ih (p := q) (by omega)
    refine ⟨r, by rw [addAll_cons, hq]; exact hr, ?_, ?_⟩
    · simp [listed, add_listed hq]
    · rw [total, len, List.length_cons]
      omega

@[simp] theorem Message.zero_listed : Message.zero.params.listed = [] := rfl

@[simp] theorem Message.zero_length : Message.zero.params.length.toNat = 0 := rfl

/-- `destroy_message`: the pointers it passes to `free`. -/
def destroyMessage (m : Message) : List (Option Bytes) :=
  [m.pfx.host, m.pfx.source, m.pfx.user] ++ m.params.listed ++ [m.trailing]

/-- The signals of `cq_irc_callbacks`, which the macros paste into `signal_##name`. -/
inductive Signal where
  | connect
  | welcome
  | ping
  | privmsg
  | notice
  | error
  | unknown
  | disconnect
  deriving DecidableEq, Repr

/-- Only whether an entry is NULL matters to the code: `true` is a function. -/
structure Callbacks where
  signalConnect : Bool
  signalWelcome : Bool
  signalPing : Bool
  signalPrivmsg : Bool
  signalNotice : Bool
  signalError : Bool
  signalUnknown : Bool
  signalDisconnect : Bool
  deriving DecidableEq, Repr

def Callbacks.has (c : Callbacks) : Signal → Bool
  | .connect => c.signalConnect
  | .welcome => c.signalWelcome
  | .ping => c.signalPing
  | .privmsg => c.signalPrivmsg
  | .notice => c.signalNotice
  | .error => c.signalError
  | .unknown => c.signalUnknown
  | .disconnect => c.signalDisconnect

def Callbacks.full : Callbacks := ⟨true, true, true, true, true, true, true, true⟩

@[simp] theorem Callbacks.full_has (s : Signal) : Callbacks.full.has s = true := by
  cases s <;> rfl

structure Invocation where
  signal : Signal
  command : Option Bytes
  message : Message
  deriving DecidableEq, Repr

end CqIrc
