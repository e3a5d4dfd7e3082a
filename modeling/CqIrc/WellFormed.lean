import CqIrc.ScanRuns

/-! Well-formed lines, written piece by piece, and how the scanner reads them. Each
`read_` lemma prepends one piece: a run from behind the piece gives a run from its
front, with the field the piece fills. -/

namespace CqIrc
open Flex Flex.Pattern

def spaces (n : Nat) : Bytes := List.replicate (n + 1) sp

/-- `command (SP+ middle)^k [SP+ ":" trailing] CR LF` with at most fourteen middles. -/
structure Body where
  command : Bytes
  middles : List (Nat × Bytes)
  trailing : Option (Nat × Bytes)
  command_mem : command ∈ CqIrc.command.language
  middles_length : middles.length ≤ 14
  middles_mem : ∀ x ∈ middles, x.2 ∈ middle.language
  trailing_mem : ∀ x ∈ trailing, x.2 ≠ [] ∧
    ∀ b ∈ x.2, inTable b = true ∧ b ≠ nul ∧ b ≠ cr ∧ b ≠ lf

def middleBytes (middles : List (Nat × Bytes)) : Bytes :=
  middles.flatMap fun x => spaces x.1 ++ x.2

def trailingBytes : Option (Nat × Bytes) → Bytes
  | none => []
  | some x => spaces x.1 ++ colon :: x.2

def Body.bytes (b : Body) : Bytes :=
  b.command ++ (middleBytes b.middles ++ (trailingBytes b.trailing ++ [cr, lf]))

/-- `":" source ["!" user] ["@" host] SP+`. -/
structure Origin where
  source : Bytes
  user : Option Bytes
  host : Option Bytes
  extra : Nat
  source_mem : source ∈ nickname.language ∨ source ∈ servername.language
  user_mem : ∀ u ∈ user, u ∈ CqIrc.user.language
  host_mem : ∀ h ∈ host, h ∈ CqIrc.host.language

def markedBytes (mark : Char) : Option Bytes → Bytes
  | none => []
  | some w => UInt8.ofNat mark.toNat :: w

def Origin.bytes (o : Origin) : Bytes :=
  colon :: (o.source ++ (markedBytes '!' o.user ++ markedBytes '@' o.host ++ spaces o.extra))

theorem trailingChar_iff {b : Byte} :
    trailingChar b = true ↔ inTable b = true ∧ b ≠ nul ∧ b ≠ cr ∧ b ≠ lf := by
  rw [trailingChar, negated_iff]
  simp [ascii, nul, cr, lf]
  tauto

theorem trailing_of_all {x : Nat × Bytes} (ne : x.2 ≠ []) (h : x.2.all trailingChar = true) :
    ∀ y ∈ some x, y.2 ≠ [] ∧ ∀ b ∈ y.2, inTable b = true ∧ b ≠ nul ∧ b ≠ cr ∧ b ≠ lf := by
  intro y hy
  obtain rfl := Option.some.inj hy
  exact ⟨ne, fun b hb => trailingChar_iff.mp (List.all_eq_true.mp h b hb)⟩

/-! Every byte of a well-formed line has a column. -/

theorem spaces_inTable {n : Nat} {b : Byte} (h : b ∈ spaces n) : inTable b = true := by
  rw [List.eq_of_mem_replicate h]
  decide

theorem middleBytes_inTable {ms : List (Nat × Bytes)} (h : ∀ x ∈ ms, x.2 ∈ middle.language) :
    ∀ b ∈ middleBytes ms, inTable b = true := by
  intro b hb
  obtain ⟨x, hx, hb⟩ := List.mem_flatMap.mp hb
  rcases List.mem_append.mp hb with hb | hb
  · exact spaces_inTable hb
  · exact middle_inTable (h x hx) b hb

theorem Body.inTable (body : Body) : ∀ b ∈ body.bytes, inTable b = true := by
  intro b hb
  simp only [Body.bytes, List.mem_append] at hb
  rcases hb with hb | hb | hb | hb
  · exact command_inTable body.command_mem b hb
  · exact middleBytes_inTable body.middles_mem b hb
  · cases ht : body.trailing with
    | none => simp [ht, trailingBytes] at hb
    | some x =>
      rw [ht, trailingBytes, List.mem_append, List.mem_cons] at hb
      rcases hb with hb | rfl | hb
      · exact spaces_inTable hb
      · decide
      · exact ((body.trailing_mem x ht).2 b hb).1
  · exact List.all_eq_true.mp (by decide : [cr, lf].all CqIrc.inTable = true) b hb

theorem Origin.source_letters (o : Origin) : ∀ b ∈ o.source, sourceLetter b :=
  source_within.mem (mem_alt.mpr o.source_mem)

theorem Origin.marked_letters (o : Origin) :
    ∀ b ∈ markedBytes '!' o.user ++ markedBytes '@' o.host, CqIrc.inTable b = true ∧ b ≠ sp := by
  intro b hb
  rcases List.mem_append.mp hb with hb | hb
  · cases hu : o.user with
    | none => simp [hu, markedBytes] at hb
    | some u =>
      rw [hu] at hb
      rcases List.mem_cons.mp hb with rfl | hb
      · decide
      · have letter := negated_iff.mp ((mem_user.mp (o.user_mem u hu)).2 b hb)
        refine ⟨letter.1, fun e => letter.2 ?_⟩
        rw [e]
        decide
  · cases hh : o.host with
    | none => simp [hh, markedBytes] at hb
    | some h =>
      rw [hh] at hb
      rcases List.mem_cons.mp hb with rfl | hb
      · decide
      · have letter := host_within.mem (o.host_mem h hh) b hb
        exact ⟨letter.1, letter.2.1⟩

theorem Origin.inTable (o : Origin) : ∀ b ∈ o.bytes, CqIrc.inTable b = true := by
  intro b hb
  rw [Origin.bytes, List.mem_cons, List.mem_append, List.mem_append] at hb
  rcases hb with rfl | hb | hb | hb
  · decide
  · exact (o.source_letters b hb).1
  · exact (o.marked_letters b hb).1
  · exact spaces_inTable hb

/-! Reading a line piece by piece. -/

section reading
variable {cb : Callbacks} {g : Bool} {t : Target} {v : Bytes} {m : Message} {al : List Bytes}

theorem Reaches.skips {p : Phase} (w : Bytes) (hw : ∀ b ∈ w, inTable b = true ∧ ∀ u, Skip p b u) :
    Reaches cb g ⟨p, w ++ v, m, al⟩ ⟨p, v, m, al⟩ := by
  induction w with
  | nil => exact .refl
  | cons b w ih =>
    obtain ⟨⟨hb, skip⟩, hw⟩ := List.forall_mem_cons.mp hw
    exact .head (.skip hb (skip _)) (ih hw)

theorem not_commandWord_cons {b : Byte} {v : Bytes} (h : alnum b = false) :
    ∀ w u, b :: v = w ++ u → ¬ CommandWord w u := by
  intro w u e hw
  obtain ⟨c, t, rfl⟩ := List.exists_cons_of_ne_nil hw.ne_nil
  obtain rfl := (List.cons.inj e).1
  cases hw with
  | letters _ all _ => simp [alnum, all b (by simp)] at h
  | digits _ all => simp [alnum, all b (by simp)] at h

theorem skip_head_space (u : Bytes) : Skip .head sp u :=
  .head (by decide) (not_commandWord_cons (by decide))

theorem skip_param_space (u : Bytes) : Skip (.param t) sp u := .param (by decide) (by decide)

theorem reach_space (n : Nat) :
    Reaches cb g ⟨.params t, spaces n ++ v, m, al⟩ ⟨.param t, v, m, al⟩ := by
  refine .head .space (Reaches.skips (List.replicate n sp) fun b hb => ?_)
  obtain rfl := List.eq_of_mem_replicate hb
  exact ⟨by decide, skip_param_space⟩

section pieces
variable (cb g t al)

theorem reach_middle {n : Nat} {w : Bytes} {ps : Params} (hw : w ∈ middle.language)
    (stop : Stops middleChar v) (hp : m.params.add w = some ps) :
    Reaches cb g ⟨.params t, spaces n ++ w ++ v, m, al⟩
      ⟨.params t, v, m.withParams ps, al ++ [w]⟩ := by
  rw [List.append_assoc]
  exact (reach_space n).tail (.middle hw stop hp)

theorem stops_spaces {p : Byte → Bool} (hp : p sp = false) (n : Nat) :
    Stops p (spaces n ++ v) := by
  intro b u e
  obtain rfl := (List.cons.inj e).1
  exact hp

theorem reach_middles {ms : List (Nat × Bytes)} {ps : Params}
    (hm : ∀ x ∈ ms, x.2 ∈ middle.language) (stop : Stops middleChar v)
    (hp : m.params.addAll (ms.map (·.2)) = some ps) :
    ∃ al', Reaches cb g ⟨.params t, middleBytes ms ++ v, m, al⟩
      ⟨.params t, v, m.withParams ps, al'⟩ := by
  induction ms generalizing m al with
  | nil =>
    obtain rfl := Option.some.inj hp
    exact ⟨al, .refl⟩
  | cons x ms ih =>
    obtain ⟨hx, hms⟩ := List.forall_mem_cons.mp hm
    rw [List.map_cons, Params.addAll_cons] at hp
    obtain ⟨qs, first, rest⟩ := Option.bind_eq_some_iff.mp hp
    obtain ⟨al', reach⟩ := ih (m := m.withParams qs) (al ++ [x.2]) hms rest
    have next : Stops middleChar (middleBytes ms ++ v) := by
      cases ms with
      | nil => exact stop
      | cons y ms =>
        simp only [middleBytes, List.flatMap_cons, List.append_assoc]
        exact stops_spaces (by decide) _
    have head := reach_middle cb g t al (n := x.1) hx next first
    refine ⟨al', ?_⟩
    simp only [middleBytes, List.flatMap_cons, List.append_assoc] at head ⊢
    exact head.trans reach

def Message.withTrailing? (m : Message) : Option (Nat × Bytes) → Message
  | none => m
  | some x => m.withTrailing x.2

@[simp] theorem Message.withTrailing?_pfx (m : Message) (x : Option (Nat × Bytes)) :
    (m.withTrailing? x).pfx = m.pfx := by
  cases x <;> rfl

@[simp] theorem Message.withTrailing?_params (m : Message) (x : Option (Nat × Bytes)) :
    (m.withTrailing? x).params = m.params := by
  cases x <;> rfl

@[simp] theorem Message.withTrailing?_trailing (m : Message) (x : Option (Nat × Bytes)) :
    (m.withTrailing? x).trailing = (x.map (·.2)).or m.trailing := by
  cases x <;> rfl

theorem reach_trailing {x : Option (Nat × Bytes)} (stop : Stops trailingChar v)
    (hx : ∀ y ∈ x, y.2 ≠ [] ∧ ∀ b ∈ y.2, inTable b = true ∧ b ≠ nul ∧ b ≠ cr ∧ b ≠ lf) :
    ∃ al', Reaches cb g ⟨.params t, trailingBytes x ++ v, m, al⟩
      ⟨.params t, v, m.withTrailing? x, al'⟩ := by
  cases x with
  | none => exact ⟨al, .refl⟩
  | some y =>
    obtain ⟨ne, hy⟩ := hx y rfl
    refine ⟨al ++ [y.2], ?_⟩
    rw [trailingBytes, List.append_assoc]
    refine (reach_space y.1).trans (.head .colon (.single (.trailing ne ?_ stop)))
    exact fun b hb => trailingChar_iff.mpr (hy b hb)

theorem reach_word {w : Bytes} (hw : w ∈ command.language) (stop : Stops alpha v)
    (hf : cb.has (target g w).signal = true) :
    Reaches cb g ⟨.head, w ++ v, m, al⟩
      ⟨.params (target g w), v, m, al ++ (target g w).word?.toList⟩ := by
  refine .single (.word ?_ hf)
  rcases mem_command.mp hw with ⟨ne, hw⟩ | ⟨len, hw⟩
  · exact .letters ne hw stop
  · exact .digits len hw

end pieces
end reading

theorem stops_trailing {p : Byte → Bool} (hs : p sp = false) (hc : p cr = false)
    (x : Option (Nat × Bytes)) : Stops p (trailingBytes x ++ [cr, lf]) := by
  cases x with
  | none =>
    intro b u e
    obtain rfl := (List.cons.inj e).1
    exact hc
  | some y =>
    rw [trailingBytes, List.append_assoc]
    exact stops_spaces hs _

theorem stops_middles {p : Byte → Bool} (hs : p sp = false) (hc : p cr = false)
    (ms : List (Nat × Bytes)) (x : Option (Nat × Bytes)) :
    Stops p (middleBytes ms ++ (trailingBytes x ++ [cr, lf])) := by
  cases ms with
  | nil => exact stops_trailing hs hc x
  | cons y ms =>
    simp only [middleBytes, List.flatMap_cons, List.append_assoc]
    exact stops_spaces hs _

theorem Body.exists_params (body : Body) :
    ∃ ps, Message.zero.params.addAll (body.middles.map (·.2)) = some ps ∧
      ps.listed = body.middles.map (fun x => some x.2) ∧
      ps.length.toNat = body.middles.length := by
  obtain ⟨ps, hp, listed, len⟩ := Params.addAll_spec (p := Message.zero.params)
    (body.middles.map (·.2)) (by simpa using body.middles_length)
  exact ⟨ps, hp, by simp [listed], by simp [len]⟩

/-- From its command word on, a well-formed line is delivered piece for piece. -/
theorem Body.runs (cb : Callbacks) (g : Bool) (body : Body) {m : Message} {ps : Params}
    (al : List Bytes) (hp : m.params.addAll (body.middles.map (·.2)) = some ps)
    (hf : cb.has (target g body.command).signal = true) :
    ∃ e, Runs cb g ⟨.head, body.bytes, m, al⟩ (.ok e) ∧ e.code = 0 ∧ e.rest = [] ∧
      e.calls = [(target g body.command).invocation
        ((m.withParams ps).withTrailing? body.trailing)] := by
  have word := reach_word cb g al (m := m) body.command_mem
    (stops_middles (by decide) (by decide) body.middles body.trailing) hf
  obtain ⟨al₁, middles⟩ := reach_middles cb g (target g body.command)
    (al ++ (target g body.command).word?.toList) body.middles_mem
    (stops_trailing (by decide) (by decide) body.trailing) hp
  obtain ⟨al₂, trailing⟩ := reach_trailing cb g (target g body.command) al₁
    (v := [cr, lf]) (m := m.withParams ps)
    (fun b u e => by obtain rfl := (List.cons.inj e).1; decide) body.trailing_mem
  have crlf : Turn cb g ⟨.params (target g body.command), [cr, lf] ++ [],
      (m.withParams ps).withTrailing? body.trailing, al₂⟩ _ :=
    .crlf (mem_crlf.mpr (.inl rfl))
  exact ⟨_, Reaches.runs (word.trans (middles.trans trailing)) (.ret crlf), rfl, rfl, rfl⟩

theorem Origin.reach_source (cb : Callbacks) (g : Bool) (o : Origin) (v : Bytes) (m : Message)
    (al : List Bytes) :
    Reaches cb g ⟨.head, o.bytes ++ v, m, al⟩
      ⟨.prefixOpt, markedBytes '!' o.user ++ markedBytes '@' o.host ++ (spaces o.extra ++ v),
        m.withSource o.source, al ++ [o.source]⟩ := by
  have longest : ∀ x y, markedBytes '!' o.user ++ markedBytes '@' o.host ++
      (spaces o.extra ++ v) = x ++ y → x ≠ [] → o.source ++ x ∉ CqIrc.source.language := by
    intro x y e hx hmem
    obtain ⟨c, z, rfl⟩ := List.exists_cons_of_ne_nil hx
    obtain ⟨-, hs, hu, hh⟩ := source_within.mem hmem c (by simp)
    cases user : o.user with
    | some u =>
      rw [user] at e
      exact hu (List.cons.inj e).1.symm
    | none => cases host : o.host with
      | some h =>
        rw [user, host] at e
        exact hh (List.cons.inj e).1.symm
      | none =>
        rw [user, host] at e
        exact hs (List.cons.inj e).1.symm
  rw [Origin.bytes]
  simp only [List.cons_append, List.append_assoc] at longest ⊢
  exact .head .enterPrefix (.single (.source (mem_alt.mpr o.source_mem) longest))

theorem reach_spaces_head {cb : Callbacks} {g : Bool} (n : Nat) (v : Bytes) (m : Message)
    (al : List Bytes) : Reaches cb g ⟨.prefixOpt, spaces n ++ v, m, al⟩ ⟨.head, v, m, al⟩ := by
  refine .head .leavePrefix (Reaches.skips (List.replicate n sp) fun b hb => ?_)
  obtain rfl := List.eq_of_mem_replicate hb
  exact ⟨by decide, skip_head_space⟩

/-- A text without a byte cannot reach over the first occurrence of it. -/
theorem prefix_before {q j w : Bytes} {b : Byte} (h : q <+: j ++ b :: w) (hq : b ∉ q) :
    q <+: j := by
  obtain ⟨t, e⟩ := h
  rcases List.append_eq_append_iff.mp e with ⟨a, rfl, -⟩ | ⟨c, rfl, e'⟩
  · exact ⟨a, rfl⟩
  · cases c with
    | nil => simp
    | cons d c =>
      obtain rfl := (List.cons.inj e').1
      simp at hq

/-- Behind the source only the two quoted texts are rules: whatever stands there up to
the space, user and host stay as they are or become what is between the quotes. -/
theorem reach_options (cb : Callbacks) (g : Bool) (n : Nat) (v j : Bytes) (m : Message)
    (al : List Bytes) (hj : ∀ b ∈ j, inTable b = true ∧ b ≠ sp) :
    ∃ m' al', Reaches cb g ⟨.prefixOpt, j ++ (spaces n ++ v), m, al⟩ ⟨.head, v, m', al'⟩ ∧
      m'.params = m.params ∧ m'.trailing = m.trailing ∧ m'.pfx.source = m.pfx.source ∧
      (m'.pfx.user = m.pfx.user ∨ m'.pfx.user = some quotedUser.tail) ∧
      (m'.pfx.host = m.pfx.host ∨ m'.pfx.host = some quotedHost.tail) := by
  induction hk : j.length using Nat.strong_induction_on generalizing j m al with
  | _ k ih =>
    by_cases hu : quotedUser <+: j
    · obtain ⟨i, rfl⟩ := hu
      have shorter : i.length < k := by
        rw [← hk, List.length_append]
        exact Nat.lt_add_of_pos_left (by decide)
      obtain ⟨m', al', reach, hp, ht, hs, user, host⟩ := ih i.length shorter i
        (m.withUser quotedUser.tail) (al ++ [quotedUser.tail])
        (fun b hb => hj b (by simp [hb])) rfl
      refine ⟨m', al', ?_, hp, ht, hs, .inr (by rcases user with h | h <;> exact h), host⟩
      rw [List.append_assoc]
      exact .head .user reach
    by_cases hh : quotedHost <+: j
    · obtain ⟨i, rfl⟩ := hh
      have shorter : i.length < k := by
        rw [← hk, List.length_append]
        exact Nat.lt_add_of_pos_left (by decide)
      obtain ⟨m', al', reach, hp, ht, hs, user, host⟩ := ih i.length shorter i
        (m.withHost quotedHost.tail) (al ++ [quotedHost.tail])
        (fun b hb => hj b (by simp [hb])) rfl
      refine ⟨m', al', ?_, hp, ht, hs, user, .inr (by rcases host with h | h <;> exact h)⟩
      rw [List.append_assoc]
      exact .head .host reach
    cases j with
    | nil => exact ⟨m, al, reach_spaces_head n v m al, rfl, rfl, rfl, .inl rfl, .inl rfl⟩
    | cons b i =>
      obtain ⟨hb, hi⟩ := List.forall_mem_cons.mp hj
      rw [List.length_cons] at hk
      obtain ⟨m', al', reach, rest⟩ := ih i.length (by omega) i m al hi rfl
      refine ⟨m', al', .head (.skip hb.1 (.prefixOpt hb.2 ?_ ?_)) reach, rest⟩
      · exact fun h => hu (prefix_before (j := b :: i) h (by decide))
      · exact fun h => hh (prefix_before (j := b :: i) h (by decide))

end CqIrc
