import CqIrc.Generic
import CqIrc.Safety

/-! The columns of the generated tables and the bytes of the wire. A row has no column for
a byte from 0x80 on; which bytes of a line are looked up is known from the line alone. -/

namespace CqIrc
open Flex Flex.Pattern

/-- The bytes that the scanner looks up, while there is room for this many middles: those
up to the line end or the middle without room, and the one behind it. -/
def lookups : Mode → Nat → Bytes → Bytes
  | _, _, [] => []
  | q, room, b :: v =>
    match q.next b v with
    | none => (b :: v).take 3
    | some q' =>
      if q.counts b = 0 then b :: lookups q' room v
      else match room with
        | 0 => b :: (v.takeWhile middleChar ++ (v.dropWhile middleChar).take 1)
        | room + 1 => b :: lookups q' room v

section lookups
variable {q q' p : Mode} {room n : Nat} {a b : Byte} {w v : Bytes}

theorem lookups_pass (h : q.next b v = some q') (zero : q.counts b = 0) :
    lookups q room (b :: v) = b :: lookups q' room v := by
  rw [lookups]
  simp only [h, if_pos zero]

theorem lookups_count (h : q.next b v = some q') (one : q.counts b = 1) :
    lookups q (room + 1) (b :: v) = b :: lookups q' room v := by
  rw [lookups]
  simp only [h, if_neg (one ▸ Nat.one_ne_zero)]

theorem counts_cases (q : Mode) (b : Byte) : q.counts b = 0 ∨ q.counts b = 1 := by
  unfold Mode.counts
  split
  · exact .inr rfl
  · exact .inl rfl

theorem lookups_text (h : Stops trailingChar v) :
    lookups .text room v = lookups .params room v := by
  cases v with
  | nil => rfl
  | cons b v =>
    rw [lookups, lookups, next_text h]
    rfl

theorem lookups_path (h : Path Mode.middles q w v p n) (le : n ≤ room) :
    lookups q room (w ++ v) = w ++ lookups p (room - n) v := by
  induction h generalizing room with
  | refl => rfl
  | @step q q' p b w v n next _ ih =>
    rw [Mode.middles] at le ⊢
    rcases counts_cases q b with zero | one
    · rw [List.cons_append, lookups_pass next zero, ih (by omega), zero, Nat.zero_add]
      rfl
    · obtain ⟨room, rfl⟩ := Nat.exists_eq_add_of_le' (show 1 ≤ room by omega)
      rw [List.cons_append, lookups_count next one, ih (by omega), one]
      simp [Nat.add_comm 1]
  | close stop _ ih => rw [lookups_text stop, ih le]

theorem lookups_full (h : w ∈ middle.language) (stop : Stops middleChar v) :
    lookups .param 0 (w ++ v) = w ++ v.take 1 := by
  obtain ⟨b, t, rfl, hb, ht⟩ := mem_middle.mp h
  obtain ⟨no_colon, first⟩ := next_middle hb (t ++ v)
  have one : Mode.counts .param b = 1 := if_pos ⟨rfl, no_colon, hb⟩
  have text : (t ++ v).takeWhile middleChar = t ∧ (t ++ v).dropWhile middleChar = v := by
    rw [List.takeWhile_append_of_pos ht, List.dropWhile_append_of_pos ht]
    cases v with
    | nil => simp
    | cons c v => simp [stop c v rfl]
  rw [List.cons_append, lookups]
  simp only [first, if_neg (one ▸ Nat.one_ne_zero), text]
  rfl

theorem lookups_crlf (h : w ∈ crlf.language) :
    lookups .params room (w ++ v) = w ++ v.take 1 := by
  rcases mem_crlf.mp h with rfl | rfl <;> rfl

theorem mem_lookups_head : b ∈ lookups q room (b :: v) := by
  rw [lookups]
  split
  · simp
  · split
    · simp
    · split <;> simp

theorem mem_lookups_second (hb : inTable b = false) : b ∈ lookups q room (a :: b :: v) := by
  have stops : middleChar b = false := by simp [middleChar, negated, hb]
  rw [lookups]
  split
  · simp
  · split
    · exact List.mem_cons_of_mem a mem_lookups_head
    · split
      · simp [stops]
      · exact List.mem_cons_of_mem a mem_lookups_head

theorem mem_lookups_path (h : Path Mode.middles q w (b :: v) p n) (le : n ≤ room) :
    b ∈ lookups q room (w ++ b :: v) := by
  rw [lookups_path h le]
  exact List.mem_append_right w mem_lookups_head

end lookups

/-! A letter without a column behind a text that can still become a token. -/

/-- The texts of a phase that have more than one letter. -/
def Phase.LongText (w : Bytes) : Phase → Prop
  | head => w ∈ CqIrc.command.language
  | pfx => w ∈ source.language
  | prefixOpt => w = quotedUser ∨ w = quotedHost
  | params _ => w ∈ crlf.language
  | param _ => w ∈ middle.language
  | trailing _ => ∀ b ∈ w, trailingChar b = true

theorem longText_of_select {p : Phase} {g : Bool} {w : Bytes} {r : Rule}
    (h : select (rules (p.start g)) w = some r) (long : 2 ≤ w.length) : p.LongText w := by
  have single {b : Byte} : w ≠ [b] := fun e => by simp [e] at long
  have echo : w ∉ CqIrc.echo.2.language := fun e => by
    obtain ⟨b, -, e⟩ := mem_echo.mp e
    exact single e
  by_contra other
  cases p with
  | head =>
    simp only [Phase.LongText] at other
    cases g with
    | false =>
      rw [show Phase.start false .head = .initial from rfl, select_initial] at h
      simp [single, other, echo] at h
    | true =>
      rw [show Phase.start true .head = .genericInitial from rfl, select_genericInitial] at h
      simp [single, other, echo] at h
  | pfx =>
    simp only [Phase.LongText] at other
    rw [Phase.start, select_pfx] at h
    simp [other, echo] at h
  | prefixOpt =>
    obtain ⟨user, host⟩ := not_or.mp other
    rw [Phase.start, select_prefixOpt] at h
    simp [user, host, single, echo] at h
  | params t =>
    simp only [Phase.LongText] at other
    cases t with
    | event f =>
      rw [show Phase.start g (.params (.event f)) = .params from rfl, select_params] at h
      simp [single, other, echo] at h
    | extra word =>
      rw [show Phase.start g (.params (.extra word)) = .genericParams from rfl,
        select_genericParams] at h
      simp [single, other, echo] at h
  | param t =>
    simp only [Phase.LongText] at other
    rw [Phase.start, select_param] at h
    simp [other, single, echo] at h
  | trailing t =>
    simp only [Phase.LongText, ← mem_star_cls] at other
    rw [Phase.start, select_trailing] at h
    simp [other, echo] at h

theorem path_alnum {w : Bytes} (h : ∀ b ∈ w, alnum b = true) (v : Bytes) :
    ∃ p, Path Mode.middles .initial w v p 0 := by
  induction w with
  | nil => exact ⟨_, .refl⟩
  | cons b w ih =>
    obtain ⟨hb, hw⟩ := List.forall_mem_cons.mp h
    have no_colon : b ≠ colon := by
      rintro rfl
      exact absurd hb (by decide)
    cases starts : startsCommand (b :: (w ++ v)) with
    | true =>
      have first : Mode.next .initial b (w ++ v) = some .params := by
        simp [Mode.next, no_colon, starts]
      exact ⟨_, .pass first rfl (weighs_middles.path_plain fun c hc => plain_of_alnum (hw c hc))⟩
    | false =>
      have first : Mode.next .initial b (w ++ v) = some .initial := by
        simp [Mode.next, no_colon, starts]
      obtain ⟨p, path⟩ := ih hw
      exact ⟨p, .pass first rfl path⟩

/-- A byte without a column behind the beginning of a token is looked up. -/
theorem mem_lookups_of_live {p : Phase} {g : Bool} {room : Nat} {x y z : Bytes} {b : Byte}
    {r : Rule} (live : select (rules (p.start g)) (x ++ z) = some r) (hb : inTable b = false) :
    b ∈ lookups p.mode room (x ++ b :: y) := by
  rcases hx : x with _ | ⟨a, _ | ⟨c, u⟩⟩
  · exact mem_lookups_head
  · exact mem_lookups_second hb
  rw [← hx]
  have text := longText_of_select live (by simp [hx])
  have front {P : Byte → Prop} (all : ∀ d ∈ x ++ z, P d) : ∀ d ∈ x, P d :=
    fun d hd => all d (List.mem_append_left z hd)
  have ne : x ≠ [] := by simp [hx]
  cases p with
  | head =>
    obtain ⟨q, path⟩ := path_alnum (front (alnum_of_command text)) (b :: y)
    exact mem_lookups_path path (Nat.zero_le _)
  | pfx =>
    have letters := front (source_within.mem text)
    rw [hx] at text letters ⊢
    refine mem_lookups_path (.pass (next_source text _) rfl
      (weighs_middles.path_options fun d hd => ?_)) (Nat.zero_le _)
    exact (letters d (List.mem_cons_of_mem a hd)).2
  | prefixOpt =>
    have no_sp : sp ∉ x := fun inside => by
      have whole := List.mem_append_left z inside
      rcases text with same | same
      · exact absurd (same ▸ whole) (by decide)
      · exact absurd (same ▸ whole) (by decide)
    refine mem_lookups_path (.all (fun d hd u => ⟨next_prefixOpt ?_ u, rfl⟩) .refl) (Nat.zero_le _)
    exact fun space => no_sp (space ▸ hd)
  | params t =>
    -- a whole line end, and the byte behind it
    rw [hx] at text ⊢
    rcases mem_crlf.mp text with same | same
    · obtain ⟨rfl, rfl, rfl, -⟩ : a = cr ∧ c = lf ∧ u = [] ∧ z = [] := by simpa using same
      exact (by simp : b ∈ [cr, lf, b])
    · obtain ⟨rfl, rfl, rfl, -⟩ : a = lf ∧ c = cr ∧ u = [] ∧ z = [] := by simpa using same
      exact (by simp : b ∈ [lf, cr, b])
  | param t =>
    have stop : Stops middleChar (b :: y) := by
      rintro _ _ ⟨⟩
      simp [middleChar, negated, hb]
    have middle : x ∈ CqIrc.middle.language := by
      obtain ⟨d, t, whole, hd, ht⟩ := mem_middle.mp text
      rw [hx] at whole ⊢
      obtain ⟨rfl, rfl⟩ := List.cons.inj whole
      exact mem_middle.mpr ⟨a, c :: u, rfl, hd, fun e he => ht e (List.mem_append_left z he)⟩
    rcases Nat.eq_zero_or_pos room with rfl | pos
    · rw [Phase.mode, lookups_full middle stop]
      simp
    · exact mem_lookups_path (weighs_middles.path_middle middle) pos
  | trailing t =>
    have stop : Stops trailingChar (b :: y) := by
      rintro _ _ ⟨⟩
      simp [trailingChar, negated, hb]
    exact mem_lookups_path (weighs_middles.path_trailing ne (front text) stop) (Nat.zero_le _)

theorem Reaches.length_le_slots {cb : Callbacks} {g : Bool} {line : Bytes} {s : Scan}
    (h : Reaches cb g (Scan.begin line) s) : s.message.params.length.toNat ≤ 14 := by
  refine h.invariant (P := fun b => b.message.params.length.toNat ≤ 14) (by simp [Scan.begin])
    fun a b ha turn => ?_
  cases turn with
  | middle _ _ hp =>
    obtain ⟨room, len⟩ := Params.add_length hp
    simp only [Message.withParams, len]
    omega
  | _ => exact ha

def Scan.Clear (s : Scan) : Prop :=
  ∀ b ∈ lookups s.phase.mode (14 - s.message.params.length.toNat) s.input, inTable b = true

/-- No lookup of the run is for a byte without a column. -/
def StaysInTable (cb : Callbacks) (g : Bool) (line : Bytes) : Prop :=
  ∀ s, Steps cb (begin g line) s → s.input ≠ [] → munch inTable (rules s.start) s.input ≠ none

theorem run_last {cb : Callbacks} {n : Nat} {s : State} {r : Except Fault Exit}
    (h : run cb n s = some r) : ∃ s', Steps cb s s' ∧
      ((∃ e, r = .ok e ∧ step cb s' = .ret e) ∨ ∃ f, r = .error f ∧ step cb s' = .fault f) := by
  induction n generalizing s with
  | zero => cases h
  | succ n ih =>
    rw [run] at h
    cases hs : step cb s with
    | next s' =>
      rw [hs] at h
      obtain ⟨last, steps, he⟩ := ih h
      exact ⟨last, .head hs steps, he⟩
    | ret e =>
      rw [hs] at h
      exact ⟨s, .refl, .inl ⟨e, (Option.some.inj h).symm, hs⟩⟩
    | fault f =>
      rw [hs] at h
      exact ⟨s, .refl, .inr ⟨f, (Option.some.inj h).symm, hs⟩⟩

section runs
variable {cb : Callbacks} {g : Bool} {line : Bytes} {s s' : Scan}

theorem Turn.clear (h : Turn cb g s (.next s')) (slots : s'.message.params.length.toNat ≤ 14) :
    s'.Clear ↔ s.Clear := by
  obtain ⟨w, n, input, columns, path, length⟩ := h.path
  have room : 14 - s'.message.params.length.toNat =
      14 - s.message.params.length.toNat - n := by omega
  rw [Scan.Clear, Scan.Clear, input, lookups_path path (by omega), room, List.forall_mem_append]
  exact (and_iff_right columns).symm

theorem Reaches.clear (h : Reaches cb g (Scan.begin line) s) :
    s.Clear ↔ ∀ b ∈ lookups .initial 14 line, inTable b = true := by
  induction h with
  | refl => exact Iff.rfl
  | tail reach turn ih =>
    exact (turn.clear (Reaches.length_le_slots (reach.tail turn))).trans ih

theorem Token.column_behind {c : StartCondition} {r : Rule} {w v : Bytes} (token : Token c r w v)
    (stays : munch inTable (rules c) (w ++ v) ≠ none) : ∀ b ∈ v.take 1, inTable b = true := by
  cases v with
  | nil => simp
  | cons b v =>
    have selected : select (rules c) (w ++ []) = some r := by
      simpa using token.isMunch.first
    by_contra out
    have hb : inTable b = false := by simpa using out
    exact stays (munchFrom_behind selected hb 0 none)

theorem Turn.clear_of_last {res : Result} (h : Turn .full g s res) (last : ∀ s', res ≠ .next s')
    (stays : s.input ≠ [] → munch inTable (rules (s.phase.start g)) s.input ≠ none) :
    s.Clear := by
  cases h with
  | eof => simp [Scan.Clear, lookups]
  | outOfTable ne out => exact absurd out (stays ne)
  | missing _ hf => simp at hf
  | @crlf t w v m al hw =>
    obtain ⟨r, token⟩ : ∃ r, Token t.paramsStart r w v := by
      cases t with
      | event f => exact ⟨_, .crlf hw⟩
      | extra word => exact ⟨_, .genericCrlf hw⟩
    rw [Scan.Clear, Phase.mode, lookups_crlf hw]
    refine List.forall_mem_append.mpr ⟨?_, token.column_behind (stays (by simp [token.ne_nil]))⟩
    refine List.all_eq_true.mp (?_ : w.all inTable = true)
    rcases mem_crlf.mp hw with rfl | rfl <;> rfl
  | @overflow t w v m al hw stop full =>
    have token : Token .param .middle w v := .middle hw stop
    have room : 14 - m.params.length.toNat = 0 := by
      have none := Params.add_isSome (p := m.params) (x := w)
      rw [full] at none
      simp at none
      omega
    rw [Scan.Clear, room, Phase.mode, lookups_full hw stop]
    exact List.forall_mem_append.mpr
      ⟨middle_inTable hw, token.column_behind (stays (by simp [token.ne_nil]))⟩
  | _ => exact absurd rfl (last _)

theorem munch_of_clear (h : s.Clear) : munch inTable (rules (s.phase.start g)) s.input ≠ none := by
  intro out
  obtain ⟨x, b, y, z, r, input, hb, live⟩ := (munch_eq_none_iff (solid_rules _)).mp out
  have column : inTable b = true := h b (input ▸ mem_lookups_of_live live hb)
  rw [hb] at column
  cases column

/-- With the full table a scan stays in its tables exactly on the lines of which it looks up
bytes below 0x80. -/
theorem staysInTable_full_iff :
    StaysInTable .full g line ↔ ∀ b ∈ lookups .initial 14 line, b < 0x80 := by
  simp only [← inTable_iff]
  refine ⟨fun stays => ?_, fun clear s hs _ => ?_⟩
  · obtain ⟨r, hr, -⟩ := yylex_runs .full g line
    obtain ⟨s, hs, last⟩ := run_last hr
    obtain ⟨a, rfl, reach⟩ := reaches_of_begin hs
    obtain ⟨res, turn, out⟩ := step_turn .full g a
    refine reach.clear.mp (turn.clear_of_last (fun s' next => ?_) (stays _ hs))
    -- the run has ended here, so this turn leads to no other state
    rw [next] at out
    rcases last with ⟨e, -, ret⟩ | ⟨f, -, fault⟩
    · rw [ret] at out
      cases out
    · rw [fault] at out
      cases out
  · obtain ⟨a, rfl, reach⟩ := reaches_of_begin hs
    exact munch_of_clear (reach.clear.mpr clear)

theorem staysInTable_of_lookups (clear : ∀ b ∈ lookups .initial 14 line, b < 0x80) :
    StaysInTable cb g line := by
  intro s hs _
  obtain ⟨a, rfl, reach⟩ := reaches_of_begin hs
  exact munch_of_clear (reach.clear.mpr fun b hb => inTable_iff.mpr (clear b hb))

end runs

end CqIrc
