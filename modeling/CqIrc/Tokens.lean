import CqIrc.Flex.Pattern
import CqIrc.Message

/-! The definitions section of `irc-client.l`. The scanner is generated with
`-f` and without `-8`, so its alphabet is the 128 letters of seven bits: a
negated class is the complement inside that alphabet. -/

namespace CqIrc
open Flex Flex.Pattern

/-- Columns of a row of the generated table: `-f` is `-Cfr`, hence seven bits. -/
def csize : Nat := 128

def inTable (b : Byte) : Bool := b.toNat < csize

def negated (stops : Bytes) (b : Byte) : Bool := inTable b && !stops.contains b

def alpha (b : Byte) : Bool := (0x41 ≤ b && b ≤ 0x5A) || (0x61 ≤ b && b ≤ 0x7A)
def digit (b : Byte) : Bool := 0x30 ≤ b && b ≤ 0x39
def alnum (b : Byte) : Bool := alpha b || digit b

def special (b : Byte) : Bool := (0x5B ≤ b && b ≤ 0x60) || (0x7B ≤ b && b ≤ 0x7D)

def chr (c : Char) (b : Byte) : Bool := b == UInt8.ofNat c.toNat

def toLower (b : Byte) : Byte := if 0x41 ≤ b && b ≤ 0x5A then b + 0x20 else b

/-- A string in double quotes is matched letter by letter, whatever it holds. -/
def quoted (text : List Char) : Pattern Byte := word (text.map chr)

/-- `(?i:"...")`. -/
def anyCase (text : List Char) : Pattern Byte :=
  word ((ascii text).map fun c b => toLower b == toLower c)

def hostchar : Pattern Byte := alt (alt (quoted ['_']) (quoted ['/'])) (cls alnum)

def command : Pattern Byte := alt (plus (cls alpha)) (rep (cls digit) 3)

def user : Pattern Byte := plus (cls (negated (ascii ['\x00', '\r', '\n', ' ', '@'])))

def nickname : Pattern Byte :=
  seq (alt (cls alpha) (cls special))
    (upTo (star (alt (alt (cls alnum) (cls special)) (cls (chr '-')))) 8)

def shortname : Pattern Byte :=
  seq (cls alnum) (seq (star (alt (cls alnum) (cls (chr '-')))) (star (cls alnum)))

def host : Pattern Byte :=
  seq hostchar (star (alt (alt (alt hostchar (cls (chr '-'))) (cls (chr '.'))) (cls (chr ':'))))

def hostname : Pattern Byte := seq shortname (star (seq (cls (chr '.')) shortname))

def servername : Pattern Byte := hostname

def middleStart : Byte → Bool := negated (ascii [':', '\x00', '\r', '\n', ' '])
def middleChar : Byte → Bool := negated (ascii [' ', '\x00', '\r', '\n'])

def middle : Pattern Byte := seq (cls middleStart) (star (cls middleChar))

def crlf : Pattern Byte :=
  alt (seq (cls (chr '\r')) (cls (chr '\n'))) (seq (cls (chr '\n')) (cls (chr '\r')))

def nicknameStart (b : Byte) : Bool := alpha b || special b
def nicknameChar (b : Byte) : Bool := (alnum b || special b) || chr '-' b
def servernameChar (b : Byte) : Bool := alnum b || chr '-' b || chr '.' b

theorem language_alt_cls {p q : Pattern Byte} {f g : Byte → Bool}
    (hp : p.language = (cls f).language) (hq : q.language = (cls g).language) :
    (alt p q).language = (cls fun b => f b || g b).language := by
  ext w
  simp only [mem_alt, hp, hq, mem_cls, Bool.or_eq_true]
  constructor
  · rintro (⟨a, h, rfl⟩ | ⟨a, h, rfl⟩)
    · exact ⟨a, .inl h, rfl⟩
    · exact ⟨a, .inr h, rfl⟩
  · rintro ⟨a, h | h, rfl⟩
    · exact .inl ⟨a, h, rfl⟩
    · exact .inr ⟨a, h, rfl⟩

theorem language_star_cls {p : Pattern Byte} {f : Byte → Bool}
    (hp : p.language = (cls f).language) : (star p).language = (star (cls f)).language :=
  congrArg KStar.kstar hp

theorem mem_anyCase {text : List Char} {w : Bytes} :
    w ∈ (anyCase text).language ↔ w.map toLower = (ascii text).map toLower := by
  rw [anyCase, mem_word, List.forall₂_map_left_iff, ← List.forall₂_eq_eq_eq,
    List.forall₂_map_left_iff, List.forall₂_map_right_iff]
  constructor
  · exact fun h => h.flip.imp fun _ _ e => by simpa using e
  · exact fun h => h.flip.imp fun _ _ e => by simpa [flip] using e

theorem mem_quoted {text : List Char} {w : Bytes} :
    w ∈ (quoted text).language ↔ w = ascii text := by
  rw [quoted, mem_word, List.forall₂_map_left_iff, ascii, ← List.forall₂_eq_eq_eq,
    List.forall₂_map_right_iff]
  constructor
  · exact fun h => h.flip.imp fun _ _ e => by simpa [flip, chr] using e
  · exact fun h => h.flip.imp fun _ _ e => by simpa [flip, chr] using e

theorem mem_command {w : Bytes} :
    w ∈ command.language ↔ (w ≠ [] ∧ ∀ b ∈ w, alpha b = true) ∨
      (w.length = 3 ∧ ∀ b ∈ w, digit b = true) := by
  rw [command, mem_alt, mem_plus_cls, mem_rep_cls]

theorem mem_user {w : Bytes} :
    w ∈ user.language ↔ w ≠ [] ∧ ∀ b ∈ w, negated (ascii ['\x00', '\r', '\n', ' ', '@']) b = true :=
  mem_plus_cls

theorem mem_nickname {w : Bytes} :
    w ∈ nickname.language ↔
      ∃ b t, w = b :: t ∧ nicknameStart b = true ∧ ∀ c ∈ t, nicknameChar c = true := by
  have tail (t : Bytes) :
      t ∈ (upTo (star (alt (alt (cls alnum) (cls special)) (cls (chr '-')))) 8).language ↔
        ∀ c ∈ t, nicknameChar c = true := by
    rw [language_upTo_star,
      language_star_cls (language_alt_cls (language_alt_cls rfl rfl) rfl), mem_star_cls]
    rfl
  rw [nickname, mem_seq]
  constructor
  · rintro ⟨u, hu, t, ht, rfl⟩
    obtain ⟨b, hb, rfl⟩ := mem_cls.mp (language_alt_cls rfl rfl ▸ hu)
    exact ⟨b, t, rfl, hb, (tail t).mp ht⟩
  · rintro ⟨b, t, rfl, hb, ht⟩
    refine ⟨[b], ?_, t, (tail t).mpr ht, rfl⟩
    rw [language_alt_cls rfl rfl]
    exact mem_cls.mpr ⟨b, hb, rfl⟩

theorem mem_shortname {w : Bytes} (h : w ∈ shortname.language) :
    (∃ b t, w = b :: t ∧ alnum b = true) ∧ ∀ c ∈ w, servernameChar c = true := by
  rw [shortname, mem_cls_seq] at h
  obtain ⟨b, v, rfl, hb, hv⟩ := h
  rw [mem_seq, language_star_cls (language_alt_cls rfl rfl)] at hv
  obtain ⟨x, hx, y, hy, rfl⟩ := hv
  rw [mem_star_cls] at hx hy
  refine ⟨⟨b, _, rfl, hb⟩, List.forall_mem_cons.mpr ⟨by simp [servernameChar, hb], ?_⟩⟩
  intro c hc
  rcases List.mem_append.mp hc with hc | hc
  · simp [servernameChar, hx c hc]
  · simp [servernameChar, hy c hc]

theorem mem_servername {w : Bytes} (h : w ∈ servername.language) :
    (∃ b t, w = b :: t ∧ alnum b = true) ∧ ∀ c ∈ w, servernameChar c = true := by
  rw [servername, hostname, mem_seq] at h
  obtain ⟨u, hu, v, hv, rfl⟩ := h
  obtain ⟨⟨b, t, rfl, hb⟩, hall⟩ := mem_shortname hu
  refine ⟨⟨b, t ++ v, rfl, hb⟩, fun c hc => ?_⟩
  rcases List.mem_append.mp hc with hc | hc
  · exact hall c hc
  · obtain ⟨ws, rfl, hws⟩ := Language.mem_kstar.mp hv
    obtain ⟨y, hy, hcy⟩ := List.mem_flatten.mp hc
    obtain ⟨d, z, rfl, hd, hz⟩ := mem_cls_seq.mp (hws y hy)
    rcases List.mem_cons.mp hcy with rfl | hcz
    · simp [servernameChar, hd]
    · exact (mem_shortname hz).2 c hcz

theorem singleton_mem_servername {b : Byte} (h : alnum b = true) :
    [b] ∈ servername.language := by
  have short : [b] ∈ shortname.language := by
    refine mem_cls_seq.mpr ⟨b, [], rfl, h, mem_seq.mpr ⟨[], ?_, [], ?_, rfl⟩⟩ <;>
      exact Language.nil_mem_kstar _
  exact mem_seq.mpr ⟨[b], short, [], Language.nil_mem_kstar _, by simp⟩

theorem mem_middle {w : Bytes} :
    w ∈ middle.language ↔
      ∃ b t, w = b :: t ∧ middleStart b = true ∧ ∀ c ∈ t, middleChar c = true :=
  mem_cls_seq_star

theorem mem_crlf {w : Bytes} : w ∈ crlf.language ↔ w = [cr, lf] ∨ w = [lf, cr] := by
  simp [crlf, mem_alt, mem_cls_seq, mem_cls, chr, cr, lf]

theorem inTable_iff {b : Byte} : inTable b = true ↔ b < 0x80 := by
  rw [inTable, decide_eq_true_eq, UInt8.lt_iff_toNat_lt]
  rfl

theorem alnum_inTable {b : Byte} (h : alnum b = true) : inTable b = true := by
  grind [alnum, alpha, digit, inTable_iff]

theorem alnum_of_command {w : Bytes} (h : w ∈ command.language) : ∀ b ∈ w, alnum b = true := by
  rcases mem_command.mp h with ⟨-, hw⟩ | ⟨-, hw⟩
  · exact fun b hb => by simp [alnum, hw b hb]
  · exact fun b hb => by simp [alnum, hw b hb]

theorem command_inTable {w : Bytes} (h : w ∈ command.language) : ∀ b ∈ w, inTable b = true :=
  fun b hb => alnum_inTable (alnum_of_command h b hb)

theorem negated_iff {stops : Bytes} {b : Byte} :
    negated stops b = true ↔ inTable b = true ∧ b ∉ stops := by
  simp [negated]

theorem inTable_of_negated {stops : Bytes} {b : Byte} (h : negated stops b = true) :
    inTable b = true := (negated_iff.mp h).1

/-- The letters of a source: no column is missing and no delimiter is among them. -/
def sourceLetter (b : Byte) : Prop :=
  inTable b = true ∧ b ≠ sp ∧ b ≠ UInt8.ofNat '!'.toNat ∧ b ≠ UInt8.ofNat '@'.toNat

theorem sourceLetter_of_class {b : Byte}
    (h : (alnum b || special b || chr '-' b || chr '.' b) = true) : sourceLetter b := by
  have hb : inTable b = true := by
    grind [alnum, alpha, digit, special, chr, inTable_iff]
  refine ⟨hb, ?_⟩
  grind [alnum, alpha, digit, special, chr, sp]

theorem source_of_letters {P : Byte → Prop}
    (h : ∀ b, (alnum b || special b || chr '-' b || chr '.' b) = true → P b) :
    (alt nickname servername).Within P := by
  have ha : (cls alpha).Within P := fun b hb => h b (by simp [alnum, hb])
  have hn : (cls alnum).Within P := fun b hb => h b (by simp [hb])
  have hs : (cls special).Within P := fun b hb => h b (by simp [hb])
  have hd : (cls (chr '-')).Within P := fun b hb => h b (by simp [hb])
  have hp : (cls (chr '.')).Within P := fun b hb => h b (by simp [hb])
  have short : shortname.Within P := ⟨hn, ⟨hn, hd⟩, hn⟩
  have many (n : Nat) (p : Pattern Byte) (hp : p.Within P) : (upTo p n).Within P := by
    induction n with
    | zero => trivial
    | succ n ih => exact ⟨trivial, hp, ih⟩
  exact ⟨⟨⟨ha, hs⟩, many 8 _ ⟨⟨hn, hs⟩, hd⟩⟩, short, hp, short⟩

theorem source_within : (alt nickname servername).Within sourceLetter :=
  source_of_letters fun _ => sourceLetter_of_class

/-- The letters of a host; none is a brace. -/
def hostLetter (b : Byte) : Prop :=
  inTable b = true ∧ b ≠ sp ∧ b ≠ UInt8.ofNat '{'.toNat

theorem host_of_letters {P : Byte → Prop} (hn : ∀ b, alnum b = true → P b)
    (marks : ∀ c ∈ ['_', '/', '-', '.', ':'], P (UInt8.ofNat c.toNat)) : host.Within P := by
  have mark {c : Char} (hc : c ∈ ['_', '/', '-', '.', ':']) : (cls (chr c)).Within P :=
    fun b hb => (beq_iff_eq.mp hb : b = _) ▸ marks c hc
  have letter : hostchar.Within P := ⟨⟨⟨mark (by decide), trivial⟩, mark (by decide), trivial⟩, hn⟩
  exact ⟨letter, ⟨⟨letter, mark (by decide)⟩, mark (by decide)⟩, mark (by decide)⟩

theorem host_within : host.Within hostLetter := by
  refine host_of_letters (fun b hb => ⟨alnum_inTable hb, ?_, ?_⟩) ?_
  · grind [alnum, alpha, digit, sp]
  · grind [alnum, alpha, digit]
  · simp [hostLetter]
    decide

end CqIrc
