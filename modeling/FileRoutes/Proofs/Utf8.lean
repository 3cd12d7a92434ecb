import FileRoutes.Text.Utf8
import Mathlib

/-! Bytes that are a text. A character is spelled by one to four bytes in one way only. The machine
that reads bytes takes each spelling for its character and fails on anything else, so it reads a
text from some bytes exactly if they are what encodes this text. -/

namespace FileRoutes.Utf8

/-- A byte behind the first of a character. -/
def IsTail (b : UInt8) : Prop :=
  0x80 ≤ b.toNat ∧ b.toNat ≤ 0xBF

/-- The bytes that spell the character of a number: as few as there can be, and none for a
surrogate. -/
inductive Spells : Bytes → Nat → Prop where
  | one {a : UInt8} (ha : a.toNat < 0x80) : Spells [a] a.toNat
  | two {a b : UInt8} (ha : 0xC2 ≤ a.toNat) (ha' : a.toNat < 0xE0) (hb : IsTail b) :
    Spells [a, b] ((a.toNat - 0xC0) * 64 + (b.toNat - 0x80))
  | three {a b c : UInt8} (ha : 0xE0 ≤ a.toNat) (ha' : a.toNat < 0xF0) (hb : IsTail b)
    (hc : IsTail c) (hshort : a.toNat = 0xE0 → 0xA0 ≤ b.toNat)
    (hsurrogate : a.toNat = 0xED → b.toNat ≤ 0x9F) :
    Spells [a, b, c] (((a.toNat - 0xE0) * 64 + (b.toNat - 0x80)) * 64 + (c.toNat - 0x80))
  | four {a b c d : UInt8} (ha : 0xF0 ≤ a.toNat) (ha' : a.toNat < 0xF5) (hb : IsTail b)
    (hc : IsTail c) (hd : IsTail d) (hshort : a.toNat = 0xF0 → 0x90 ≤ b.toNat)
    (hlast : a.toNat = 0xF4 → b.toNat ≤ 0x8F) :
    Spells [a, b, c, d]
      ((((a.toNat - 0xF0) * 64 + (b.toNat - 0x80)) * 64 + (c.toNat - 0x80)) * 64 +
        (d.toNat - 0x80))

theorem toNat_ofNat {n : Nat} (h : n < 0xD800 ∨ 0xDFFF < n ∧ n < 0x110000) :
    (Char.ofNat n).toNat = n := by
  have hvalid : n.isValidChar := h
  rw [Char.toNat_ofNat, if_pos hvalid]

theorem ofNat_eq {n : Nat} (b : UInt8) (h : n = b.toNat) : UInt8.ofNat n = b := by
  rw [h, UInt8.ofNat_toNat]

/-- Bytes that spell a character are those that encode it. -/
theorem Spells.encodeChar {bytes : Bytes} {n : Nat} (h : Spells bytes n) :
    encodeChar (Char.ofNat n) = bytes := by
  cases h with
  | @one a ha =>
    rw [Utf8.encodeChar, toNat_ofNat (by omega), if_pos ha, UInt8.ofNat_toNat]
  | @two a b ha ha' hb =>
    obtain ⟨hb, hb'⟩ := hb
    simp only [Utf8.encodeChar]
    rw [toNat_ofNat (by omega), if_neg (by omega), if_pos (by omega), ofNat_eq a (by omega),
      ofNat_eq b (by omega)]
  | @three a b c ha ha' hb hc hshort hsurrogate =>
    obtain ⟨⟨hb, hb'⟩, hc, hc'⟩ := And.intro hb hc
    simp only [Utf8.encodeChar]
    rw [toNat_ofNat (by omega), if_neg (by omega), if_neg (by omega), if_pos (by omega),
      ofNat_eq a (by omega), ofNat_eq b (by omega), ofNat_eq c (by omega)]
  | @four a b c d ha ha' hb hc hd hshort hlast =>
    obtain ⟨⟨hb, hb'⟩, ⟨hc, hc'⟩, hd, hd'⟩ := And.intro hb (And.intro hc hd)
    simp only [Utf8.encodeChar]
    rw [toNat_ofNat (by omega), if_neg (by omega), if_neg (by omega), if_neg (by omega),
      ofNat_eq a (by omega), ofNat_eq b (by omega), ofNat_eq c (by omega),
      ofNat_eq d (by omega)]

theorem exists_byte (n : Nat) (h : n < 256) : ∃ b : UInt8, UInt8.ofNat n = b ∧ b.toNat = n :=
  ⟨UInt8.ofNat n, rfl, by simp; omega⟩

theorem spells_encodeChar (c : Char) : Spells (encodeChar c) c.toNat := by
  have hvalid : c.toNat < 0xD800 ∨ 0xDFFF < c.toNat ∧ c.toNat < 0x110000 := c.valid
  simp only [encodeChar]
  generalize c.toNat = n at hvalid
  obtain ⟨last, hlast, hlast'⟩ := exists_byte (0x80 + n % 64) (by omega)
  obtain ⟨third, hthird, hthird'⟩ := exists_byte (0x80 + n / 64 % 64) (by omega)
  obtain ⟨second, hsecond, hsecond'⟩ := exists_byte (0x80 + n / 4096 % 64) (by omega)
  rw [hlast, hthird, hsecond]
  split
  · obtain ⟨a, ha, ha'⟩ := exists_byte n (by omega)
    rw [ha, ← ha']
    exact .one (by omega)
  split
  · obtain ⟨a, ha, ha'⟩ := exists_byte (0xC0 + n / 64) (by omega)
    have hn : n = (a.toNat - 0xC0) * 64 + (last.toNat - 0x80) := by omega
    rw [ha, hn]
    exact .two (by omega) (by omega) ⟨by omega, by omega⟩
  split
  · obtain ⟨a, ha, ha'⟩ := exists_byte (0xE0 + n / 4096) (by omega)
    have hn : n = ((a.toNat - 0xE0) * 64 + (third.toNat - 0x80)) * 64 + (last.toNat - 0x80) := by
      omega
    rw [ha, hn]
    exact .three (by omega) (by omega) ⟨by omega, by omega⟩ ⟨by omega, by omega⟩ (by omega)
      (by omega)
  · obtain ⟨a, ha, ha'⟩ := exists_byte (0xF0 + n / 262144) (by omega)
    have hn : n = (((a.toNat - 0xF0) * 64 + (second.toNat - 0x80)) * 64 +
        (third.toNat - 0x80)) * 64 + (last.toNat - 0x80) := by
      omega
    rw [ha, hn]
    exact .four (by omega) (by omega) ⟨by omega, by omega⟩ ⟨by omega, by omega⟩
      ⟨by omega, by omega⟩ (by omega) (by omega)

/-- The text that is read from bytes behind a character begun. -/
def readFrom (state : Option Pending) (bytes : Bytes) : Option Text :=
  (chunksFrom state bytes).mapM Chunk.char?

variable {p : Pending} {b : UInt8} {rest : Bytes} {t : Text}

theorem readFrom_cons (state : Option Pending) (b : UInt8) (rest : Bytes) :
    readFrom state (b :: rest) = ((step state b).1.mapM Chunk.char?).bind fun first =>
      (readFrom (step state b).2 rest).map (first ++ ·) := by
  simp only [readFrom, chunksFrom, List.mapM_append, Option.map_eq_bind, Function.comp_def]
  rfl

theorem readFrom_start (b : UInt8) (rest : Bytes) :
    readFrom none (b :: rest) = ((start b).1.mapM Chunk.char?).bind fun first =>
      (readFrom (start b).2 rest).map (first ++ ·) := by
  rw [readFrom_cons, step]

/-- Behind a character begun, reading goes on with a byte in the range of the next one. -/
theorem readFrom_some_iff {bytes : Bytes} : readFrom (some p) bytes = some t ↔
    ∃ b rest, bytes = b :: rest ∧ (p.low ≤ b.toNat ∧ b.toNat ≤ p.high) ∧
      if p.owed ≤ 1 then
        ∃ more, readFrom none rest = some more ∧
          Char.ofNat (p.bits * 64 + (b.toNat - 0x80)) :: more = t
      else readFrom (some ⟨p.seen ++ [b], p.bits * 64 + (b.toNat - 0x80), p.owed - 1, 0x80, 0xBF⟩)
        rest = some t := by
  cases bytes with
  | nil => simp [readFrom, chunksFrom, Chunk.char?]
  | cons b rest =>
    rw [readFrom_cons]
    by_cases hrange : p.low ≤ b.toNat ∧ b.toNat ≤ p.high
    · by_cases howed : p.owed ≤ 1 <;> simp [step, hrange, howed, Chunk.char?]
    · simp [step, hrange, Chunk.char?]

theorem start_two {a : UInt8} (ha : 0xC2 ≤ a.toNat) (ha' : a.toNat < 0xE0) :
    start a = ([], some ⟨[a], a.toNat - 0xC0, 1, 0x80, 0xBF⟩) := by
  simp only [start]
  rw [if_neg (by omega), if_neg (by omega), if_pos ha']

theorem start_three {a : UInt8} (ha : 0xE0 ≤ a.toNat) (ha' : a.toNat < 0xF0) :
    start a = ([], some ⟨[a], a.toNat - 0xE0, 2, if a.toNat = 0xE0 then 0xA0 else 0x80,
      if a.toNat = 0xED then 0x9F else 0xBF⟩) := by
  simp only [start]
  rw [if_neg (by omega), if_neg (by omega), if_neg (by omega), if_pos ha']

theorem start_four {a : UInt8} (ha : 0xF0 ≤ a.toNat) (ha' : a.toNat < 0xF5) :
    start a = ([], some ⟨[a], a.toNat - 0xF0, 3, if a.toNat = 0xF0 then 0x90 else 0x80,
      if a.toNat = 0xF4 then 0x8F else 0xBF⟩) := by
  simp only [start]
  rw [if_neg (by omega), if_neg (by omega), if_neg (by omega), if_neg (by omega), if_pos ha']

theorem start_broken {a : UInt8}
    (ha : 0x80 ≤ a.toNat ∧ a.toNat < 0xC2 ∨ 0xF5 ≤ a.toNat) : start a = ([.broken [a]], none) := by
  simp only [start]
  rcases ha with ⟨ha, ha'⟩ | ha
  · rw [if_neg (by omega), if_pos ha']
  · rw [if_neg (by omega), if_neg (by omega), if_neg (by omega), if_neg (by omega),
      if_neg (by omega)]

/-- The range of a second byte is that of all further ones, narrowed behind some first bytes. -/
theorem inRange_iff {short last : Prop} [Decidable short] [Decidable last] {low high : Nat}
    (hlow : 0x80 ≤ low) (hhigh : high ≤ 0xBF) :
    ((if short then low else 0x80) ≤ b.toNat ∧ b.toNat ≤ if last then high else 0xBF) ↔
      IsTail b ∧ (short → low ≤ b.toNat) ∧ (last → b.toNat ≤ high) := by
  unfold IsTail
  by_cases hshort : short <;> by_cases hlast : last <;> simp [hshort, hlast] <;> omega

theorem readFrom_spells {bytes : Bytes} {n : Nat} (h : Spells bytes n) (rest : Bytes) :
    readFrom none (bytes ++ rest) = (readFrom none rest).map (Char.ofNat n :: ·) := by
  ext t
  cases h with
  | @one a ha => simp [readFrom_start, start, ha, Chunk.char?]
  | @two a b ha ha' hb =>
    simp [readFrom_start, start_two ha ha', readFrom_some_iff, hb.1, hb.2]
  | @three a b c ha ha' hb hc hshort hsurrogate =>
    obtain ⟨hlow, hhigh⟩ := (inRange_iff (by decide) (by decide)).2 ⟨hb, hshort, hsurrogate⟩
    simp [readFrom_start, start_three ha ha', readFrom_some_iff, hlow, hhigh, hc.1, hc.2]
  | @four a b c d ha ha' hb hc hd hshort hlast =>
    obtain ⟨hlow, hhigh⟩ := (inRange_iff (by decide) (by decide)).2 ⟨hb, hshort, hlast⟩
    simp [readFrom_start, start_four ha ha', readFrom_some_iff, hlow, hhigh, hc.1, hc.2, hd.1, hd.2]

/-- What is read begins with a character that is spelled. -/
theorem exists_spells_of_readFrom {a : UInt8} {rest : Bytes}
    (h : readFrom none (a :: rest) = some t) :
    ∃ bytes n more text, a :: rest = bytes ++ more ∧ Spells bytes n ∧
      readFrom none more = some text ∧ Char.ofNat n :: text = t := by
  rw [readFrom_start] at h
  by_cases hone : a.toNat < 0x80
  · obtain ⟨text, htext, rfl⟩ : ∃ text, readFrom none rest = some text ∧
        Char.ofNat a.toNat :: text = t := by
      simpa [start, hone, Chunk.char?] using h
    exact ⟨_, _, rest, text, rfl, .one hone, htext, rfl⟩
  by_cases hbroken : a.toNat < 0xC2 ∨ 0xF5 ≤ a.toNat
  · simp [start_broken (a := a) (by omega), Chunk.char?] at h
  by_cases htwo : a.toNat < 0xE0
  · rw [start_two (by omega) htwo] at h
    obtain ⟨b, more, rfl, hb, text, htext, rfl⟩ := readFrom_some_iff.1 (by simpa using h)
    exact ⟨_, _, more, text, rfl, .two (by omega) htwo hb, htext, rfl⟩
  by_cases hthree : a.toNat < 0xF0
  · rw [start_three (by omega) hthree] at h
    obtain ⟨b, _, rfl, hb, h⟩ := readFrom_some_iff.1 (by simpa using h)
    obtain ⟨c, more, rfl, hc, text, htext, rfl⟩ := readFrom_some_iff.1 h
    obtain ⟨hb, hshort, hsurrogate⟩ := (inRange_iff (by decide) (by decide)).1 hb
    exact ⟨_, _, more, text, rfl, .three (by omega) hthree hb hc hshort hsurrogate, htext, rfl⟩
  · rw [start_four (by omega) (by omega)] at h
    obtain ⟨b, _, rfl, hb, h⟩ := readFrom_some_iff.1 (by simpa using h)
    obtain ⟨c, _, rfl, hc, h⟩ := readFrom_some_iff.1 h
    obtain ⟨d, more, rfl, hd, text, htext, rfl⟩ := readFrom_some_iff.1 h
    obtain ⟨hb, hshort, hlast⟩ := (inRange_iff (by decide) (by decide)).1 hb
    exact ⟨_, _, more, text, rfl, .four (by omega) (by omega) hb hc hd hshort hlast, htext, rfl⟩

theorem decode?_encode (t : Text) : decode? (encode t) = some t := by
  induction t with
  | nil => rfl
  | cons c t ih =>
    have hread := readFrom_spells (spells_encodeChar c) (encode t)
    rw [Char.ofNat_toNat] at hread
    have hrest : readFrom none (encode t) = some t := ih
    rw [hrest, Option.map_some] at hread
    exact hread

theorem encode_of_decode? {bytes : Bytes} (h : decode? bytes = some t) : encode t = bytes := by
  induction t generalizing bytes with
  | nil =>
    cases bytes with
    | nil => rfl
    | cons b rest =>
      obtain ⟨_, _, _, _, -, -, -, hnil⟩ := exists_spells_of_readFrom h
      cases hnil
  | cons c t ih =>
    cases bytes with
    | nil => cases h
    | cons b rest =>
      obtain ⟨first, n, more, text, hsplit, hspells, hmore, htext⟩ := exists_spells_of_readFrom h
      obtain ⟨rfl, rfl⟩ := List.cons.inj htext
      rw [hsplit, ← ih hmore, encode, List.flatMap_cons, hspells.encodeChar]
      rfl

/-- Bytes are read as a text exactly if they are what encodes it. -/
theorem decode?_eq_some_iff {bytes : Bytes} : decode? bytes = some t ↔ encode t = bytes := by
  constructor
  · exact encode_of_decode?
  · rintro rfl
    exact decode?_encode t

theorem mapM_decode?_eq_some_iff {names : List Bytes} {texts : List Text} :
    names.mapM decode? = some texts ↔ texts.map encode = names := by
  induction names generalizing texts with
  | nil => simp [eq_comm]
  | cons name names ih =>
    simp only [List.mapM_cons, Option.pure_def, Option.bind_eq_bind, Option.bind_eq_some_iff,
      decode?_eq_some_iff, ih, Option.some.injEq, List.map_eq_cons_iff]
    constructor
    · rintro ⟨text, htext, texts, htexts, rfl⟩
      exact ⟨text, texts, rfl, htext, htexts⟩
    · rintro ⟨text, texts, rfl, htext, htexts⟩
      exact ⟨text, htext, texts, htexts, rfl⟩

end FileRoutes.Utf8
