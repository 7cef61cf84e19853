/-
Diary/Utf8.lean

UTF-8 read with replacement, one byte after another: a byte that cannot go
on with the character begun ends it, and one U+FFFD stands for what was read
of it.

`decode_encode` says that what encodes characters is read as them;
`encode_decode_iff` that nothing else is written back as it was.
-/
import Mathlib

namespace Utf8

/-! ### The decoder -/

/-- A character that has begun: its bits so far, how many bytes it still
needs, and between which bounds the next one lies. -/
structure Pending where
  codePoint : ℕ
  needed : ℕ
  lower : ℕ
  upper : ℕ
deriving DecidableEq

/-- U+FFFD. -/
def replacement : Char := '\uFFFD'

/-- The first byte of a character: it is one, or begins one. -/
def lead (b : ℕ) : Char ⊕ Pending :=
  if b ≤ 0x7F then .inl (Char.ofNat b)
  else if 0xC2 ≤ b ∧ b ≤ 0xDF then .inr ⟨b - 0xC0, 1, 0x80, 0xBF⟩
  else if 0xE0 ≤ b ∧ b ≤ 0xEF then
    -- no overlong forms, no surrogates
    .inr ⟨b - 0xE0, 2, if b = 0xE0 then 0xA0 else 0x80, if b = 0xED then 0x9F else 0xBF⟩
  else if 0xF0 ≤ b ∧ b ≤ 0xF4 then
    .inr ⟨b - 0xF0, 3, if b = 0xF0 then 0x90 else 0x80, if b = 0xF4 then 0x8F else 0xBF⟩
  else .inl replacement

/-- The characters a first byte gives, and what is pending behind it. -/
def begin (b : ℕ) : List Char × Option Pending :=
  match lead b with
  | .inl c => ([c], none)
  | .inr p => ([], some p)

/-- A byte behind what is pending. -/
def step : Option Pending → ℕ → List Char × Option Pending
  | none, b => begin b
  | some p, b =>
      if p.lower ≤ b ∧ b ≤ p.upper then
        let codePoint := p.codePoint * 64 + (b - 0x80)
        if p.needed = 1 then ([Char.ofNat codePoint], none)
        else ([], some ⟨codePoint, p.needed - 1, 0x80, 0xBF⟩)
      else (replacement :: (begin b).1, (begin b).2)

/-- The characters of the bytes to come. -/
def decodeFrom : Option Pending → List UInt8 → List Char
  | none, [] => []
  | some _, [] => [replacement]
  | p, b :: s => (step p b.toNat).1 ++ decodeFrom (step p b.toNat).2 s

/-- The characters of a list of bytes. -/
def decode (s : List UInt8) : List Char := decodeFrom none s

theorem decodeFrom_cons (p : Option Pending) (b : UInt8) (s : List UInt8) :
    decodeFrom p (b :: s) = (step p b.toNat).1 ++ decodeFrom (step p b.toNat).2 s := by
  cases p <;> rfl

/-! ### One character -/

theorem decodeFrom_of_lead {b : UInt8} {p : Pending} (h : lead b.toNat = .inr p)
    (s : List UInt8) : decodeFrom none (b :: s) = decodeFrom (some p) s := by
  rw [decodeFrom_cons, step, begin, h]
  rfl

theorem decodeFrom_of_last {b : UInt8} {p : Pending} (hlo : p.lower ≤ b.toNat)
    (hhi : b.toNat ≤ p.upper) (hneeded : p.needed = 1) {c : Char}
    (hc : p.codePoint * 64 + (b.toNat - 0x80) = c.toNat) (s : List UInt8) :
    decodeFrom (some p) (b :: s) = c :: decodeFrom none s := by
  rw [decodeFrom_cons, step, if_pos ⟨hlo, hhi⟩]
  simp only [hneeded, if_true, hc, Char.ofNat_toNat]
  rfl

theorem decodeFrom_of_next {b : UInt8} {p : Pending} (hlo : p.lower ≤ b.toNat)
    (hhi : b.toNat ≤ p.upper) (hneeded : p.needed ≠ 1) (s : List UInt8) :
    decodeFrom (some p) (b :: s)
      = decodeFrom (some ⟨p.codePoint * 64 + (b.toNat - 0x80), p.needed - 1, 0x80, 0xBF⟩) s := by
  rw [decodeFrom_cons, step, if_pos ⟨hlo, hhi⟩]
  simp only [hneeded, if_false]
  rfl

theorem lead_two {b : ℕ} (h : 0xC2 ≤ b ∧ b ≤ 0xDF) :
    lead b = .inr ⟨b - 0xC0, 1, 0x80, 0xBF⟩ := by
  rw [lead, if_neg (by omega), if_pos h]

theorem lead_three {b : ℕ} (h : 0xE0 ≤ b ∧ b ≤ 0xEF) :
    lead b = .inr ⟨b - 0xE0, 2, if b = 0xE0 then 0xA0 else 0x80,
      if b = 0xED then 0x9F else 0xBF⟩ := by
  rw [lead, if_neg (by omega), if_neg (by omega), if_pos h]

theorem lead_four {b : ℕ} (h : 0xF0 ≤ b ∧ b ≤ 0xF4) :
    lead b = .inr ⟨b - 0xF0, 3, if b = 0xF0 then 0x90 else 0x80,
      if b = 0xF4 then 0x8F else 0xBF⟩ := by
  rw [lead, if_neg (by omega), if_neg (by omega), if_neg (by omega), if_pos h]

/-- The code of a character is read as the character. -/
theorem decodeFrom_utf8EncodeChar (c : Char) (s : List UInt8) :
    decodeFrom none (String.utf8EncodeChar c ++ s) = c :: decodeFrom none s := by
  -- a character is no surrogate and ends at U+10FFFF
  have hvalid : c.toNat < 0xD800 ∨ 0xDFFF < c.toNat ∧ c.toNat < 0x110000 := c.valid
  have hbyte : ∀ n < 256, (UInt8.ofNat n).toNat = n := fun n hn => by
    rw [UInt8.toNat_ofNat', Nat.mod_eq_of_lt hn]
  rw [String.utf8EncodeChar, show c.val.toNat = c.toNat from rfl]
  generalize hn : c.toNat = n at hvalid
  by_cases h1 : n ≤ 0x7F
  · have hb := hbyte n (by omega)
    rw [if_pos h1, List.singleton_append, decodeFrom_cons, step, begin, hb, lead, if_pos h1, ← hn,
      Char.ofNat_toNat]
    rfl
  by_cases h2 : n ≤ 0x7FF
  · rw [if_neg h1, if_pos h2]
    have hb1 := hbyte (n / 64 % 32 + 192) (by omega)
    have hb2 := hbyte (n % 64 + 128) (by omega)
    refine (decodeFrom_of_lead (lead_two (by omega)) _).trans ?_
    apply decodeFrom_of_last <;> simp only [hb1, hb2, hn] <;> omega
  by_cases h3 : n ≤ 0xFFFF
  · rw [if_neg h1, if_neg h2, if_pos h3]
    have hb1 := hbyte (n / 4096 % 16 + 224) (by omega)
    have hb2 := hbyte (n / 64 % 64 + 128) (by omega)
    have hb3 := hbyte (n % 64 + 128) (by omega)
    refine (decodeFrom_of_lead (lead_three (by omega)) _).trans ?_
    refine (decodeFrom_of_next ?_ ?_ (by simp) _).trans ?_
    · simp only [hb1, hb2]
      split <;> omega
    · simp only [hb1, hb2]
      split <;> omega
    · apply decodeFrom_of_last <;> simp only [hb1, hb2, hb3, hn] <;> omega
  · rw [if_neg h1, if_neg h2, if_neg h3]
    have hb1 := hbyte (n / 262144 % 8 + 240) (by omega)
    have hb2 := hbyte (n / 4096 % 64 + 128) (by omega)
    have hb3 := hbyte (n / 64 % 64 + 128) (by omega)
    have hb4 := hbyte (n % 64 + 128) (by omega)
    refine (decodeFrom_of_lead (lead_four (by omega)) _).trans ?_
    refine (decodeFrom_of_next ?_ ?_ (by simp) _).trans ?_
    · simp only [hb1, hb2]
      split <;> omega
    · simp only [hb1, hb2]
      split <;> omega
    refine (decodeFrom_of_next ?_ ?_ (by simp) _).trans ?_
    · simp only [hb3]
      omega
    · simp only [hb3]
      omega
    · apply decodeFrom_of_last <;> simp only [hb1, hb2, hb3, hb4, hn] <;> omega

/-! ### Lists of characters -/

/-- **Round trip.**  What encodes characters is read as them. -/
@[simp] theorem decode_encode (cs : List Char) :
    decode (cs.flatMap String.utf8EncodeChar) = cs := by
  induction cs with
  | nil => rfl
  | cons c cs ih => rw [decode, List.flatMap_cons, decodeFrom_utf8EncodeChar, ← decode, ih]

/-- Bytes that are written back as they were read are the code of some
characters. -/
theorem encode_decode_iff {s : List UInt8} :
    (decode s).flatMap String.utf8EncodeChar = s ↔
      ∃ cs : List Char, s = cs.flatMap String.utf8EncodeChar := by
  constructor
  · exact fun h => ⟨_, h.symm⟩
  · rintro ⟨cs, rfl⟩
    rw [decode_encode]

end Utf8
