/-
Diary/JavaString.lean

Texts of the Android client: strings of UTF-16 units, which
`getBytes(UTF_8)` turns into the bytes that are sealed and
`new String(bytes, UTF_8)` makes again of bytes that were opened.

Neither throws: a surrogate without its pair becomes `?`, and bytes that are
no UTF-8 become U+FFFD.  So a string comes back as it was exactly if its
surrogates are paired (`newString_getBytes_iff`), and bytes that another
client wrote stay as they are through a string exactly if they encode
characters (`getBytes_newString_iff`).
-/
import Diary.Utf8
import Diary.Preview

namespace Diary

open CString CodeText

/-! ### The conversions -/

/-- `Character.isHighSurrogate`. -/
def isHighSurrogate (u : UInt16) : Bool := 0xD800 ≤ u && u ≤ 0xDBFF

/-- `Character.toCodePoint`. -/
def toCodePoint (hi lo : UInt16) : Char :=
  Char.ofNat (0x10000 + (hi.toNat - 0xD800) * 0x400 + (lo.toNat - 0xDC00))

/-- The bytes of a unit that is not half of a pair. -/
def unitBytes (u : UInt16) : Bytes :=
  if isHighSurrogate u || isLowSurrogate u then [63]
  else String.utf8EncodeChar (Char.ofNat u.toNat)

/-- `getBytes(StandardCharsets.UTF_8)`. -/
def getBytes : List UInt16 → Bytes
  | [] => []
  | [u] => unitBytes u
  | u :: v :: s =>
      if isHighSurrogate u && isLowSurrogate v then
        String.utf8EncodeChar (toCodePoint u v) ++ getBytes s
      else unitBytes u ++ getBytes (v :: s)

/-- `new String(bytes, StandardCharsets.UTF_8)`. -/
def newString (bytes : Bytes) : List UInt16 := encode utf16 (Utf8.decode bytes)

/-- Every surrogate is half of a pair. -/
def Paired : List UInt16 → Prop
  | [] => True
  | [u] => (isHighSurrogate u || isLowSurrogate u) = false
  | u :: v :: s =>
      if isHighSurrogate u && isLowSurrogate v then Paired s
      else (isHighSurrogate u || isLowSurrogate u) = false ∧ Paired (v :: s)

instance decidablePaired : ∀ s, Decidable (Paired s)
  | [] => isTrue trivial
  | [u] => inferInstanceAs (Decidable ((isHighSurrogate u || isLowSurrogate u) = false))
  | u :: v :: s =>
      have := decidablePaired s
      have := decidablePaired (v :: s)
      inferInstanceAs (Decidable (if isHighSurrogate u && isLowSurrogate v then Paired s
        else (isHighSurrogate u || isLowSurrogate u) = false ∧ Paired (v :: s)))

/-! ### Units -/

theorem isHighSurrogate_iff {u : UInt16} :
    isHighSurrogate u = true ↔ 0xD800 ≤ u.toNat ∧ u.toNat ≤ 0xDBFF := by
  rw [isHighSurrogate, Bool.and_eq_true, decide_eq_true_iff, decide_eq_true_iff,
    UInt16.le_iff_toNat_le, UInt16.le_iff_toNat_le]
  rfl

theorem isLowSurrogate_iff {u : UInt16} :
    isLowSurrogate u = true ↔ 0xDC00 ≤ u.toNat ∧ u.toNat ≤ 0xDFFF := by
  rw [isLowSurrogate, Bool.and_eq_true, decide_eq_true_iff, decide_eq_true_iff,
    UInt16.le_iff_toNat_le, UInt16.le_iff_toNat_le]
  rfl

theorem not_surrogate_iff {u : UInt16} :
    (isHighSurrogate u || isLowSurrogate u) = false ↔ u.toNat < 0xD800 ∨ 0xDFFF < u.toNat := by
  rw [Bool.or_eq_false_iff, Bool.eq_false_iff, Bool.eq_false_iff, Ne, Ne, isHighSurrogate_iff,
    isLowSurrogate_iff]
  omega

theorem toNat_charOfNat {n : ℕ} (h : n < 0xD800 ∨ 0xDFFF < n ∧ n < 0x110000) :
    (Char.ofNat n).toNat = n := by
  rw [Char.toNat_ofNat, if_pos h]

/-- A unit that is no surrogate is a character. -/
theorem utf16_charOfNat {u : UInt16} (h : (isHighSurrogate u || isLowSurrogate u) = false) :
    utf16 (Char.ofNat u.toNat) = [u] := by
  have hlt := u.toNat_lt
  have hchar : (Char.ofNat u.toNat).toNat = u.toNat := by
    apply toNat_charOfNat
    have hu := not_surrogate_iff.mp h
    omega
  rw [utf16, hchar, if_pos (by omega), UInt16.ofNat_toNat]

/-- So are two that pair. -/
theorem utf16_toCodePoint {u v : UInt16} (hu : isHighSurrogate u = true)
    (hv : isLowSurrogate v = true) : utf16 (toCodePoint u v) = [u, v] := by
  rw [isHighSurrogate_iff] at hu
  rw [isLowSurrogate_iff] at hv
  have hchar : (toCodePoint u v).toNat
      = 0x10000 + (u.toNat - 0xD800) * 0x400 + (v.toNat - 0xDC00) := toNat_charOfNat (by omega)
  have hhi : 0xD800 + ((toCodePoint u v).toNat - 0x10000) / 0x400 = u.toNat := by omega
  have hlo : 0xDC00 + ((toCodePoint u v).toNat - 0x10000) % 0x400 = v.toNat := by omega
  rw [utf16, if_neg (by omega), hhi, hlo, UInt16.ofNat_toNat, UInt16.ofNat_toNat]

/-- The units of a character. -/
inductive Units (c : Char) : List UInt16 → Prop
  | one {u : UInt16} (h : (isHighSurrogate u || isLowSurrogate u) = false)
      (hc : Char.ofNat u.toNat = c) : Units c [u]
  | two {u v : UInt16} (hu : isHighSurrogate u = true) (hv : isLowSurrogate v = true)
      (hc : toCodePoint u v = c) : Units c [u, v]

theorem units_utf16 (c : Char) : Units c (utf16 c) := by
  have hvalid : c.toNat < 0xD800 ∨ 0xDFFF < c.toNat ∧ c.toNat < 0x110000 := c.valid
  have hunit : ∀ n < 0x10000, (UInt16.ofNat n).toNat = n := fun n hn => by
    rw [UInt16.toNat_ofNat', Nat.mod_eq_of_lt hn]
  rw [utf16]
  split
  · next hc =>
    have hn := hunit _ hc
    refine .one ?_ (by rw [hn, Char.ofNat_toNat])
    rw [not_surrogate_iff, hn]
    omega
  · next hc =>
    have hhi := hunit (0xD800 + (c.toNat - 0x10000) / 0x400) (by omega)
    have hlo := hunit (0xDC00 + (c.toNat - 0x10000) % 0x400) (by omega)
    refine .two ?_ ?_ ?_
    · rw [isHighSurrogate_iff, hhi]
      omega
    · rw [isLowSurrogate_iff, hlo]
      omega
    · have hval : 0x10000 + (0xD800 + (c.toNat - 0x10000) / 0x400 - 0xD800) * 0x400
          + (0xDC00 + (c.toNat - 0x10000) % 0x400 - 0xDC00) = c.toNat := by omega
      rw [toCodePoint, hhi, hlo, hval, Char.ofNat_toNat]

/-! ### Strings -/

theorem high_of_not_surrogate {u : UInt16}
    (h : (isHighSurrogate u || isLowSurrogate u) = false) : isHighSurrogate u = false :=
  (Bool.or_eq_false_iff.mp h).1

theorem getBytes_utf16_append (c : Char) (s : List UInt16) :
    getBytes (utf16 c ++ s) = String.utf8EncodeChar c ++ getBytes s := by
  have hunits := units_utf16 c
  generalize utf16 c = us at hunits ⊢
  cases hunits with
  | @one u h hc =>
      have hbytes : unitBytes u = String.utf8EncodeChar c := by
        rw [unitBytes, h, ← hc]
        rfl
      cases s with
      | nil =>
          show unitBytes u = _
          rw [hbytes, getBytes, List.append_nil]
      | cons v s =>
          rw [List.singleton_append, getBytes, high_of_not_surrogate h, Bool.false_and, hbytes]
          rfl
  | two hu hv hc =>
      show getBytes (_ :: _ :: s) = _
      rw [getBytes, hu, hv, hc]
      rfl

/-- The bytes of a string of characters. -/
theorem getBytes_utf16 (cs : List Char) :
    getBytes (encode utf16 cs) = encode String.utf8EncodeChar cs := by
  induction cs with
  | nil => rfl
  | cons c cs ih => rw [encode_cons, encode_cons, getBytes_utf16_append, ih]

theorem newString_utf8 (cs : List Char) :
    newString (encode String.utf8EncodeChar cs) = encode utf16 cs :=
  congrArg (encode utf16) (Utf8.decode_encode cs)

theorem paired_utf16_append (c : Char) {s : List UInt16} (hs : Paired s) :
    Paired (utf16 c ++ s) := by
  have hunits := units_utf16 c
  generalize utf16 c = us at hunits ⊢
  cases hunits with
  | @one u h hc =>
      cases s with
      | nil => exact h
      | cons v s =>
          have hpair : ¬ (isHighSurrogate u && isLowSurrogate v) = true := by
            rw [high_of_not_surrogate h, Bool.false_and]
            exact Bool.false_ne_true
          show Paired (_ :: v :: s)
          rw [Paired, if_neg hpair]
          exact ⟨h, hs⟩
  | two hu hv hc =>
      show Paired (_ :: _ :: s)
      rw [Paired, hu, hv]
      exact hs

/-- A string whose surrogates are paired is one of characters. -/
theorem paired_iff {s : List UInt16} : Paired s ↔ ∃ cs, s = encode utf16 cs := by
  constructor
  · intro h
    induction s using Paired.induct with
    | case1 => exact ⟨[], rfl⟩
    | case2 u => exact ⟨[Char.ofNat u.toNat], by simp [utf16_charOfNat h]⟩
    | case3 u v s hpair ih =>
        rw [Paired, if_pos hpair] at h
        obtain ⟨cs, rfl⟩ := ih h
        -- a pair of surrogates is one character
        obtain ⟨hu, hv⟩ := Bool.and_eq_true_iff.mp hpair
        refine ⟨toCodePoint u v :: cs, ?_⟩
        rw [encode_cons, utf16_toCodePoint hu hv]
        rfl
    | case4 u v s hpair ih =>
        rw [Paired, if_neg hpair] at h
        obtain ⟨cs, hcs⟩ := ih h.2
        refine ⟨Char.ofNat u.toNat :: cs, ?_⟩
        rw [encode_cons, utf16_charOfNat h.1, ← hcs]
        rfl
  · rintro ⟨cs, rfl⟩
    induction cs with
    | nil => exact trivial
    | cons c cs ih =>
        rw [encode_cons]
        exact paired_utf16_append c ih

/-! ### Round trips -/

/-- A string comes back from its bytes iff its surrogates are paired. -/
theorem newString_getBytes_iff {s : List UInt16} : newString (getBytes s) = s ↔ Paired s := by
  constructor
  · exact fun h => paired_iff.mpr ⟨_, h.symm⟩
  · intro h
    obtain ⟨cs, rfl⟩ := paired_iff.mp h
    rw [getBytes_utf16, newString_utf8]

/-- Bytes come back from their string iff they encode characters. -/
theorem getBytes_newString_iff {bytes : Bytes} :
    getBytes (newString bytes) = bytes ↔ ∃ cs, bytes = encode String.utf8EncodeChar cs := by
  rw [newString, getBytes_utf16]
  exact Utf8.encode_decode_iff

end Diary
