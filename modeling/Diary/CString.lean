/-
Diary/CString.lean

C strings and the handful of libc calls that read and print them, on byte
lists.  A C string is the list of its bytes, the terminating NUL left out,
so `strlen` is `List.length`; `cstr` is the string at the start of a buffer
that may hold more NULs.  A pointer into a string is an offset or the
suffix it points to.

* searching: `strchr`, `strtok`;
* reading numbers: `atol` is `strtol` with glibc's saturation at 64 bits,
  `atoi` narrows it to `int`;
* printing: `dec` is what `%d` and `%ld` print, `snprintf` cuts a text to
  its buffer.

Main results: what `dec` prints, `atol` and `atoi` read back
(`atol_dec`, `atoi_dec`), whatever follows the number as long as it is not
a digit; and `strtok` splits a printed line at its first delimiter
(`strtok_append`).
-/
import Mathlib

namespace CString

/-- The bytes of a C string, without the terminating NUL. -/
abbrev Bytes := List UInt8

/-- The bytes of an ASCII literal. -/
def lit (s : String) : Bytes := s.toList.map Char.toUInt8

/-- The string a C function sees at a buffer: up to the first NUL. -/
def cstr (s : Bytes) : Bytes := s.takeWhile (· ≠ 0)

/-- `strchr(s, c)`, as the offset of the byte found. -/
def strchr (s : Bytes) (c : UInt8) : Option ℕ := s.findIdx? (· == c)

/-- One call of `strtok_r(s, d, &sv)` for a single delimiter `d`: the token
and what `sv` points to. -/
def strtok (d : UInt8) (s : Bytes) : Option (Bytes × Bytes) :=
  let t := s.dropWhile (· == d)
  if t = [] then none
  else some (t.takeWhile (· != d), (t.dropWhile (· != d)).tail)

/-! ### Reading numbers -/

/-- `isspace` in the C locale. -/
def isSpace (c : UInt8) : Bool := c == 32 || (9 ≤ c && c ≤ 13)

def isDigit (c : UInt8) : Bool := 48 ≤ c && c ≤ 57

/-- The value of the leading run of digits; 0 when there is none. -/
def digitsVal (s : Bytes) : ℕ :=
  (s.takeWhile isDigit).foldl (fun a c => 10 * a + (c.toNat - 48)) 0

/-- The integer `strtol(s, NULL, 10)` reads, before it is cut to a `long`:
leading blanks, an optional sign, then digits. -/
def strtolVal (s : Bytes) : ℤ :=
  let t := s.dropWhile isSpace
  if t.head? = some 45 then -(digitsVal t.tail : ℤ)
  else if t.head? = some 43 then digitsVal t.tail
  else digitsVal t

/-- `atol`: `strtol` saturates at the ends of `long`. -/
def atol (s : Bytes) : Int64 := Int64.ofIntClamp (strtolVal s)

/-- `atoi`: `strtol`, narrowed to `int`. -/
def atoi (s : Bytes) : Int32 := (atol s).toInt32

/-! ### Printing -/

/-- The decimal digits of a natural number. -/
def decNat (n : ℕ) : Bytes := (Nat.toDigits 10 n).map Char.toUInt8

/-- What `%d` and `%ld` print. -/
def dec (n : ℤ) : Bytes := if n < 0 then 45 :: decNat n.natAbs else decNat n.natAbs

/-- The text `snprintf` leaves in a buffer of `sz` bytes. -/
def snprintf (sz : ℕ) (s : Bytes) : Bytes := s.take (sz - 1)

/-! ### Strings without a given byte -/

theorem cstr_eq_self {s : Bytes} (h : 0 ∉ s) : cstr s = s := by
  refine List.takeWhile_eq_self_iff.mpr fun c hc => ?_
  have hne : c ≠ 0 := fun e => h (e ▸ hc)
  simpa using hne

theorem zero_notMem_cstr (s : Bytes) : (0 : UInt8) ∉ cstr s := by
  intro h
  simpa using List.mem_takeWhile_imp h

theorem strchr_eq_none {s : Bytes} {c : UInt8} (h : c ∉ s) : strchr s c = none := by
  refine List.findIdx?_eq_none_iff.mpr fun x hx => ?_
  have hne : x ≠ c := fun e => h (e ▸ hx)
  simpa using hne

theorem strchr_append {s t : Bytes} {c : UInt8} (h : c ∉ s) :
    strchr (s ++ c :: t) c = some s.length := by
  have hs : s.findIdx? (· == c) = none := strchr_eq_none h
  simp [strchr, List.findIdx?_append, List.findIdx?_cons, hs]

theorem forall_bne {d : UInt8} {a : Bytes} (hd : d ∉ a) : ∀ x ∈ a, (x != d) = true := by
  intro x hx
  have hne : x ≠ d := fun e => hd (e ▸ hx)
  simpa using hne

theorem dropWhile_beq_append {d : UInt8} {a : Bytes} (ha : a ≠ []) (hd : d ∉ a) (r : Bytes) :
    (a ++ r).dropWhile (· == d) = a ++ r := by
  obtain ⟨x, a', rfl⟩ := List.exists_cons_of_ne_nil ha
  have hx : (x == d) = false := by simpa using forall_bne hd x (by simp)
  rw [List.cons_append, List.dropWhile_cons_of_neg (by simp [hx])]

/-- A token that ends at a delimiter. -/
theorem strtok_append {d : UInt8} {a r : Bytes} (ha : a ≠ []) (hd : d ∉ a) :
    strtok d (a ++ d :: r) = some (a, r) := by
  have htok : (a ++ d :: r).takeWhile (· != d) = a := by
    rw [List.takeWhile_append_of_pos (forall_bne hd), List.takeWhile_cons_of_neg (by simp),
      List.append_nil]
  have hrest : (a ++ d :: r).dropWhile (· != d) = d :: r := by
    rw [List.dropWhile_append_of_pos (forall_bne hd), List.dropWhile_cons_of_neg (by simp)]
  unfold strtok
  simp only
  rw [dropWhile_beq_append ha hd, htok, hrest, if_neg (by simp), List.tail_cons]

/-- `strtok` finds nothing exactly in a string of delimiters. -/
theorem strtok_eq_none_iff {d : UInt8} {s : Bytes} :
    strtok d s = none ↔ ∀ c ∈ s, c = d := by
  have hnil : s.dropWhile (· == d) = [] ↔ ∀ c ∈ s, c = d := by
    simp [List.dropWhile_eq_nil_iff]
  rw [← hnil]
  unfold strtok
  simp only
  split
  · next h => exact iff_of_true rfl h
  · next h => exact iff_of_false nofun h

/-- A last token, that ends with the string. -/
theorem strtok_of_notMem {d : UInt8} {s : Bytes} (hs : s ≠ []) (hd : d ∉ s) :
    strtok d s = some (s, []) := by
  have hdrop : s.dropWhile (· == d) = s := by
    simpa using dropWhile_beq_append hs hd []
  unfold strtok
  simp only
  rw [hdrop, if_neg hs, List.takeWhile_eq_self_iff.mpr (forall_bne hd),
    List.dropWhile_eq_nil_iff.mpr (forall_bne hd), List.tail_nil]

/-! ### Printed numbers -/

theorem toNat_bounds_of_isDigit {c : Char} (h : c.isDigit = true) :
    48 ≤ c.toNat ∧ c.toNat ≤ 57 := by
  simp only [Char.isDigit, Bool.and_eq_true, decide_eq_true_eq, UInt32.le_iff_toNat_le] at h
  exact h

theorem toNat_toUInt8_of_isDigit {c : Char} (h : c.isDigit = true) :
    c.toUInt8.toNat = c.toNat := by
  obtain ⟨-, hc⟩ := toNat_bounds_of_isDigit h
  rw [Char.toUInt8]
  rw [UInt32.toNat_toUInt8]
  exact Nat.mod_eq_of_lt (by unfold Char.toNat at hc; omega)

theorem isDigit_toUInt8 {c : Char} (h : c.isDigit = true) : isDigit c.toUInt8 = true := by
  have hc := toNat_bounds_of_isDigit h
  rw [← toNat_toUInt8_of_isDigit h] at hc
  simp only [isDigit, Bool.and_eq_true, decide_eq_true_eq, UInt8.le_iff_toNat_le]
  exact hc

theorem isDigit_of_mem_decNat {n : ℕ} {c : UInt8} (h : c ∈ decNat n) : isDigit c = true := by
  obtain ⟨ch, hch, rfl⟩ := List.mem_map.mp h
  exact isDigit_toUInt8 (Nat.isDigit_of_mem_toDigits (by decide) (by decide) hch)

@[simp] theorem decNat_ne_nil (n : ℕ) : decNat n ≠ [] := by
  simp [decNat]

@[simp] theorem dec_ne_nil (n : ℤ) : dec n ≠ [] := by
  rw [dec]
  split <;> simp

@[simp] theorem dec_natCast (n : ℕ) : dec n = decNat n := by
  simp [dec]

theorem length_decNat_le {n k : ℕ} (hk : 0 < k) (h : n < 10 ^ k) : (decNat n).length ≤ k := by
  rw [decNat, List.length_map]
  exact (Nat.length_toDigits_le_iff (by decide) hk).mpr h

/-- A byte that is neither a digit nor the sign is not printed. -/
theorem notMem_dec {n : ℤ} {c : UInt8} (hc : isDigit c = false) (hs : c ≠ 45) : c ∉ dec n := by
  have hnat : c ∉ decNat n.natAbs := fun h => by
    rw [isDigit_of_mem_decNat h] at hc
    cases hc
  rw [dec]
  split
  · simp [hs, hnat]
  · exact hnat

theorem foldl_digits (l : List Char) (hl : ∀ c ∈ l, c.isDigit = true) (a : ℕ) :
    (l.map Char.toUInt8).foldl (fun a c => 10 * a + (c.toNat - 48)) a
      = Nat.ofDigitChars 10 l a := by
  induction l generalizing a with
  | nil => simp
  | cons c l ih =>
      rw [Nat.ofDigitChars_cons, List.map_cons, List.foldl_cons,
        toNat_toUInt8_of_isDigit (hl c (by simp))]
      exact ih (fun x hx => hl x (by simp [hx])) _

/-- The rest `r` of a text does not go on with a digit. -/
def StopsDigits (r : Bytes) : Prop := ∀ c, r.head? = some c → isDigit c = false

theorem stopsDigits_nil : StopsDigits [] := by
  intro c h
  cases h

theorem stopsDigits_cons {c : UInt8} {r : Bytes} (h : isDigit c = false) :
    StopsDigits (c :: r) := by
  intro x hx
  obtain rfl : c = x := by simpa using hx
  exact h

/-- Digits are read up to where they stop. -/
theorem takeWhile_isDigit_append {s r : Bytes} (hs : ∀ c ∈ s, isDigit c = true)
    (hr : StopsDigits r) : (s ++ r).takeWhile isDigit = s := by
  have hstop : r.takeWhile isDigit = [] := by
    cases r with
    | nil => rfl
    | cons c r =>
        apply List.takeWhile_cons_of_neg
        rw [hr c rfl]
        exact Bool.false_ne_true
  rw [List.takeWhile_append_of_pos hs, hstop, List.append_nil]

theorem digitsVal_decNat_append (n : ℕ) {r : Bytes} (hr : StopsDigits r) :
    digitsVal (decNat n ++ r) = n := by
  rw [digitsVal, takeWhile_isDigit_append (fun c hc => isDigit_of_mem_decNat hc) hr, decNat,
    foldl_digits _ (fun c hc => Nat.isDigit_of_mem_toDigits (by decide) (by decide) hc),
    Nat.ofDigitChars_ten_toDigits]

theorem strtolVal_of_head {s : Bytes} {c : UInt8} (h : s.head? = some c)
    (hc : isDigit c = true) : strtolVal s = digitsVal s := by
  have hsp : isSpace c = false := by
    simp only [isDigit, Bool.and_eq_true, decide_eq_true_eq, UInt8.le_iff_toNat_le] at hc
    have h48 : (48 : UInt8).toNat = 48 := rfl
    have hne : c ≠ 32 := fun e => by subst e; simp at hc
    have hgt : ¬ c ≤ 13 := by
      rw [UInt8.le_iff_toNat_le]
      have h13 : (13 : UInt8).toNat = 13 := rfl
      omega
    simp [isSpace, hne, hgt]
  have h45 : c ≠ 45 := fun e => by subst e; simp [isDigit] at hc
  have h43 : c ≠ 43 := fun e => by subst e; simp [isDigit] at hc
  have hdrop : s.dropWhile isSpace = s := by
    cases s with
    | nil => rfl
    | cons x s =>
        obtain rfl : x = c := by simpa using h
        simp [hsp]
  rw [strtolVal]
  simp [hdrop, h, h45, h43]

theorem strtolVal_dec_append (n : ℤ) {r : Bytes} (hr : StopsDigits r) :
    strtolVal (dec n ++ r) = n := by
  rw [dec]
  split
  · have hneg : strtolVal (45 :: decNat n.natAbs ++ r)
        = -(digitsVal (decNat n.natAbs ++ r) : ℤ) := by
      simp [strtolVal, show isSpace 45 = false from rfl]
    rw [hneg, digitsVal_decNat_append _ hr]
    omega
  · obtain ⟨c, l, hcl⟩ := List.exists_cons_of_ne_nil (decNat_ne_nil n.natAbs)
    have hc : isDigit c = true := isDigit_of_mem_decNat (hcl ▸ List.mem_cons_self)
    rw [strtolVal_of_head (c := c) (by simp [hcl]) hc, digitsVal_decNat_append _ hr]
    omega

/-- **`atol` reads back what `%ld` printed**, whatever non-digit follows. -/
theorem atol_dec_append (x : Int64) {r : Bytes} (hr : StopsDigits r) :
    atol (dec x.toInt ++ r) = x := by
  rw [atol]
  rw [strtolVal_dec_append _ hr, Int64.ofIntClamp_toInt]

theorem atol_dec (x : Int64) : atol (dec x.toInt) = x := by
  simpa using atol_dec_append x stopsDigits_nil

/-- **`atoi` reads back what `%d` printed**, whatever non-digit follows. -/
theorem atoi_dec_append (x : Int32) {r : Bytes} (hr : StopsDigits r) :
    atoi (dec x.toInt ++ r) = x := by
  have h := atol_dec_append x.toInt64 hr
  rw [Int32.toInt_toInt64] at h
  rw [atoi]
  rw [h, Int32.toInt32_toInt64]

theorem atoi_dec (x : Int32) : atoi (dec x.toInt) = x := by
  simpa using atoi_dec_append x stopsDigits_nil

example : atol (lit " +12x") = 12 := by decide
example : atoi (lit "4294967297 data") = 1 := by decide

/-! ### Widths -/

/-- A positive `int` prints in at most 10 characters. -/
theorem length_dec_int_le {x : Int32} (hx : 0 ≤ x.toInt) : (dec x.toInt).length ≤ 10 := by
  have hlt := x.toInt_lt
  have hneg : ¬ x.toInt < 0 := by omega
  rw [dec]
  rw [if_neg hneg]
  exact length_decNat_le (by decide) (by omega)

theorem length_dec_int_le_eleven (x : Int32) : (dec x.toInt).length ≤ 11 := by
  have hlt := x.toInt_lt
  have hge := x.le_toInt
  have hnat : (decNat x.toInt.natAbs).length ≤ 10 := length_decNat_le (by decide) (by omega)
  rw [dec]
  split
  · simp only [List.length_cons]; omega
  · omega

/-- A `long` prints in at most 20 characters, a positive one in at most 19. -/
theorem length_dec_long_le (x : Int64) : (dec x.toInt).length ≤ 20 := by
  have hlt := x.toInt_lt
  have hge := x.le_toInt
  have hnat : (decNat x.toInt.natAbs).length ≤ 19 := length_decNat_le (by decide) (by omega)
  rw [dec]
  split
  · simp only [List.length_cons]; omega
  · omega

theorem length_dec_long_pos_le {x : Int64} (hx : 0 ≤ x.toInt) : (dec x.toInt).length ≤ 19 := by
  have hlt := x.toInt_lt
  have hneg : ¬ x.toInt < 0 := by omega
  rw [dec]
  rw [if_neg hneg]
  exact length_decNat_le (by decide) (by omega)

theorem snprintf_eq_self {sz : ℕ} {s : Bytes} (h : s.length < sz) : snprintf sz s = s := by
  rw [snprintf]
  exact List.take_of_length_le (by omega)

end CString
