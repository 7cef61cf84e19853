/-
Diary/EntryAt.lean

A date that `format_ts` has shown, given to `--entry-at` as it stands.

`strftime` prints a year without padding, `strptime` reads four digits of it
at most; behind the year both have two digits for every field.  So what is
shown reads back as the minute it stands for, and is shown the same again,
exactly in the years 0 to 9999 (`shown_date_reads_back_iff`).
-/
import Diary.Dates

namespace Diary

open CString Calendar

/-! ### The numbers of `strptime` -/

/-- Digits read behind a number. -/
def readOn (a : ℕ) (ds : Bytes) : ℕ := ds.foldl (fun a c => 10 * a + (c.toNat - 48)) a

theorem readOn_cons (a : ℕ) (c : UInt8) (ds : Bytes) :
    readOn a (c :: ds) = readOn (10 * a + (c.toNat - 48)) ds := by
  rw [readOn, List.foldl_cons, readOn]

theorem le_readOn (a : ℕ) (ds : Bytes) : a ≤ readOn a ds := by
  induction ds generalizing a with
  | nil => exact le_refl a
  | cons c ds ih =>
      have hrest := ih (10 * a + (c.toNat - 48))
      rw [readOn_cons]
      omega

variable {ds r : Bytes}

/-- A number that fits its field is read to its end. -/
theorem digitsLoop_append {hi : ℕ} (hds : ∀ c ∈ ds, isDigit c = true) (hr : StopsDigits r)
    {n a : ℕ} (hn : ds.length ≤ n) (hhi : readOn a ds ≤ hi) :
    digitsLoop hi n a (ds ++ r) = (readOn a ds, r) := by
  induction ds generalizing n a with
  | nil =>
      rcases n with - | n
      · rfl
      rcases r with - | ⟨c, r⟩
      · rfl
      · rw [List.nil_append, digitsLoop, if_neg]
        · rfl
        · rw [hr c rfl]
          exact fun h => Bool.false_ne_true h.2
  | cons c ds ih =>
      obtain ⟨m, rfl⟩ : ∃ m, n = m + 1 := Nat.exists_eq_succ_of_ne_zero fun h0 => by
        rw [h0] at hn
        cases hn
      have hle := le_readOn (10 * a + (c.toNat - 48)) ds
      rw [readOn_cons] at hhi ⊢
      rw [List.cons_append, digitsLoop, if_pos ⟨by omega, hds c List.mem_cons_self⟩,
        Nat.mul_comm a 10]
      exact ih (fun d hd => hds d (List.mem_cons_of_mem _ hd)) (Nat.le_of_succ_le_succ hn) hhi

/-- A number longer than its field is not. -/
theorem digitsLoop_long (hi : ℕ) (hds : ∀ c ∈ ds, isDigit c = true) (r : Bytes) {n : ℕ}
    (a : ℕ) (hn : n < ds.length) :
    ∃ c rest, (digitsLoop hi n a (ds ++ r)).2 = c :: rest ∧ isDigit c = true := by
  induction n generalizing ds a with
  | zero =>
      obtain ⟨c, ds, rfl⟩ := List.exists_cons_of_length_pos hn
      exact ⟨c, ds ++ r, rfl, hds c List.mem_cons_self⟩
  | succ n ih =>
      obtain ⟨c, ds, rfl⟩ := List.exists_cons_of_length_pos (Nat.zero_lt_of_lt hn)
      rw [List.cons_append, digitsLoop]
      split
      · exact ih (fun d hd => hds d (List.mem_cons_of_mem _ hd)) _ (Nat.lt_of_succ_lt_succ hn)
      · exact ⟨c, ds ++ r, rfl, hds c List.mem_cons_self⟩

theorem not_isSpace_of_isDigit {c : UInt8} (h : isDigit c = true) : isSpace c = false := by
  simp only [isDigit, Bool.and_eq_true, decide_eq_true_eq] at h
  rw [isSpace, Bool.or_eq_false_iff, beq_eq_false_iff_ne, Bool.and_eq_false_iff]
  refine ⟨fun h32 => ?_, Or.inr (decide_eq_false fun h13 => ?_)⟩
  · rw [h32] at h
    exact absurd h.1 (by decide)
  · have hlt : (48 : UInt8) ≤ 13 := UInt8.le_trans h.1 h13
    exact absurd hlt (by decide)

theorem getNumber_append {lo hi n : ℕ} (hne : ds ≠ []) (hds : ∀ c ∈ ds, isDigit c = true)
    (hr : StopsDigits r) (hn : ds.length ≤ n) (hlo : lo ≤ readOn 0 ds) (hhi : readOn 0 ds ≤ hi) :
    getNumber lo hi n (ds ++ r) = some (readOn 0 ds, r) := by
  obtain ⟨c, ds, rfl⟩ := List.exists_cons_of_ne_nil hne
  have hc := hds c List.mem_cons_self
  have hfirst : readOn 0 (c :: ds) = readOn (c.toNat - 48) ds := by
    rw [readOn_cons, Nat.mul_zero, Nat.zero_add]
  rw [hfirst] at hlo hhi ⊢
  rw [getNumber, List.cons_append,
    List.dropWhile_cons_of_neg (by rw [not_isSpace_of_isDigit hc]; exact Bool.false_ne_true)]
  simp only [hc, if_true]
  rw [digitsLoop_append (fun d hd => hds d (List.mem_cons_of_mem _ hd)) hr
    (Nat.le_sub_one_of_lt hn) hhi]
  exact if_pos ⟨hlo, hhi⟩

/-- What is not read of a number longer than its field goes on with it. -/
theorem getNumber_long {lo hi n val : ℕ} {rest : Bytes} (hds : ∀ c ∈ ds, isDigit c = true)
    (hpos : 0 < n) (hn : n < ds.length) (h : getNumber lo hi n (ds ++ r) = some (val, rest)) :
    ∃ c rest', rest = c :: rest' ∧ isDigit c = true := by
  obtain ⟨d, ds, rfl⟩ := List.exists_cons_of_length_pos (Nat.zero_lt_of_lt hn)
  have hd := hds d List.mem_cons_self
  rw [getNumber, List.cons_append,
    List.dropWhile_cons_of_neg (by rw [not_isSpace_of_isDigit hd]; exact Bool.false_ne_true)] at h
  simp only [hd, if_true] at h
  have hlen : n - 1 < ds.length := by
    rw [List.length_cons] at hn
    omega
  obtain ⟨c, rest', hrest, hc⟩ :=
    digitsLoop_long hi (fun c hc => hds c (List.mem_cons_of_mem _ hc)) r (d.toNat - 48) hlen
  split at h
  · rw [hrest] at h
    exact ⟨c, rest', (Prod.mk.inj (Option.some.inj h)).2.symm, hc⟩
  · cases h

theorem getNumber_decNat {lo hi n k : ℕ} (hlo : lo ≤ k) (hhi : k ≤ hi)
    (hn : (decNat k).length ≤ n) (hr : StopsDigits r) :
    getNumber lo hi n (decNat k ++ r) = some (k, r) := by
  have hds : ∀ c ∈ decNat k, isDigit c = true := fun c hc => isDigit_of_mem_decNat hc
  have hval : readOn 0 (decNat k) = k := by
    have h := digitsVal_decNat_append k stopsDigits_nil
    rwa [digitsVal, takeWhile_isDigit_append hds stopsDigits_nil] at h
  have h := getNumber_append (decNat_ne_nil k) hds hr hn (hval.symm ▸ hlo) (hval.symm ▸ hhi)
  rwa [hval] at h

theorem toNat_digit {d : ℕ} (hd : d < 10) : (UInt8.ofNat (48 + d)).toNat = 48 + d := by
  rw [UInt8.toNat_ofNat', Nat.mod_eq_of_lt (by omega)]

theorem isDigit_digit {d : ℕ} (hd : d < 10) : isDigit (UInt8.ofNat (48 + d)) = true := by
  simp only [isDigit, Bool.and_eq_true, decide_eq_true_eq, UInt8.le_iff_toNat_le, toNat_digit hd]
  exact ⟨Nat.le_add_right _ _, Nat.add_le_add_left (Nat.le_of_lt_succ hd) 48⟩

theorem isDigit_of_mem_twoDigits {k : ℕ} (hk : k < 100) {c : UInt8} (hc : c ∈ twoDigits k) :
    isDigit c = true := by
  rcases List.mem_cons.mp hc with rfl | hc
  · exact isDigit_digit (by omega)
  · rw [List.mem_singleton.mp hc]
    exact isDigit_digit (by omega)

theorem readOn_twoDigits {k : ℕ} (hk : k < 100) : readOn 0 (twoDigits k) = k := by
  rw [twoDigits, readOn_cons, readOn_cons, toNat_digit (by omega), toNat_digit (by omega)]
  show 10 * _ + _ = k
  omega

theorem getNumber_twoDigits {lo hi k : ℕ} (hk : k < 100) (hlo : lo ≤ k) (hhi : k ≤ hi)
    (hr : StopsDigits r) : getNumber lo hi 2 (twoDigits k ++ r) = some (k, r) := by
  have hval := readOn_twoDigits hk
  have hne : twoDigits k ≠ [] := List.cons_ne_nil _ _
  have h := getNumber_append (n := 2) hne (fun c hc => isDigit_of_mem_twoDigits hk hc) hr
    (le_refl _) (hval.symm ▸ hlo) (hval.symm ▸ hhi)
  rwa [hval] at h

theorem dropWhile_twoDigits {k : ℕ} (hk : k < 100) (r : Bytes) :
    (32 :: (twoDigits k ++ r)).dropWhile isSpace = twoDigits k ++ r := by
  have hc := not_isSpace_of_isDigit (isDigit_digit (show k / 10 < 10 by omega))
  rw [List.dropWhile_cons_of_pos (by decide), twoDigits, List.cons_append,
    List.dropWhile_cons_of_neg (by rw [hc]; exact Bool.false_ne_true)]

/-! ### What is printed is read -/

/-- `strptime` reads what `strftime` printed. -/
theorem strptime_text {tm : Tm} (h : tm.InRange) : strptime tm.text = some (tm, []) := by
  obtain ⟨hyear, hmon, hmday, hhour, hmin⟩ := h
  obtain ⟨y, hy⟩ := Int.eq_ofNat_of_zero_le (show 0 ≤ tm.year + 1900 by omega)
  have hlen : (decNat y).length ≤ 4 := length_decNat_le (by decide) (by omega)
  have hstop : ∀ (c : UInt8) (s : Bytes), isDigit c = false → StopsDigits (c :: s) :=
    fun _ _ => stopsDigits_cons
  have hlast := getNumber_twoDigits (by omega) (Nat.zero_le _)
    (Nat.le_of_lt_succ hmin) stopsDigits_nil
  rw [List.append_nil] at hlast
  rw [strptime, Tm.text, hy, dec_natCast]
  simp only [List.append_assoc, List.cons_append]
  rw [getNumber_decNat (Nat.zero_le _) (by omega) hlen (hstop _ _ (by decide))]
  simp only [Option.bind_eq_bind, Option.bind_some, matchChar, if_true]
  rw [getNumber_twoDigits (by omega) (by omega) (by omega) (hstop _ _ (by decide))]
  simp only [Option.bind_some, if_true]
  rw [getNumber_twoDigits (by omega) (by omega) (by omega) (hstop _ _ (by decide))]
  simp only [Option.bind_some]
  rw [dropWhile_twoDigits (by omega),
    getNumber_twoDigits (by omega) (by omega) (by omega) (hstop _ _ (by decide))]
  simp only [Option.bind_some, if_true, hlast, Nat.add_sub_cancel, ← hy, add_sub_cancel_right]

/-- A year of another length than one to four digits is not read. -/
theorem strptime_eq_none {tm : Tm} (h : tm.year + 1900 < 0 ∨ 9999 < tm.year + 1900) :
    strptime tm.text = none := by
  rw [strptime, Tm.text]
  rcases h with h | h
  · rw [dec, if_pos h]
    rfl
  · obtain ⟨y, hy⟩ := Int.eq_ofNat_of_zero_le (show 0 ≤ tm.year + 1900 by omega)
    have hlong : 4 < (decNat y).length := by
      rw [← not_le, decNat, List.length_map, Nat.length_toDigits_le_iff (by decide) (by decide)]
      omega
    rw [hy, dec_natCast]
    cases hyear : getNumber 0 9999 4 (decNat y ++ _) with
    | none => rfl
    | some p =>
        obtain ⟨c, rest, hrest, hc⟩ := getNumber_long
          (fun c hc => isDigit_of_mem_decNat hc) (by decide) hlong hyear
        have h45 : c ≠ 45 := by
          rintro rfl
          exact absurd hc (by decide)
        simp only [Option.bind_eq_bind, Option.bind_some, hrest, matchChar, if_neg h45,
          Option.bind_none]

/-! ### There and back -/

variable {off : Int32} {ts : Int64}

/-- The year is one that `%Y` prints in at most four digits. -/
theorem year_iff {tm : Tm} (h : localtime (fun _ => off) ts = some tm) :
    (0 ≤ tm.year + 1900 ∧ tm.year + 1900 ≤ 9999) ↔
      -62167219200 ≤ ts.toInt + off.toInt ∧ ts.toInt + off.toInt < 253402300800 := by
  have h0 : newYear 0 = -366 := by decide
  have h1970 : newYear 1970 = 719162 := by decide
  have h10000 : newYear 10000 = 3652059 := by decide
  simp only [localtime] at h
  split at h
  · obtain rfl := Option.some.inj h
    set n := (ts.toInt + off.toInt) / 86400 + newYear 1970 with hn
    have hyear : (Date.ofNumber n).year = yearOf n := rfl
    have hlow := yearOf_lt_iff n 0
    have hhigh := yearOf_lt_iff n 10000
    simp only [hyear, sub_add_cancel]
    omega
  · cases h

theorem inRange_localtime {tm : Tm} (h : localtime (fun _ => off) ts = some tm)
    (hyear : 0 ≤ tm.year + 1900 ∧ tm.year + 1900 ≤ 9999) : tm.InRange := by
  simp only [localtime] at h
  split at h
  · obtain rfl := Option.some.inj h
    have hday := lt_of_hasDay (Date.ofNumber ((ts.toInt + off.toInt) / 86400 + newYear 1970)).valid
    simp only at hyear
    exact ⟨by simp only; omega, hday.1, ⟨Nat.le_add_left _ _, hday.2⟩, by simp only; omega,
      by simp only; omega⟩
  · cases h

/-- The minute of a time is shown like the time. -/
theorem localtime_minute {ts' : Int64} (h : ts'.toInt = ts.toInt - (ts.toInt + off.toInt) % 60) :
    localtime (fun _ => off) ts' = localtime (fun _ => off) ts := by
  have hday : (ts'.toInt + off.toInt) / 86400 = (ts.toInt + off.toInt) / 86400 := by omega
  have hhour : (ts'.toInt + off.toInt) % 86400 / 3600
      = (ts.toInt + off.toInt) % 86400 / 3600 := by omega
  have hmin : (ts'.toInt + off.toInt) % 3600 / 60 = (ts.toInt + off.toInt) % 3600 / 60 := by omega
  simp only [localtime, hday, hhour, hmin]

theorem formatTs_eq_some {s : Bytes} (h : formatTs (fun _ => off) ts = some s) :
    ∃ tm, localtime (fun _ => off) ts = some tm ∧ s = tm.text := by
  obtain ⟨tm, htm, hs⟩ := Option.bind_eq_some_iff.mp h
  rw [strftime] at hs
  split at hs
  · exact ⟨tm, htm, (Option.some.inj hs).symm⟩
  · cases hs

/-- **A date that is shown reads back** as the minute it stands for, and is
then shown as it was, if and only if its year is one of the years 0 to
9999. -/
theorem shown_date_reads_back_iff (off : Int32) (ts : Int64) {s : Bytes}
    (h : formatTs (fun _ => off) ts = some s) :
    ((parseEntryAt off s).toInt = ts.toInt - (ts.toInt + off.toInt) % 60 ∧
      formatTs (fun _ => off) (parseEntryAt off s) = some s) ↔
      -62167219200 ≤ ts.toInt + off.toInt ∧ ts.toInt + off.toInt < 253402300800 := by
  obtain ⟨tm, htm, rfl⟩ := formatTs_eq_some h
  have hoff := off.le_toInt
  rw [← year_iff htm]
  constructor
  · rintro ⟨hback, -⟩
    by_contra hyear
    -- a year of other than four digits is not read back
    have hnone : strptime tm.text = none := strptime_eq_none (by omega)
    rw [parseEntryAt, hnone] at hback
    have hminus : (-1 : Int64).toInt = -1 := by decide
    rw [hminus] at hback
    have hyears := (year_iff htm).not.mp hyear
    have hoff' := off.toInt_lt
    omega
  · intro hyear
    have hsec := seconds_localtime htm
    have hts := (year_iff htm).mp hyear
    -- the seconds are not shown, so the minute is what comes back
    have hback : (parseEntryAt off tm.text).toInt = ts.toInt - (ts.toInt + off.toInt) % 60 := by
      rw [parseEntryAt, strptime_text (inRange_localtime htm hyear)]
      simp only [ne_eq, not_true, if_false]
      have hoff' := off.toInt_lt
      simp only [mktime]
      rw [if_pos (by omega), Int64.toInt_ofInt_of_le (by omega) (by omega)]
      omega
    refine ⟨hback, ?_⟩
    rw [← h, formatTs, formatTs, localtime_minute hback]

/-- 14 November 2023, 23:13:20 in a zone an hour ahead of UTC. -/
theorem shown_date_reads_back_2023 :
    formatTs (fun _ => 3600) 1700000000 = some (lit "2023-11-14 23:13") ∧
      (parseEntryAt 3600 (lit "2023-11-14 23:13")).toInt = 1699999980 := by
  have h : formatTs (fun _ => 3600) 1700000000 = some (lit "2023-11-14 23:13") := by decide +kernel
  exact ⟨h, ((shown_date_reads_back_iff 3600 1700000000 h).mpr (by decide)).1⟩

end Diary
