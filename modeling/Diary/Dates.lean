/-
Diary/Dates.lean

Dates in the C client: `parse_entry_at` in client/main.c, and `format_ts` in
client/ui.c with its three callers.

libc is modelled as far as they use it.  `strptime` reads each number within
its own range; `mktime` takes any fields and counts on; `localtime` knows no
year beyond an `int`, and the time zone is the offset it adds.

What `--entry-at` accepts is shown as it was written exactly if the month has
the day (`entry_at_shown_iff`); and a stored timestamp is drawn exactly if
its year is an `int` (`stored_date_drawn_iff`).
-/
import Diary.Calendar
import Diary.Preview
import Diary.Selection

namespace Diary

open CString Calendar

variable {ν : Type*} {P : Proto ν} {user : Bytes}

/-! ### libc -/

/-- The fields of `struct tm` that the client uses. -/
@[ext] structure Tm where
  /-- since 1900 -/
  year : ℤ
  /-- since January -/
  mon : ℕ
  mday : ℕ
  hour : ℕ
  min : ℕ
deriving DecidableEq

/-- The digits of `get_number` in `strptime`, after the first: as many as are
left of the field, while the number stays in its range. -/
def digitsLoop (hi : ℕ) : ℕ → ℕ → Bytes → ℕ × Bytes
  | 0, val, rp => (val, rp)
  | _ + 1, val, [] => (val, [])
  | n + 1, val, c :: rp =>
      if val * 10 ≤ hi ∧ isDigit c then digitsLoop hi n (val * 10 + (c.toNat - 48)) rp
      else (val, c :: rp)

/-- `get_number`: a number of at most `n` digits, behind blanks. -/
def getNumber (lo hi n : ℕ) (rp : Bytes) : Option (ℕ × Bytes) :=
  match rp.dropWhile isSpace with
  | [] => none
  | c :: rp =>
      if isDigit c then
        let (val, rp) := digitsLoop hi (n - 1) (c.toNat - 48) rp
        if lo ≤ val ∧ val ≤ hi then some (val, rp) else none
      else none

/-- `match_char`. -/
def matchChar (ch : UInt8) : Bytes → Option Bytes
  | [] => none
  | c :: rp => if c = ch then some rp else none

/-- `strptime` with `%Y-%m-%d %H:%M`: the fields, and what is not read. -/
def strptime (s : Bytes) : Option (Tm × Bytes) := do
  let (year, rp) ← getNumber 0 9999 4 s
  let rp ← matchChar 45 rp
  let (mon, rp) ← getNumber 1 12 2 rp
  let rp ← matchChar 45 rp
  let (mday, rp) ← getNumber 1 31 2 rp
  -- the blank of the format stands for any number of blanks, also for none
  let (hour, rp) ← getNumber 0 23 2 (rp.dropWhile isSpace)
  let rp ← matchChar 58 rp
  let (min, rp) ← getNumber 0 59 2 rp
  some (⟨year - 1900, mon - 1, mday, hour, min⟩, rp)

/-- The seconds since 1970 of a local time, whatever its fields. -/
def Tm.seconds (tm : Tm) : ℤ :=
  (((dayNumber (tm.year + 1900) tm.mon 0 + tm.mday - 1 - newYear 1970) * 24 + tm.hour) * 60
    + tm.min) * 60

/-- `mktime` in a time zone `off` seconds ahead of UTC. -/
def mktime (off : Int32) (tm : Tm) : Int64 :=
  let t := tm.seconds - off.toInt
  if -2 ^ 63 ≤ t ∧ t < 2 ^ 63 then Int64.ofInt t else -1

/-- `localtime`; `none` is `NULL`. -/
def localtime (zone : Int64 → Int32) (ts : Int64) : Option Tm :=
  let t := ts.toInt + (zone ts).toInt
  let date := Date.ofNumber (t / 86400 + newYear 1970)
  if -2 ^ 31 ≤ date.year - 1900 ∧ date.year - 1900 < 2 ^ 31 then
    some ⟨date.year - 1900, date.month, date.day + 1, (t % 86400 / 3600).toNat,
      (t % 3600 / 60).toNat⟩
  else none

/-- A number below 100, in two digits. -/
def twoDigits (n : ℕ) : Bytes := [UInt8.ofNat (48 + n / 10), UInt8.ofNat (48 + n % 10)]

/-- A time as `%Y-%m-%d %H:%M` prints it.  The C library adds the 1900 in an
`int` and prints the last years wrapped; nothing depends on their digits, only
on the room they take, which is enough either way. -/
def Tm.text (tm : Tm) : Bytes :=
  dec (tm.year + 1900) ++ (45 :: twoDigits (tm.mon + 1) ++ 45 :: twoDigits tm.mday
    ++ 32 :: twoDigits tm.hour ++ 58 :: twoDigits tm.min)

/-- `strftime` with that format; `none` when the buffer is too small, which
leaves its contents undefined. -/
def strftime (size : ℕ) (tm : Tm) : Option Bytes :=
  if tm.text.length < size then some tm.text else none

/-! ### The source -/

/-- `parse_entry_at`. -/
def parseEntryAt (off : Int32) (s : Bytes) : Int64 :=
  match strptime s with
  | none => -1
  | some (tm, rest) =>
      -- the fields that `mktime` may have changed are not compared
      if rest ≠ [] then -1 else mktime off tm

/-- `format_ts`; `none` if it hands `NULL` to `strftime`, or leaves the buffer
undefined. -/
def formatTs (zone : Int64 → Int32) (ts : Int64) : Option Bytes := do
  -- the result of `localtime` is passed on without a test
  let tm ← localtime zone ts
  strftime 32 tm

/-- `%-16s`. -/
def padRight (n : ℕ) (s : Bytes) : Bytes := s ++ List.replicate (n - s.length) 32

/-- The row `screen_list` draws. -/
def listRow (zone : Int64 → Int32) (e : DiaryEntry) : Option Bytes := do
  let shown ← preview e.text
  let date ← formatTs zone e.timestamp
  some (lit "  " ++ padRight 16 date ++ lit "  " ++ shown)

/-- The title of `screen_view`. -/
def viewTitle (zone : Int64 → Int32) (e : DiaryEntry) : Option Bytes := do
  let date ← formatTs zone e.timestamp
  some (snprintf 80 (lit " Entry #" ++ dec e.id.toInt ++ lit " - " ++ date ++ lit " "))

/-- The header of `screen_editor`. -/
def editorHeader (zone : Int64 → Int32) (entryId : Int32) (timestamp : Int64) (dirty : Bool) :
    Option Bytes := do
  let date ← formatTs zone timestamp
  let mark := if dirty then lit " *" else []
  some (snprintf 128
    (if 0 < entryId.toInt then
      lit " Entry #" ++ dec entryId.toInt ++ lit " - " ++ date ++ mark ++ lit " "
    else lit " New entry - " ++ date ++ mark ++ lit " "))

/-! ### What is read -/

/-- What each conversion of `strptime` makes sure of. -/
structure Tm.InRange (tm : Tm) : Prop where
  year : -1900 ≤ tm.year ∧ tm.year < 8100
  mon : tm.mon < 12
  mday : 1 ≤ tm.mday ∧ tm.mday ≤ 31
  hour : tm.hour < 24
  min : tm.min < 60

theorem bounds_getNumber {lo hi n val : ℕ} {rp rest : Bytes}
    (h : getNumber lo hi n rp = some (val, rest)) : lo ≤ val ∧ val ≤ hi := by
  rw [getNumber] at h
  split at h
  · cases h
  split at h
  · simp only at h
    split at h
    · next hval =>
      obtain ⟨rfl, -⟩ := Prod.mk.inj (Option.some.inj h)
      exact hval
    · cases h
  · cases h

theorem inRange_strptime {s rest : Bytes} {tm : Tm} (h : strptime s = some (tm, rest)) :
    tm.InRange := by
  simp only [strptime, Option.bind_eq_bind, Option.bind_eq_some_iff, Prod.exists] at h
  obtain ⟨year, r1, hyear, r2, -, mon, r3, hmon, r4, -, mday, r5, hmday, hour, r6, hhour, r7, -,
    min, r8, hmin, htm⟩ := h
  obtain ⟨rfl, -⟩ := Prod.mk.inj (Option.some.inj htm)
  have hyear := bounds_getNumber hyear
  have hmon := bounds_getNumber hmon
  have hmday := bounds_getNumber hmday
  have hhour := bounds_getNumber hhour
  have hmin := bounds_getNumber hmin
  exact ⟨by simp only; omega, by simp only; omega, hmday, by simp only; omega, by simp only; omega⟩

/-! ### What is printed -/

theorem twoDigits_inj {m n : ℕ} (hm : m < 100) (hn : n < 100) (h : twoDigits m = twoDigits n) :
    m = n := by
  have hdigit : ∀ k, k < 10 → (UInt8.ofNat (48 + k)).toNat = 48 + k := by
    intro k hk
    rw [UInt8.toNat_ofNat', Nat.mod_eq_of_lt (by omega)]
  obtain ⟨htens, hones⟩ := List.cons.inj h
  have htens := congrArg UInt8.toNat htens
  have hones := congrArg UInt8.toNat (List.cons.inj hones).1
  rw [hdigit _ (by omega), hdigit _ (by omega)] at htens hones
  omega

/-- Times in range that are printed alike are the same. -/
theorem text_inj {a b : Tm} (ha : a.InRange) (hb : b.InRange) (h : a.text = b.text) : a = b := by
  obtain ⟨hdec, hrest⟩ := List.append_inj' h rfl
  have hyear : a.year + 1900 = b.year + 1900 := by
    have hback := fun n : ℤ => strtolVal_dec_append n stopsDigits_nil
    rw [← hback (a.year + 1900), hdec, hback]
  -- behind the year every field has its place
  have hmon : twoDigits (a.mon + 1) = twoDigits (b.mon + 1) :=
    congrArg (fun s => (s.drop 1).take 2) hrest
  have hmday : twoDigits a.mday = twoDigits b.mday := congrArg (fun s => (s.drop 4).take 2) hrest
  have hhour : twoDigits a.hour = twoDigits b.hour := congrArg (fun s => (s.drop 7).take 2) hrest
  have hmin : twoDigits a.min = twoDigits b.min := congrArg (fun s => (s.drop 10).take 2) hrest
  obtain ⟨-, hamon, hamday, hahour, hamin⟩ := ha
  obtain ⟨-, hbmon, hbmday, hbhour, hbmin⟩ := hb
  ext
  · exact add_right_cancel hyear
  · exact Nat.succ.inj (twoDigits_inj (by omega) (by omega) hmon)
  · exact twoDigits_inj (by omega) (by omega) hmday
  · exact twoDigits_inj (by omega) (by omega) hhour
  · exact twoDigits_inj (by omega) (by omega) hmin

/-- The buffer of `format_ts` has room for any year of at most ten digits. -/
theorem strftime_eq {tm : Tm} (hlow : 0 ≤ tm.year + 1900) (hhigh : tm.year + 1900 < 10 ^ 10) :
    strftime 32 tm = some tm.text := by
  have hdec : (dec (tm.year + 1900)).length ≤ 10 := by
    rw [← Int.toNat_of_nonneg hlow, dec_natCast]
    apply length_decNat_le (Nat.succ_pos 9)
    omega
  have hlen : tm.text.length = (dec (tm.year + 1900)).length + 12 := List.length_append
  rw [strftime, if_pos]
  omega

/-! ### There and back -/

theorem seconds_eq (tm : Tm) (hmday : 1 ≤ tm.mday) :
    tm.seconds = (dayNumber (tm.year + 1900) tm.mon (tm.mday - 1) - newYear 1970) * 86400
      + (tm.hour * 3600 + tm.min * 60) := by
  rw [Tm.seconds, ← dayNumber_zero_add _ _ (tm.mday - 1)]
  omega

/-- A time in range that `mktime` takes is shown with its own year, hour and
minute; month and day are those of the day it counts to. -/
theorem localtime_mktime {off : Int32} {tm : Tm} (h : tm.InRange)
    (hpos : 0 < (mktime off tm).toInt) :
    let date := Date.ofNumber (dayNumber (tm.year + 1900) tm.mon (tm.mday - 1))
    localtime (fun _ => off) (mktime off tm)
      = some ⟨tm.year, date.month, date.day + 1, tm.hour, tm.min⟩ := by
  intro date
  obtain ⟨hyear, hmon, hmday, hhour, hmin⟩ := h
  have hsec := seconds_eq tm hmday.1
  have htoInt : (mktime off tm).toInt = tm.seconds - off.toInt := by
    simp only [mktime] at hpos ⊢
    split
    · next hfits => exact Int64.toInt_ofInt_of_le hfits.1 hfits.2
    · next hfits =>
      rw [if_neg hfits] at hpos
      exact absurd hpos (by decide)
  have hdate : date.year = tm.year + 1900 := yearOf_dayNumber _ hmon (by omega)
  simp only [localtime, htoInt, sub_add_cancel]
  -- hour and minute are in range, so they do not reach into the day
  have hday : tm.seconds / 86400 + newYear 1970
      = dayNumber (tm.year + 1900) tm.mon (tm.mday - 1) := by omega
  rw [hday, show Date.ofNumber _ = date from rfl, hdate, add_sub_cancel_right, if_pos (by omega)]
  congr 2
  · omega
  · omega

/-- The fields of a time say when it is, to the minute. -/
theorem seconds_localtime {zone : Int64 → Int32} {ts : Int64} {tm : Tm}
    (h : localtime zone ts = some tm) :
    tm.seconds = ts.toInt + (zone ts).toInt - (ts.toInt + (zone ts).toInt) % 60 := by
  simp only [localtime] at h
  split at h
  · obtain rfl := Option.some.inj h
    have hnumber := Date.number_ofNumber ((ts.toInt + (zone ts).toInt) / 86400 + newYear 1970)
    rw [Date.number] at hnumber
    rw [seconds_eq _ (Nat.le_add_left _ _)]
    simp only [sub_add_cancel, Nat.add_sub_cancel, hnumber]
    omega
  · cases h

theorem exists_of_parseEntryAt_pos {off : Int32} {s : Bytes}
    (h : 0 < (parseEntryAt off s).toInt) :
    ∃ tm, strptime s = some (tm, []) ∧ parseEntryAt off s = mktime off tm := by
  have hneg : ¬ 0 < (-1 : Int64).toInt := by decide
  rw [parseEntryAt] at h ⊢
  rcases hs : strptime s with - | ⟨tm, rest⟩
  · rw [hs] at h
    exact absurd h hneg
  · simp only [hs] at h ⊢
    split at h
    · exact absurd h hneg
    · next hrest =>
      obtain rfl := not_not.mp hrest
      exact ⟨tm, rfl, if_neg hrest⟩

/-- **When `--entry-at` means the date it says.**  What is accepted is shown
with the fields it was written with if and only if the year has the month
and the month has the day. -/
theorem entry_at_shown_iff (off : Int32) (s : Bytes) (h : 0 < (parseEntryAt off s).toInt) :
    ∃ tm, strptime s = some (tm, []) ∧
      (formatTs (fun _ => off) (parseEntryAt off s) = some tm.text ↔
        HasDay (tm.year + 1900) tm.mon (tm.mday - 1)) := by
  obtain ⟨tm, hs, htm⟩ := exists_of_parseEntryAt_pos h
  refine ⟨tm, hs, ?_⟩
  rw [htm] at h ⊢
  have hrange := inRange_strptime hs
  rw [formatTs, localtime_mktime hrange h, ← Date.ofNumber_dayNumber_iff]
  set date := Date.ofNumber (dayNumber (tm.year + 1900) tm.mon (tm.mday - 1))
  -- what is shown differs from what was written in the month and the day at most
  have hbounds := lt_of_hasDay date.valid
  have hday : tm.mday - 1 < 31 := by
    have hmday := hrange.mday
    omega
  have hyear : date.year = tm.year + 1900 := yearOf_dayNumber _ hrange.mon hday
  have hshown : Tm.InRange ⟨tm.year, date.month, date.day + 1, tm.hour, tm.min⟩ :=
    ⟨hrange.year, hbounds.1, ⟨Nat.le_add_left _ _, hbounds.2⟩, hrange.hour, hrange.min⟩
  have hyears := hshown.year
  rw [Option.bind_eq_bind, Option.bind_some, strftime_eq (by omega) (by omega), Option.some.injEq]
  constructor
  · intro htext
    have heq := text_inj hshown hrange htext
    refine ⟨hyear, congrArg Tm.mon heq, ?_⟩
    rw [← congrArg Tm.mday heq]
    rfl
  · rintro ⟨-, hmon, hday⟩
    rw [hmon, hday, Nat.sub_add_cancel hrange.mday.1]

/-- 29 February 2024 is shown as it was written. -/
theorem entry_at_leap_day :
    0 < (parseEntryAt 3600 (lit "2024-2-29 9:05")).toInt ∧
      formatTs (fun _ => 3600) (parseEntryAt 3600 (lit "2024-2-29 9:05"))
        = some (lit "2024-02-29 09:05") := by
  have hpos : 0 < (parseEntryAt 3600 (lit "2024-2-29 9:05")).toInt := by decide +kernel
  obtain ⟨tm, htm, hiff⟩ := entry_at_shown_iff 3600 (lit "2024-2-29 9:05") hpos
  obtain rfl : tm = ⟨124, 1, 29, 9, 5⟩ := by
    have hread : strptime (lit "2024-2-29 9:05") = some (⟨124, 1, 29, 9, 5⟩, []) := by decide
    exact (Prod.mk.inj (Option.some.inj (htm.symm.trans hread))).1
  exact ⟨hpos, hiff.mpr ⟨29, by decide, by decide⟩⟩

/-- `--entry-at "2026-02-30 10:00"` is accepted, and becomes 2 March. -/
theorem february_30_accepted :
    strptime (lit "2026-02-30 10:00") = some (⟨126, 1, 30, 10, 0⟩, []) ∧
      0 < (parseEntryAt 0 (lit "2026-02-30 10:00")).toInt ∧
      formatTs (fun _ => 0) (parseEntryAt 0 (lit "2026-02-30 10:00"))
        = some (lit "2026-03-02 10:00") ∧
      lit "2026-03-02 10:00" ≠ Tm.text ⟨126, 1, 30, 10, 0⟩ ∧ ¬ HasDay 2026 1 29 := by
  refine ⟨by decide, by decide +kernel, by decide +kernel, by decide, ?_⟩
  rintro ⟨l, hl, hlt⟩
  obtain rfl := Option.some.inj hl
  exact absurd hlt (by decide)

/-! ### What is drawn -/

/-- The years that are an `int` since 1900 end with the second before this
one. -/
def yearsEnd : ℤ := 67768036191676800

theorem formatTs_isSome_iff (zone : Int64 → Int32) {ts : Int64} (hpos : 0 < ts.toInt) :
    (formatTs zone ts).isSome ↔ ts.toInt + (zone ts).toInt < yearsEnd := by
  have hzone := (zone ts).le_toInt
  set n := (ts.toInt + (zone ts).toInt) / 86400 + newYear 1970 with hn
  have hyear : (Date.ofNumber n).year = yearOf n := rfl
  -- no offset takes a positive time back to before 1900
  have hlow : 1900 ≤ yearOf n := by
    rw [← not_lt, yearOf_lt_iff, not_lt]
    have h1900 : newYear 1900 = 693595 := by decide
    have h1970 : newYear 1970 = 719162 := by decide
    omega
  have hhigh : yearOf n < 2 ^ 31 + 1900 ↔ ts.toInt + (zone ts).toInt < yearsEnd := by
    have hend : newYear (2 ^ 31 + 1900) = 784352989899 := by decide
    have h1970 : newYear 1970 = 719162 := by decide
    rw [yearOf_lt_iff, hend, yearsEnd]
    omega
  rw [← hhigh]
  simp only [formatTs, localtime, ← hn, hyear]
  split
  · next hint =>
    rw [Option.bind_eq_bind, Option.bind_some, strftime_eq (by simp only; omega)
      (by simp only; omega)]
    simp only [Option.isSome_some, true_iff]
    omega
  · next hint =>
    simp only [Option.bind_eq_bind, Option.bind_none, Option.isSome_none, Bool.false_eq_true,
      false_iff]
    omega

/-- An entry is drawn in the list, and opened in the viewer and the editor,
with every date complete. -/
def Draws (zone : Int64 → Int32) (e : DiaryEntry) : Prop :=
  (listRow zone e).isSome ∧ (viewTitle zone e).isSome ∧
    ∀ dirty, (editorHeader zone e.id e.timestamp dirty).isSome

theorem draws_iff (zone : Int64 → Int32) {e : DiaryEntry} (htext : 0 ∉ e.text) :
    Draws zone e ↔ (formatTs zone e.timestamp).isSome := by
  simp only [Draws, listRow, viewTitle, editorHeader, preview_eq htext, Option.bind_eq_bind,
    Option.bind_some]
  cases formatTs zone e.timestamp with
  | none => exact iff_of_false (fun h => Bool.false_ne_true h.1) Bool.false_ne_true
  | some date => exact iff_of_true ⟨rfl, rfl, fun _ => rfl⟩ rfl

theorem zero_notMem_shownText (P : Proto ν) (blob : Bytes) : 0 ∉ shownText P blob := by
  rw [shownText]
  split
  · exact zero_notMem_cstr _
  · decide

/-- What the loop of `net_get_entries` returns was split from its lines. -/
theorem mem_getRows (hP : P.Lawful) {lines : List Bytes} {arr es : List DiaryEntry}
    {unread : List Bytes} (h : getRows P lines.length arr lines = (some es, unread))
    {e : DiaryEntry} (he : e ∈ es) : e ∈ arr ∨ ∃ line ∈ lines, parseRow P line = some e := by
  induction lines generalizing arr with
  | nil =>
      obtain ⟨harr, -⟩ := Prod.mk.inj h
      exact Or.inl (Option.some.inj harr ▸ he)
  | cons line lines ih =>
      simp only [List.length_cons, getRows, hP.recvLineDyn_cons] at h
      split at h
      · cases h
      · next e' he' =>
        rcases ih h with hmem | ⟨line', hline', hsplit⟩
        · rcases List.mem_append.mp hmem with hmem | hmem
          · exact Or.inl hmem
          · obtain rfl := List.mem_singleton.mp hmem
            exact Or.inr ⟨line, List.mem_cons_self, he'⟩
        · exact Or.inr ⟨line', List.mem_cons_of_mem _ hline', hsplit⟩

/-- An entry the client has loaded is a row of the user, with a text that is
a C string. -/
theorem exists_row_of_loaded (hP : P.Lawful) {get : CallEnv ν} {db : Db} {es : List DiaryEntry}
    (hes : (netGetEntries P user get ⟨db, []⟩).2 = some es) {e : DiaryEntry} (he : e ∈ es) :
    (∃ l ∈ db.view user, e.id = l.id ∧ e.timestamp = l.ts) ∧ 0 ∉ e.text := by
  rw [netGetEntries_eq hP rfl] at hes
  simp only at hes
  split at hes
  · cases hes
  split at hes
  · cases hes
    cases he
  split at hes
  · cases hes
  · obtain ⟨arr, harr, rfl⟩ := Option.map_eq_some_iff.mp hes
    rw [← List.length_map (f := EntryLine.text)] at harr
    have hmem : e ∈ arr := (sortNewestFirst_perm arr).mem_iff.mp he
    rcases mem_getRows hP (Prod.ext harr rfl) hmem with hnil | ⟨line, hline, hsplit⟩
    · cases hnil
    · obtain ⟨l, hl, rfl⟩ := List.mem_map.mp hline
      rw [parseRow_text] at hsplit
      obtain ⟨field, -, rfl⟩ := Option.map_eq_some_iff.mp hsplit
      exact ⟨⟨l, (collect_sublist _ _).subset hl, rfl, rfl⟩, zero_notMem_shownText P _⟩

/-- The row of a POST that was acknowledged. -/
theorem view_of_posted {post : Env} {p : Bytes} {db db' : Db} {id : Int32}
    (hok : serve db ⟨user, post, lit "POST " ++ p⟩ = (db', .okId id)) :
    db'.view user
      = db.view user ++ [⟨id, (postFields post.now p).1, (postFields post.now p).2⟩] := by
  generalize hreply : Reply.okId id = reply at hok
  cases effect_of_serve hok with
  | post hline hroom =>
      rw [parseLine_post] at hline
      obtain ⟨rfl, rfl⟩ := Command.post.inj hline
      split at hreply
      · cases hreply
      · obtain rfl := Reply.okId.inj hreply
        rw [view_insert, if_pos rfl]
  | update | delete | get | bye | fail => cases hreply

theorem fst_postFields {now : Int64} {p : Bytes} (hspace : 32 ∈ p) (hts : 0 < (atol p).toInt) :
    (postFields now p).1 = atol p := by
  rw [postFields]
  cases hsp : strchr p 32 with
  | none => exact absurd (List.findIdx?_eq_none_iff.mp hsp 32 hspace) (by decide)
  | some sp => simp only [if_pos hts]

/-- **When a stored date can be drawn.**  The entry of a POST with a positive
timestamp, once `net_get_entries` has returned it, is drawn in the list and
opened in the viewer and the editor if and only if the timestamp, at the
time zone's offset, is before the end of the years. -/
theorem stored_date_drawn_iff (hP : P.Lawful) (zone : Int64 → Int32) (user p : Bytes)
    (hspace : 32 ∈ p) (hts : 0 < (atol p).toInt) {post : Env} {db db' : Db} {id : Int32}
    (hok : serve db ⟨user, post, lit "POST " ++ p⟩ = (db', .okId id))
    (hnew : ∀ l ∈ db.view user, l.id ≠ id) {get : CallEnv ν} {es : List DiaryEntry}
    (hes : (netGetEntries P user get ⟨db', []⟩).2 = some es) {e : DiaryEntry} (he : e ∈ es)
    (hid : e.id = id) :
    e.timestamp = atol p ∧
      (Draws zone e ↔ (atol p).toInt + (zone (atol p)).toInt < yearsEnd) := by
  obtain ⟨⟨l, hl, heid, hets⟩, htext⟩ := exists_row_of_loaded hP hes he
  have htime : e.timestamp = atol p := by
    rw [view_of_posted hok, fst_postFields hspace hts] at hl
    rcases List.mem_append.mp hl with hold | hlast
    · exact absurd (heid.symm.trans hid) (hnew l hold)
    · rw [hets, List.mem_singleton.mp hlast]
  refine ⟨htime, ?_⟩
  rw [draws_iff zone htext, htime, formatTs_isSome_iff zone hts]

/-- A user's only row, if it is sealed, is loaded. -/
theorem netGetEntries_single (hP : P.Lawful) {get : CallEnv ν} (hget : get.Allocates) {db : Db}
    (hids : db.entries.seq < 2 ^ 31) {l : EntryLine} (hview : db.view user = [l])
    (hl : l.Sealed) : (netGetEntries P user get ⟨db, []⟩).2 = some [l.shown P] := by
  have hcount : (db.view user).length ≤ maxEntries := by
    rw [hview]
    exact Nat.le_add_left 1 _
  rw [netGetEntries_of_sealed hP hget hids hcount (by rw [hview]; simpa using hl), hview,
    List.map_singleton, sortNewestFirst, List.mergeSort_singleton]

/-- An entry of the year 1970 is drawn. -/
theorem stored_date_drawn_1970 :
    let db := (serve Db.fresh
      ⟨lit "alice", ⟨0, true, true, []⟩, lit "POST 5 c2VhbGVkaGk="⟩).1
    let e : DiaryEntry := ⟨1, 5, lit "aGk="⟩
    (netGetEntries taggingProto (lit "alice") hiEnv ⟨db, []⟩).2 = some [e] ∧
      Draws (fun _ => 0) e := by
  intro db e
  have hes : (netGetEntries taggingProto (lit "alice") hiEnv ⟨db, []⟩).2 = some [e] :=
    netGetEntries_single taggingProto_lawful hiEnv_allocates (by decide)
      (l := ⟨1, 5, lit "c2VhbGVkaGk="⟩) (by decide) ⟨by decide, by decide⟩
  have hok : serve Db.fresh ⟨lit "alice", ⟨0, true, true, []⟩,
      lit "POST " ++ lit "5 c2VhbGVkaGk="⟩ = (db, .okId 1) := rfl
  have hdrawn := stored_date_drawn_iff taggingProto_lawful (fun _ => 0) (lit "alice")
    (lit "5 c2VhbGVkaGk=") (by decide) (by decide) hok nofun hes (List.mem_singleton_self e) rfl
  exact ⟨hes, hdrawn.2.mpr (by decide)⟩

/-- `POST 9223372036854775807`: the row is stored and returned, and
`localtime` has no fields for it. -/
theorem last_second_not_drawn :
    let post := serve Db.fresh ⟨lit "alice", ⟨0, true, true, []⟩,
      lit "POST 9223372036854775807 c2VhbGVkaGk="⟩
    let e : DiaryEntry := ⟨1, 9223372036854775807, lit "aGk="⟩
    post.2 = .okId 1 ∧
      (netGetEntries taggingProto (lit "alice") hiEnv ⟨post.1, []⟩).2 = some [e] ∧
      localtime (fun _ => 0) e.timestamp = none ∧ ¬ Draws (fun _ => 0) e := by
  intro post e
  have hzero : localtime (fun _ => 0) e.timestamp = none := by decide +kernel
  refine ⟨by decide, ?_, hzero, ?_⟩
  · exact netGetEntries_single taggingProto_lawful hiEnv_allocates (by decide)
      (l := ⟨1, 9223372036854775807, lit "c2VhbGVkaGk="⟩) (by decide) ⟨by decide, by decide⟩
  · rw [draws_iff _ (by decide), formatTs, hzero]
    exact Bool.false_ne_true

end Diary
