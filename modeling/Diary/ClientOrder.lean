/-
Diary/ClientOrder.lean

The list both clients make of one GET reply: the C client's
`net_get_entries`, and the Android client's `DiaryConnection.getEntries`
followed by the sort in `MainActivity.loadEntries`.

The reply is any header and rows as the server prints them.  The two
parsers agree on them (`receiveEntries_rows`, `androidGetEntries_rows_iff`).
The two sorts do not quite: newest first in both, but the C client puts the
higher of two ids with one timestamp first, and the Android client leaves
such rows in the order they came, which is by ascending id.  So the clients
show the same order exactly if no two rows have one timestamp
(`same_order_iff`).

A line is bytes here and a `String` in Java; for the digits, the blanks and
the base64 of a row that makes no difference.
-/
import Diary.Entries
import Diary.RowIds

namespace Diary

open CString

variable {ν : Type*} {P : Proto ν}

/-! ### The C client's half of a GET -/

/-- `net_get_entries` behind its request. -/
def receiveEntries (P : Proto ν) (calloc : Bool) (unread : List Bytes) :
    List Bytes × Option (List DiaryEntry) :=
  match P.recvLine 64 unread with
  | (none, unread) => (unread, none)
  | (some hdr, unread) =>
      if (lit "ENTRIES ").isPrefixOf hdr then
        let n := atoi (hdr.drop 8)
        if n.toInt ≤ 0 then (unread, some [])
        else if calloc = false then (unread, none)
        else
          let (arr, unread) := getRows P n.toNatClampNeg [] unread
          (unread, arr.map sortNewestFirst)
      else (unread, none)

theorem netGetEntries_eq_receive (P : Proto ν) (user : Bytes) (env : CallEnv ν) (w : World) :
    netGetEntries P user env w
      = let w := w.send env.server user (lit "GET")
        ({ w with unread := (receiveEntries P env.calloc w.unread).1 },
          (receiveEntries P env.calloc w.unread).2) := by
  simp only [netGetEntries, receiveEntries]
  rcases P.recvLine 64 (w.send env.server user (lit "GET")).unread with ⟨- | hdr, unread⟩
  · rfl
  · simp only
    split
    · split
      · rfl
      · split <;> rfl
    · rfl

/-! ### The Android client -/

/-- What `Integer.parseInt` and `Long.parseLong` make of a string: an
optional sign and digits, nothing else, in the range of the type. -/
def parseDecimal (lo hi : ℤ) (s : Bytes) : Option ℤ :=
  let digits := if s.head? = some 45 ∨ s.head? = some 43 then s.tail else s
  if digits = [] ∨ digits.all isDigit = false then none
  else
    let v : ℤ := if s.head? = some 45 then -(digitsVal digits : ℤ) else digitsVal digits
    if lo ≤ v ∧ v ≤ hi then some v else none

/-- `Integer.parseInt`; `none` is a `NumberFormatException`. -/
def parseInt (s : Bytes) : Option Int32 :=
  (parseDecimal (-2 ^ 31) (2 ^ 31 - 1) s).map Int32.ofInt

/-- `Long.parseLong`. -/
def parseLong (s : Bytes) : Option Int64 :=
  (parseDecimal (-2 ^ 63) (2 ^ 63 - 1) s).map Int64.ofInt

/-- `String.trim`. -/
def trim (s : Bytes) : Bytes :=
  ((s.dropWhile (· ≤ 32)).reverse.dropWhile (· ≤ 32)).reverse

/-- `line.indexOf(' ', start)`; `none` is -1. -/
def indexOfBlank (line : Bytes) (start : ℕ) : Option ℕ :=
  (strchr (line.drop start) 32).map (start + ·)

section Android

variable {ε : Type*} (entry : Int32 → Int64 → Bytes → Option ε)

/-- The body of the loop of `getEntries`: what is added to the list for a
line, `entry` being what `Crypto.unsealFromBase64` and the constructor make of
its fields.  A line without two blanks is skipped (`some none`); `none` is an
exception. -/
def readEntry (line : Bytes) : Option (Option ε) :=
  match indexOfBlank line 0 with
  | none => some none
  | some s1 =>
      match indexOfBlank line (s1 + 1) with
      | none => some none
      | some s2 =>
          match parseInt (line.take s1), parseLong ((line.take s2).drop (s1 + 1)) with
          | some id, some ts => (entry id ts (line.drop (s2 + 1))).map some
          | _, _ => none

/-- The loop of `getEntries`, with the rows still to come, the entries so
far and the lines unread; a connection that ends throws. -/
def readRows : ℕ → List ε → List Bytes → Option (List ε)
  | 0, entries, _ => some entries
  | _ + 1, _, [] => none
  | n + 1, entries, line :: unread =>
      match readEntry entry line with
      | none => none
      | some e => readRows n (entries ++ e.toList) unread

/-- `DiaryConnection.getEntries` on the lines of a reply; `none` is an
exception. -/
def androidGetEntries : List Bytes → Option (List ε)
  | [] => none
  | header :: unread =>
      if (lit "ENTRIES ").isPrefixOf header then
        match parseInt (trim (header.drop 8)) with
        | none => none
        | some count =>
            if count.toInt < 0 then none else readRows entry count.toNatClampNeg [] unread
      else none

end Android

/-- The entry of a blob: `Crypto.unsealFromBase64`, a parameter, throws (`none`)
or returns null (`some none`) or the text. -/
def newEntry (unsealFromBase64 : Bytes → Option (Option Bytes)) (id : Int32) (ts : Int64)
    (b64 : Bytes) : Option DiaryEntry :=
  (unsealFromBase64 b64).map fun text => ⟨id, ts, text.getD couldNotDecrypt⟩

/-- `Long.compare`. -/
def longCompare (x y : Int64) : Int32 := if x < y then -1 else if x = y then 0 else 1

/-- `list.sort((a, b) -> Long.compare(b.timestamp, a.timestamp))`, which is
stable. -/
def sortByTimestamp (list : List DiaryEntry) : List DiaryEntry :=
  list.mergeSort fun a b => (longCompare b.timestamp a.timestamp).toInt ≤ 0

/-! ### Printed numbers are read back -/

theorem all_isDigit_decNat (n : ℕ) : (decNat n).all isDigit = true :=
  List.all_eq_true.mpr fun _ hc => isDigit_of_mem_decNat hc

theorem digitsVal_decNat (n : ℕ) : digitsVal (decNat n) = n := by
  simpa using digitsVal_decNat_append n stopsDigits_nil

theorem head?_decNat {n : ℕ} {c : UInt8} (hc : isDigit c = false) :
    (decNat n).head? ≠ some c := by
  intro h
  have hmem := isDigit_of_mem_decNat (List.mem_of_mem_head? h)
  rw [hc] at hmem
  cases hmem

theorem parseDecimal_dec {lo hi n : ℤ} (hlo : lo ≤ n) (hhi : n ≤ hi) :
    parseDecimal lo hi (dec n) = some n := by
  by_cases hneg : n < 0
  · have hval : -((digitsVal (decNat n.natAbs) : ℕ) : ℤ) = n := by
      rw [digitsVal_decNat]
      omega
    simp only [parseDecimal, dec, if_pos hneg, List.head?_cons, List.tail_cons, true_or, if_true,
      decNat_ne_nil, all_isDigit_decNat, Bool.true_eq_false, or_self, if_false, hval, hlo, hhi,
      and_self]
  · have hval : ((digitsVal (decNat n.natAbs) : ℕ) : ℤ) = n := by
      rw [digitsVal_decNat]
      omega
    have hminus := head?_decNat (n := n.natAbs) (c := 45) rfl
    have hplus := head?_decNat (n := n.natAbs) (c := 43) rfl
    simp only [parseDecimal, dec, if_neg hneg, hminus, hplus, or_self, if_false,
      decNat_ne_nil, all_isDigit_decNat, Bool.true_eq_false, hval, hlo, hhi, and_self, if_true]

theorem parseInt_dec (x : Int32) : parseInt (dec x.toInt) = some x := by
  have hlo := Int32.le_toInt x
  have hhi := Int32.toInt_lt x
  rw [parseInt, parseDecimal_dec (by omega) (by omega), Option.map_some, Int32.ofInt_toInt]

theorem parseLong_dec (x : Int64) : parseLong (dec x.toInt) = some x := by
  have hlo := Int64.le_toInt x
  have hhi := Int64.toInt_lt x
  rw [parseLong, parseDecimal_dec (by omega) (by omega), Option.map_some, Int64.ofInt_toInt]

theorem trim_of_forall {s : Bytes} (h : ∀ c ∈ s, ¬ c ≤ 32) : trim s = s := by
  have hdrop : ∀ t : Bytes, (∀ c ∈ t, ¬ c ≤ 32) → t.dropWhile (· ≤ 32) = t := by
    intro t ht
    cases t with
    | nil => rfl
    | cons c t => exact List.dropWhile_cons_of_neg (by simpa using ht c (by simp))
  rw [trim, hdrop s h, hdrop s.reverse fun c hc => h c (List.mem_reverse.mp hc),
    List.reverse_reverse]

theorem trim_dec (n : ℤ) : trim (dec n) = dec n := by
  refine trim_of_forall fun c hc hle => ?_
  have hlt : c < 45 := UInt8.lt_of_le_of_lt hle (by decide)
  have hdigit : isDigit c = false := by
    rw [isDigit, decide_eq_false (UInt8.not_le.mpr (UInt8.lt_trans hlt (by decide))),
      Bool.false_and]
  exact notMem_dec hdigit (UInt8.ne_of_lt hlt) hc

/-! ### The parsers agree -/

/-- What the Android client makes of a row. -/
def EntryLine.MakesEntry {ε : Type*} (entry : Int32 → Int64 → Bytes → Option ε) (l : EntryLine)
    (e : ε) : Prop :=
  entry l.id l.ts l.data = some e

/-- The two blanks `indexOf` finds in a row are the ones `%d %ld %s` printed. -/
theorem row_fields (l : EntryLine) :
    ∃ s1 s2, indexOfBlank l.row 0 = some s1 ∧ indexOfBlank l.row (s1 + 1) = some s2 ∧
      parseInt (l.row.take s1) = some l.id ∧
      parseLong ((l.row.take s2).drop (s1 + 1)) = some l.ts ∧ l.row.drop (s2 + 1) = l.data := by
  obtain ⟨id, ts, data⟩ := l
  have hidsp : (32 : UInt8) ∉ dec id.toInt := notMem_dec rfl (by decide)
  have htssp : (32 : UInt8) ∉ dec ts.toInt := notMem_dec rfl (by decide)
  show ∃ s1 s2, indexOfBlank (dec id.toInt ++ 32 :: (dec ts.toInt ++ 32 :: data)) 0 = some s1 ∧ _
  set row : Bytes := dec id.toInt ++ 32 :: (dec ts.toInt ++ 32 :: data) with hrow
  have hdrop : row.drop ((dec id.toInt).length + 1) = dec ts.toInt ++ 32 :: data := by
    rw [hrow, ← List.drop_drop, List.drop_left, List.drop_succ_cons, List.drop_zero]
  -- no blank in a number, so the first two blanks are the separators
  have h1 : indexOfBlank row 0 = some (dec id.toInt).length := by
    rw [indexOfBlank, List.drop_zero, hrow, strchr_append hidsp, Option.map_some, zero_add]
  have h2 : indexOfBlank row ((dec id.toInt).length + 1)
      = some ((dec id.toInt).length + 1 + (dec ts.toInt).length) := by
    rw [indexOfBlank, hdrop, strchr_append htssp, Option.map_some]
  have htake : row.take (dec id.toInt).length = dec id.toInt := List.take_left
  have hmid : (row.take ((dec id.toInt).length + 1 + (dec ts.toInt).length)).drop
      ((dec id.toInt).length + 1) = dec ts.toInt := by
    rw [List.drop_take, hdrop, Nat.add_sub_cancel_left, List.take_left]
  have hdata : row.drop ((dec id.toInt).length + 1 + (dec ts.toInt).length + 1) = data := by
    rw [add_assoc _ _ 1, ← List.drop_drop, hdrop, ← List.drop_drop, List.drop_left,
      List.drop_succ_cons, List.drop_zero]
  refine ⟨_, _, h1, h2, ?_, ?_, hdata⟩
  · exact (congrArg parseInt htake).trans (parseInt_dec id)
  · exact (congrArg parseLong hmid).trans (parseLong_dec ts)

theorem readEntry_row {ε : Type*} (entry : Int32 → Int64 → Bytes → Option ε) (l : EntryLine) :
    readEntry entry l.row = (entry l.id l.ts l.data).map some := by
  obtain ⟨s1, s2, h1, h2, hid, hts, hdata⟩ := row_fields l
  simp only [readEntry, h1, h2, hid, hts, hdata]

theorem readRows_rows_iff {ε : Type*} (entry : Int32 → Int64 → Bytes → Option ε)
    (rows : List EntryLine) (entries es : List ε) :
    readRows entry rows.length entries (rows.map EntryLine.row) = some es ↔
      ∃ list, es = entries ++ list ∧ List.Forall₂ (EntryLine.MakesEntry entry) rows list := by
  induction rows generalizing entries with
  | nil =>
      simp only [List.forall₂_nil_left_iff, exists_eq_right, List.append_nil]
      show some entries = some es ↔ _
      rw [Option.some.injEq, eq_comm]
  | cons l rows ih =>
      simp only [List.length_cons, List.map_cons, readRows, readEntry_row]
      rcases hopen : entry l.id l.ts l.data with - | e
      · -- one entry that is not made fails the whole list
        refine iff_of_false nofun ?_
        rintro ⟨list, -, hlist⟩
        obtain ⟨e, -, he, -⟩ := List.forall₂_cons_left_iff.mp hlist
        rw [EntryLine.MakesEntry, hopen] at he
        cases he
      · show readRows entry rows.length (entries ++ [e]) (rows.map EntryLine.row) = _ ↔ _
        rw [ih]
        constructor
        · rintro ⟨list, rfl, hlist⟩
          exact ⟨e :: list, by rw [List.append_assoc]; rfl, List.Forall₂.cons hopen hlist⟩
        · rintro ⟨list', rfl, hlist'⟩
          obtain ⟨e', list, he', hlist, rfl⟩ := List.forall₂_cons_left_iff.mp hlist'
          obtain rfl : e = e' := Option.some.inj (hopen.symm.trans he')
          exact ⟨list, by rw [List.append_assoc]; rfl, hlist⟩

/-- A reply to a GET: the header, and a row line for each row. -/
def getReply (rows : List EntryLine) : List Bytes :=
  (lit "ENTRIES " ++ dec rows.length) :: rows.map EntryLine.row

/-- The lines the server sends in reply to a GET. -/
theorem lines_serve_getReply {user : Bytes} {env : Env} {db : Db} (hcalloc : env.calloc = true)
    (htext : ∀ l ∈ db.view user, l.text = l.row) :
    (serve db ⟨user, env, lit "GET"⟩).2.lines = getReply (collect env.malloc (db.view user)) := by
  have hlen := length_collect_le env.malloc (db.view user)
  have hrows : ∀ l ∈ collect env.malloc (db.view user), l.text = l.row := fun l hl =>
    htext l ((collect_sublist _ _).subset hl)
  rw [serve_eq, parseLine_get rfl]
  simp only [perform, hcalloc, Bool.true_eq_false, if_false, storageGetEntries_collectEntry]
  rw [Reply.lines, entries_header hlen, getReply, List.map_congr_left hrows]

/-- The count in a header is read back as it was printed. -/
theorem parseInt_count {n : ℕ} (hn : n < 2 ^ 31) :
    parseInt (trim (dec n)) = some (rowidToInt n) := by
  rw [trim_dec, ← toInt_rowidToInt hn]
  exact parseInt_dec _

/-- The Android client reads a reply as one entry for each row, unless a row
throws. -/
theorem androidGetEntries_rows_iff {ε : Type*} (entry : Int32 → Int64 → Bytes → Option ε)
    {rows : List EntryLine} (hlen : rows.length < 2 ^ 31) (list : List ε) :
    androidGetEntries entry (getReply rows) = some list ↔
      List.Forall₂ (EntryLine.MakesEntry entry) rows list := by
  have hdrop : (lit "ENTRIES " ++ dec rows.length).drop 8 = dec rows.length := rfl
  have hnonneg : ¬ (rowidToInt rows.length).toInt < 0 := rowidToInt_not_neg hlen
  rw [getReply, androidGetEntries, if_pos (isPrefixOf_entries _), hdrop, parseInt_count hlen]
  simp only [if_neg hnonneg, toNatClampNeg_rowidToInt hlen]
  rw [readRows_rows_iff]
  simp only [List.nil_append, exists_eq_left']

theorem receiveEntries_rows (hP : P.Lawful) {rows : List EntryLine} (hlen : rows.length < 2 ^ 31)
    (hrows : ∀ l ∈ rows, 0 < l.id.toInt ∧ l.Sealed) :
    receiveEntries P true (getReply rows)
      = ([], some (sortNewestFirst (rows.map (EntryLine.shown P)))) := by
  have hint := toInt_rowidToInt hlen
  have hdrop : (lit "ENTRIES " ++ dec rows.length).drop 8 = dec rows.length := rfl
  have hcount : atoi (dec rows.length) = rowidToInt rows.length := by
    rw [← hint]
    exact atoi_dec _
  have hhdr : (lit "ENTRIES " ++ dec rows.length).length < 64 := by
    have hdec : (dec rows.length).length ≤ 10 := by
      rw [← hint]
      exact length_dec_int_le (not_lt.mp (rowidToInt_not_neg hlen))
    have hlit : (lit "ENTRIES ").length = 8 := rfl
    rw [List.length_append]
    omega
  -- every row splits into its three fields
  have hparse : (rows.map EntryLine.row).map (parseRow P)
      = (rows.map (EntryLine.shown P)).map some := by
    rw [List.map_map, List.map_map]
    refine List.map_congr_left fun l hl => ?_
    obtain ⟨hid, hne, hsp⟩ := hrows l hl
    have hsplit := parseRow_text P l
    rw [text_eq_row hid.le, sentData_eq hid.le] at hsplit
    exact hsplit.trans (split_of_no_space hne hsp)
  have hget := getRows_of_forall hP hparse []
  rw [List.length_map, List.nil_append] at hget
  simp only [receiveEntries, getReply, hP.recvLine_fits hhdr, isPrefixOf_entries, if_true, hdrop,
    hcount, hint, toNatClampNeg_rowidToInt hlen]
  cases rows with
  | nil => simp [sortNewestFirst]
  | cons l rows =>
      have hpos : ¬ ((l :: rows).length : ℤ) ≤ 0 := by simp
      simp only [if_neg hpos, hget]
      rfl

/-! ### Two sorts of one list -/

section Sorts

variable {α : Type*} {le le' : α → α → Bool} {l : List α}

/-- A stable sort that gives the result of a second sort leaves no pair in an
order the second would not have left it in. -/
theorem le_of_mergeSort_eq (trans : ∀ a b c, le a b = true → le b c = true → le a c = true)
    (total : ∀ a b, (le a b || le b a) = true)
    (trans' : ∀ a b c, le' a b = true → le' b c = true → le' a c = true)
    (total' : ∀ a b, (le' a b || le' b a) = true) (h : l.mergeSort le' = l.mergeSort le)
    {a b : α} (hab : [a, b].Sublist l) (hle : le a b = true) : le' a b = true := by
  have hsorted := List.pairwise_mergeSort trans' total' l
  rw [h] at hsorted
  exact List.pairwise_iff_forall_sublist.mp hsorted
    (List.pair_sublist_mergeSort trans total hle hab)

/-- Two sorts, the second a refinement of the first, agree on a list without
ties. -/
theorem mergeSort_eq_of_no_ties (trans : ∀ a b c, le a b = true → le b c = true → le a c = true)
    (total : ∀ a b, (le a b || le b a) = true)
    (trans' : ∀ a b c, le' a b = true → le' b c = true → le' a c = true)
    (total' : ∀ a b, (le' a b || le' b a) = true)
    (hrefines : ∀ a b, le' a b = true → le a b = true)
    (hties : ∀ a ∈ l, ∀ b ∈ l, le a b = true → le b a = true → a = b) :
    l.mergeSort le' = l.mergeSort le := by
  have hperm := (List.mergeSort_perm l le').trans (List.mergeSort_perm l le).symm
  refine hperm.eq_of_pairwise ?_ ((List.pairwise_mergeSort trans' total' l).imp (hrefines _ _))
    (List.pairwise_mergeSort trans total l)
  intro a b ha hb
  exact hties a ((List.mergeSort_perm l le').mem_iff.mp ha) b
    ((List.mergeSort_perm l le).mem_iff.mp hb)

end Sorts

/-! ### The two orders -/

/-- What a row of the list is known by. -/
def DiaryEntry.pair (e : DiaryEntry) : Int32 × Int64 := (e.id, e.timestamp)

/-- Newest first, and the higher id first among equals. -/
def newestFirst (a b : Int32 × Int64) : Bool :=
  b.2.toInt < a.2.toInt || (a.2.toInt = b.2.toInt && b.1.toInt ≤ a.1.toInt)

/-- Newest first. -/
def newer (a b : Int32 × Int64) : Bool := b.2.toInt ≤ a.2.toInt

theorem newestFirst_iff {a b : Int32 × Int64} : newestFirst a b = true ↔
    b.2.toInt < a.2.toInt ∨ a.2.toInt = b.2.toInt ∧ b.1.toInt ≤ a.1.toInt := by
  simp [newestFirst]

theorem newer_iff {a b : Int32 × Int64} : newer a b = true ↔ b.2.toInt ≤ a.2.toInt := by
  simp [newer]

/-- Of positive ids the difference is an `int`. -/
theorem toInt_id_sub {a b : Int32} (ha : 0 < a.toInt) (hb : 0 < b.toInt) :
    (b - a).toInt = b.toInt - a.toInt := by
  have ha' := Int32.toInt_lt a
  have hb' := Int32.toInt_lt b
  rw [Int32.toInt_sub]
  exact Int.bmod_eq_of_le (by omega) (by omega)

/-- What the C comparison returns, of positive ids. -/
theorem toInt_entryCmp {a b : DiaryEntry} (ha : 0 < a.id.toInt) (hb : 0 < b.id.toInt) :
    (entryCmpNewestFirst a b).toInt
      = if a.timestamp.toInt = b.timestamp.toInt then b.id.toInt - a.id.toInt
        else if a.timestamp.toInt < b.timestamp.toInt then 1 else -1 := by
  rw [entryCmpNewestFirst]
  by_cases hts : a.timestamp = b.timestamp
  · rw [if_neg (not_not.mpr hts), if_pos (congrArg Int64.toInt hts), toInt_id_sub ha hb]
  · rw [if_pos hts, if_neg (mt Int64.toInt_inj.mp hts)]
    by_cases hlt : a.timestamp < b.timestamp
    · rw [if_pos hlt, if_pos (Int64.lt_iff_toInt_lt.mp hlt)]
      rfl
    · rw [if_neg hlt, if_neg (mt Int64.lt_iff_toInt_lt.mpr hlt)]
      rfl

/-- The C comparison is the order of the pairs. -/
theorem entryCmp_le_eq {a b : DiaryEntry} (ha : 0 < a.id.toInt) (hb : 0 < b.id.toInt) :
    decide ((entryCmpNewestFirst a b).toInt ≤ 0) = newestFirst a.pair b.pair := by
  rw [Bool.eq_iff_iff, decide_eq_true_iff, newestFirst_iff, toInt_entryCmp ha hb]
  simp only [DiaryEntry.pair]
  omega

/-- The Java comparison. -/
theorem longCompare_le_eq (a b : DiaryEntry) :
    decide ((longCompare b.timestamp a.timestamp).toInt ≤ 0) = newer a.pair b.pair := by
  rw [Bool.eq_iff_iff, decide_eq_true_iff, newer_iff, longCompare]
  simp only [DiaryEntry.pair]
  split
  · next hlt =>
    have hlt' := Int64.lt_iff_toInt_lt.mp hlt
    exact iff_of_true (by decide) hlt'.le
  split
  · next heq => exact iff_of_true (by decide) (by rw [heq])
  · next hge hne =>
    have hge' := mt Int64.lt_iff_toInt_lt.mpr hge
    have hne' : b.timestamp.toInt ≠ a.timestamp.toInt := mt Int64.toInt_inj.mp hne
    refine iff_of_false (by decide) ?_
    omega

theorem newestFirst_trans (a b c : Int32 × Int64) (hab : newestFirst a b = true)
    (hbc : newestFirst b c = true) : newestFirst a c = true := by
  rw [newestFirst_iff] at hab hbc ⊢
  omega

theorem newestFirst_total (a b : Int32 × Int64) :
    (newestFirst a b || newestFirst b a) = true := by
  rw [Bool.or_eq_true, newestFirst_iff, newestFirst_iff]
  omega

theorem newer_trans (a b c : Int32 × Int64) (hab : newer a b = true) (hbc : newer b c = true) :
    newer a c = true := by
  rw [newer_iff] at hab hbc ⊢
  omega

theorem newer_total (a b : Int32 × Int64) : (newer a b || newer b a) = true := by
  rw [Bool.or_eq_true, newer_iff, newer_iff]
  omega

/-- The pairs the C client shows. -/
theorem map_pair_sortNewestFirst {es : List DiaryEntry} (h : ∀ e ∈ es, 0 < e.id.toInt) :
    (sortNewestFirst es).map DiaryEntry.pair
      = (es.map DiaryEntry.pair).mergeSort newestFirst :=
  List.map_mergeSort fun a ha b hb => entryCmp_le_eq (h a ha) (h b hb)

/-- The pairs the Android client shows. -/
theorem map_pair_sortByTimestamp (es : List DiaryEntry) :
    (sortByTimestamp es).map DiaryEntry.pair = (es.map DiaryEntry.pair).mergeSort newer :=
  List.map_mergeSort fun a _ b _ => longCompare_le_eq a b

/-- Rows in ascending id order are shown alike iff no two have one
timestamp. -/
theorem mergeSort_newestFirst_eq_iff {ps : List (Int32 × Int64)}
    (hasc : ps.Pairwise fun a b => a.1.toInt < b.1.toInt) :
    ps.mergeSort newestFirst = ps.mergeSort newer ↔ ps.Pairwise fun a b => a.2 ≠ b.2 := by
  constructor
  · intro heq
    refine List.pairwise_iff_forall_sublist.mpr fun {a b} hab hts => ?_
    have hid := List.pairwise_iff_forall_sublist.mp hasc hab
    have hle := le_of_mergeSort_eq newer_trans newer_total newestFirst_trans newestFirst_total heq
      hab (newer_iff.mpr (by rw [hts]))
    -- the higher id comes second, and the C client wants it first
    rw [newestFirst_iff, hts] at hle
    omega
  · intro hdiff
    refine mergeSort_eq_of_no_ties newer_trans newer_total newestFirst_trans newestFirst_total ?_ ?_
    · intro a b hab
      rw [newestFirst_iff] at hab
      rw [newer_iff]
      omega
    · intro a ha b hb hab hba
      rw [newer_iff] at hab hba
      have hts : a.2 = b.2 := Int64.toInt_inj.mp (by omega)
      have : Std.Symm fun a b : Int32 × Int64 => a.2 ≠ b.2 := ⟨fun _ _ h => h.symm⟩
      by_contra hne
      exact hdiff.forall ha hb hne hts

/-! ### One reply, two clients -/

/-- A row as a client of ours wrote it: a positive id, and base64. -/
def EntryLine.WellFormed (l : EntryLine) : Prop := 0 < l.id.toInt ∧ l.Sealed

/-- Distinct positive ids are fewer than `2^31`. -/
theorem length_lt_of_nodup {rows : List EntryLine} (hpos : ∀ l ∈ rows, 0 < l.id.toInt)
    (hnodup : (rows.map EntryLine.id).Nodup) : rows.length < 2 ^ 31 := by
  have hids : ((rows.map EntryLine.id).map Int32.toInt).Nodup :=
    hnodup.map fun _ _ h => Int32.toInt_inj.mp h
  have hsub : ((rows.map EntryLine.id).map Int32.toInt).toFinset ⊆ Finset.Icc 1 (2 ^ 31 - 1) := by
    intro k hk
    rw [List.mem_toFinset, List.map_map] at hk
    obtain ⟨l, hl, rfl⟩ := List.mem_map.mp hk
    have h1 := hpos l hl
    have h2 := Int32.toInt_lt l.id
    exact Finset.mem_Icc.mpr ⟨h1, Int.le_sub_one_of_lt h2⟩
  have hcard := Finset.card_le_card hsub
  rw [List.toFinset_card_of_nodup hids, List.length_map, List.length_map, Int.card_Icc] at hcard
  omega

theorem length_lt_of_ascending {rows : List EntryLine} (hpos : ∀ l ∈ rows, 0 < l.id.toInt)
    (hasc : rows.Pairwise fun l m => l.id.toInt < m.id.toInt) : rows.length < 2 ^ 31 := by
  refine length_lt_of_nodup hpos (List.pairwise_map.mpr (hasc.imp fun h heq => ?_))
  rw [heq] at h
  exact lt_irrefl _ h

theorem map_pair_shown (P : Proto ν) (rows : List EntryLine) :
    (rows.map (EntryLine.shown P)).map DiaryEntry.pair = rows.map fun l => (l.id, l.ts) := by
  rw [List.map_map]
  rfl

/-- Whatever is opened, an entry has the id and the timestamp of its row. -/
theorem map_pair_newEntry {unsealFromBase64 : Bytes → Option (Option Bytes)}
    {rows : List EntryLine} {list : List DiaryEntry}
    (h : List.Forall₂ (EntryLine.MakesEntry (newEntry unsealFromBase64)) rows list) :
    list.map DiaryEntry.pair = rows.map fun l => (l.id, l.ts) := by
  induction h with
  | nil => rfl
  | cons hmakes _ ih =>
      obtain ⟨text, -, rfl⟩ := Option.map_eq_some_iff.mp hmakes
      rw [List.map_cons, List.map_cons, ih]
      rfl

theorem same_pairs_iff (P : Proto ν) {unsealFromBase64 : Bytes → Option (Option Bytes)}
    {rows : List EntryLine} {list : List DiaryEntry}
    (hlist : List.Forall₂ (EntryLine.MakesEntry (newEntry unsealFromBase64)) rows list)
    (hpos : ∀ l ∈ rows, 0 < l.id.toInt)
    (hasc : rows.Pairwise fun l m => l.id.toInt < m.id.toInt) :
    (sortNewestFirst (rows.map (EntryLine.shown P))).map DiaryEntry.pair
        = (sortByTimestamp list).map DiaryEntry.pair ↔
      rows.Pairwise fun l m => l.ts ≠ m.ts := by
  have hids : ∀ e ∈ rows.map (EntryLine.shown P), 0 < e.id.toInt := by
    intro e he
    obtain ⟨l, hl, rfl⟩ := List.mem_map.mp he
    exact hpos l hl
  have hpairs : (rows.map fun l => (l.id, l.ts)).Pairwise fun a b => a.1.toInt < b.1.toInt :=
    List.pairwise_map.mpr hasc
  rw [map_pair_sortNewestFirst hids, map_pair_sortByTimestamp, map_pair_shown,
    map_pair_newEntry hlist, mergeSort_newestFirst_eq_iff hpairs, List.pairwise_map]

/-- If nothing throws, every row becomes an entry. -/
theorem forall₂_makesEntry (unsealFromBase64 : Bytes → Option Bytes) (rows : List EntryLine) :
    List.Forall₂ (EntryLine.MakesEntry (newEntry fun b64 => some (unsealFromBase64 b64))) rows
      (rows.map fun l => ⟨l.id, l.ts, (unsealFromBase64 l.data).getD couldNotDecrypt⟩) :=
  List.forall₂_map_right_iff.mpr (List.forall₂_same.mpr fun _ _ => rfl)

/-- **When the two clients show the same order.**  Of every GET reply with
well-formed rows in ascending id order, which `Base64.decode` does not throw
on, each client makes a list, and the two lists have the same ids and
timestamps in the same order iff no two rows of the reply have one
timestamp. -/
theorem same_order_iff {P : Proto ν} (hP : P.Lawful) (unsealFromBase64 : Bytes → Option Bytes)
    (rows : List EntryLine) (hrows : ∀ l ∈ rows, l.WellFormed)
    (hasc : rows.Pairwise fun l m => l.id.toInt < m.id.toInt) :
    ∃ shown displayed, (receiveEntries P true (getReply rows)).2 = some shown ∧
      (androidGetEntries (newEntry fun b64 => some (unsealFromBase64 b64)) (getReply rows)).map
        sortByTimestamp = some displayed ∧
      (shown.map DiaryEntry.pair = displayed.map DiaryEntry.pair ↔
        rows.Pairwise fun l m => l.ts ≠ m.ts) := by
  have hpos : ∀ l ∈ rows, 0 < l.id.toInt := fun l hl => (hrows l hl).1
  have hlen := length_lt_of_ascending hpos hasc
  have hlist := forall₂_makesEntry unsealFromBase64 rows
  refine ⟨_, _, congrArg Prod.snd (receiveEntries_rows hP hlen hrows), ?_,
    same_pairs_iff P hlist hpos hasc⟩
  rw [(androidGetEntries_rows_iff _ hlen _).mpr hlist, Option.map_some]

/-- The rows of a well-formed reply used below: ids 1 and 2. -/
def twoRows (ts ts' : Int64) : List EntryLine :=
  [⟨1, ts, lit "c2VhbGVkaGk="⟩, ⟨2, ts', lit "c2VhbGVkeW8="⟩]

theorem twoRows_wellFormed (ts ts' : Int64) : ∀ l ∈ twoRows ts ts', l.WellFormed := by
  intro l hl
  simp only [twoRows, List.mem_cons, List.not_mem_nil, or_false] at hl
  rcases hl with rfl | rfl
  · exact ⟨(by decide : 0 < (1 : Int32).toInt), (by decide : lit "c2VhbGVkaGk=" ≠ []),
      (by decide : (32 : UInt8) ∉ lit "c2VhbGVkaGk=")⟩
  · exact ⟨(by decide : 0 < (2 : Int32).toInt), (by decide : lit "c2VhbGVkeW8=" ≠ []),
      (by decide : (32 : UInt8) ∉ lit "c2VhbGVkeW8=")⟩

theorem twoRows_ascending (ts ts' : Int64) :
    (twoRows ts ts').Pairwise fun l m => l.id.toInt < m.id.toInt :=
  List.pairwise_pair.mpr (by decide : (1 : Int32).toInt < (2 : Int32).toInt)

theorem same_order_two_rows :
    ∃ shown displayed, (receiveEntries taggingProto true (getReply (twoRows 5 7))).2 = some shown ∧
      (androidGetEntries (newEntry fun b64 => some (taggingProto.unsealNew b64))
        (getReply (twoRows 5 7))).map sortByTimestamp = some displayed ∧
      shown.map DiaryEntry.pair = displayed.map DiaryEntry.pair := by
  obtain ⟨shown, displayed, hc, ha, hiff⟩ := same_order_iff taggingProto_lawful
    taggingProto.unsealNew (twoRows 5 7) (twoRows_wellFormed 5 7) (twoRows_ascending 5 7)
  exact ⟨shown, displayed, hc, ha, hiff.mpr (List.pairwise_pair.mpr (by decide))⟩

/-- Two entries of one second: the C client shows the second one first, the
Android client the first one. -/
theorem equal_timestamps_differ :
    ∃ shown displayed, (receiveEntries taggingProto true (getReply (twoRows 5 5))).2 = some shown ∧
      (androidGetEntries (newEntry fun b64 => some (taggingProto.unsealNew b64))
        (getReply (twoRows 5 5))).map sortByTimestamp = some displayed ∧
      shown.map DiaryEntry.pair = [(2, 5), (1, 5)] ∧
      displayed.map DiaryEntry.pair = [(1, 5), (2, 5)] := by
  have hlen : (twoRows 5 5).length < 2 ^ 31 := by decide
  have hlist := forall₂_makesEntry taggingProto.unsealNew (twoRows 5 5)
  have hread := (androidGetEntries_rows_iff _ hlen _).mpr hlist
  refine ⟨_, _,
    congrArg Prod.snd (receiveEntries_rows taggingProto_lawful hlen (twoRows_wellFormed 5 5)),
    congrArg (Option.map sortByTimestamp) hread, ?_, ?_⟩
  · rw [map_pair_sortNewestFirst (by decide), map_pair_shown]
    show [((1 : Int32), (5 : Int64)), (2, 5)].mergeSort newestFirst = [(2, 5), (1, 5)]
    simp [List.mergeSort, newestFirst]
  · rw [map_pair_sortByTimestamp, map_pair_newEntry hlist]
    exact List.mergeSort_of_pairwise (by decide)

end Diary
