/-
Diary/AndroidReply.lean

`DiaryConnection.getEntries` on the bytes of a reply, with its exceptions.

`BufferedReader.readLine` ends a line at LF, at CR, and at CR LF.
`Base64.decode` and the native `unseal` are parameters: the one throws on
input with incorrect padding, the other returns null on what does not open.

`ListsEveryRow` is what the list owes the user: one entry for each row, and
nothing left unread.  `unsealFromBase64` turns a null into the text
`[could not decrypt]`, but lets the exception through, and a CR in a row
makes two lines of it: the list is complete exactly if no row does either
(`lists_every_row_iff`).  Lines that no such byte breaks are read as they were
sent (`snd_getEntries`), so that other modules read lines.
-/
import Diary.ClientOrder

namespace Diary

open CString Machine

/-! ### The source -/

/-- LF or CR. -/
def isBreak (c : UInt8) : Bool := c == 10 || c == 13

/-- What follows a line's end. -/
def afterBreak : Bytes → Bytes
  | 13 :: 10 :: unread => unread
  | unread => unread.tail

/-- `BufferedReader.readLine`: a line and what is still unread; `none` is
`null`, at the end of the stream. -/
def readLine (stream : Bytes) : Option (Bytes × Bytes) :=
  if stream = [] then none
  else
    some (stream.takeWhile (fun c => !isBreak c),
      afterBreak (stream.dropWhile fun c => !isBreak c))

section Source

variable (decode unsealCipher : Bytes → Option Bytes)

/-- `Crypto.unsealFromBase64`: `none` is an exception, `some none` is
`null`. -/
def unsealFromBase64 (b64 : Bytes) : Option (Option Bytes) := (decode b64).map unsealCipher

variable {ε : Type*} (entry : Int32 → Int64 → Bytes → Option ε)

/-- The loop of `getEntries`, with the rows still to come: what is left
unread, and the list, or an exception. -/
def readEntries : ℕ → List ε → Bytes → Bytes × Option (List ε)
  | 0, entries, stream => (stream, some entries)
  | n + 1, entries, stream =>
      match readLine stream with
      | none => (stream, none)
      | some (line, stream) =>
          match readEntry entry line with
          | none => (stream, none)
          | some e => readEntries n (entries ++ e.toList) stream

/-- `getEntries` on the bytes of a reply. -/
def getEntries (stream : Bytes) : Bytes × Option (List ε) :=
  match readLine stream with
  | none => (stream, none)
  | some (header, stream) =>
      if (lit "ENTRIES ").isPrefixOf header then
        match parseInt (trim (header.drop 8)) with
        | none => (stream, none)
        | some count =>
            if count.toInt < 0 then (stream, none)
            else readEntries entry count.toNatClampNeg [] stream
      else (stream, none)

/-- The bytes of lines, as they are sent. -/
def wire (lines : List Bytes) : Bytes := lines.flatMap fun line => line ++ [10]

/-- The entry a row should become. -/
def EntryLine.opened (l : EntryLine) : DiaryEntry :=
  ⟨l.id, l.ts, ((decode l.data).bind unsealCipher).getD couldNotDecrypt⟩

/-- The list has one entry for each row, with its id and timestamp, and the
reply is used up. -/
def ListsEveryRow (rows : List EntryLine) (result : Bytes × Option (List DiaryEntry)) : Prop :=
  result = ([], some (rows.map (EntryLine.opened decode unsealCipher)))

end Source

/-- The data stays one line: it has no LF or CR, but perhaps a CR at its
end. -/
def OneLine (data : Bytes) : Prop :=
  ∃ d : Bytes, (∀ c ∈ d, isBreak c = false) ∧ (data = d ∨ data = d ++ [13])

/-! ### Lines -/

theorem isBreak_of_all {s : Bytes} (h : (s.all fun c => !isBreak c) = true) :
    ∀ c ∈ s, isBreak c = false := by
  intro c hc
  simpa using List.all_eq_true.mp h c hc

/-- A line that ends at a break. -/
theorem readLine_append {s : Bytes} (hs : ∀ c ∈ s, isBreak c = false) {b : UInt8}
    (hb : isBreak b = true) (rest : Bytes) :
    readLine (s ++ b :: rest) = some (s, afterBreak (b :: rest)) := by
  set p : UInt8 → Bool := fun c => !isBreak c
  have hline : ∀ c ∈ s, p c = true := fun c hc => by simp [p, hs c hc]
  have hbreak : ¬ p b = true := by simp [p, hb]
  rw [readLine, if_neg (by simp), List.takeWhile_append_of_pos hline,
    List.dropWhile_append_of_pos hline, List.takeWhile_cons_of_neg hbreak,
    List.dropWhile_cons_of_neg hbreak, List.append_nil]

theorem readLine_lf {s : Bytes} (hs : ∀ c ∈ s, isBreak c = false) (rest : Bytes) :
    readLine (s ++ 10 :: rest) = some (s, rest) :=
  readLine_append hs rfl rest

theorem readLine_crlf {s : Bytes} (hs : ∀ c ∈ s, isBreak c = false) (rest : Bytes) :
    readLine (s ++ 13 :: 10 :: rest) = some (s, rest) :=
  readLine_append hs rfl (10 :: rest)

theorem count_afterBreak (s : Bytes) : s.count 10 ≤ (afterBreak s).count 10 + 1 := by
  rw [afterBreak.eq_def]
  split
  · next unread => rw [List.count_cons_of_ne (by decide), List.count_cons_self]
  · cases s with
    | nil => exact Nat.zero_le _
    | cons c s =>
        rw [List.count_cons, List.tail_cons]
        split <;> omega

/-- A line read uses up at most one LF. -/
theorem count_readLine {stream line unread : Bytes} (h : readLine stream = some (line, unread)) :
    stream.count 10 ≤ unread.count 10 + 1 := by
  rw [readLine] at h
  split at h
  · cases h
  obtain ⟨-, rfl⟩ := Prod.mk.inj (Option.some.inj h)
  have hline : (stream.takeWhile fun c => !isBreak c).count 10 = 0 := by
    apply List.count_eq_zero.mpr
    intro hmem
    exact absurd (List.mem_takeWhile_imp hmem) (by decide)
  calc stream.count 10
      = (stream.takeWhile fun c => !isBreak c).count 10
          + (stream.dropWhile fun c => !isBreak c).count 10 := by
        rw [← List.count_append, List.takeWhile_append_dropWhile]
    _ = (stream.dropWhile fun c => !isBreak c).count 10 := by rw [hline, Nat.zero_add]
    _ ≤ _ := count_afterBreak _

theorem length_le_count_wire (lines : List Bytes) : lines.length ≤ (wire lines).count 10 := by
  induction lines with
  | nil => exact le_refl _
  | cons line lines ih =>
      rw [wire, List.flatMap_cons, List.count_append, List.count_append, List.length_cons]
      show lines.length + 1 ≤ _ + 1 + (wire lines).count 10
      omega

/-! ### The loop -/

section Loop

variable {decode unsealCipher : Bytes → Option Bytes}

theorem readEntries_succ {ε : Type*} {entry : Int32 → Int64 → Bytes → Option ε} {n : ℕ}
    {entries : List ε} {stream line unread : Bytes} (h : readLine stream = some (line, unread)) :
    readEntries entry (n + 1) entries stream
      = match readEntry entry line with
        | none => (unread, none)
        | some e => readEntries entry n (entries ++ e.toList) unread := by
  rw [readEntries, h]

theorem count_readEntries {ε : Type*} {entry : Int32 → Int64 → Bytes → Option ε} {n : ℕ}
    {entries es : List ε} {stream unread : Bytes}
    (h : readEntries entry n entries stream = (unread, some es)) :
    stream.count 10 ≤ unread.count 10 + n := by
  induction n generalizing entries stream with
  | zero =>
      obtain ⟨rfl, -⟩ := Prod.mk.inj h
      exact le_refl _
  | succ n ih =>
      rcases hline : readLine stream with - | ⟨line, rest⟩
      · rw [readEntries, hline] at h
        cases (Prod.mk.inj h).2
      rw [readEntries_succ hline] at h
      rcases hentry : readEntry entry line with - | e
      · rw [hentry] at h
        cases (Prod.mk.inj h).2
      rw [hentry] at h
      have hfirst := count_readLine hline
      have hrest := ih h
      omega

theorem row_withData (l : EntryLine) (d rest : Bytes) (h : l.data = d ++ rest) :
    l.row = EntryLine.row { l with data := d } ++ rest := by
  simp [EntryLine.row, h]

theorem isBreak_of_mem_dec {n : ℤ} {c : UInt8} (hc : c ∈ dec n) : isBreak c = false := by
  by_contra hbreak
  rw [Bool.not_eq_false, isBreak, Bool.or_eq_true, beq_iff_eq, beq_iff_eq] at hbreak
  rcases hbreak with rfl | rfl
  · exact notMem_dec rfl (by decide) hc
  · exact notMem_dec rfl (by decide) hc

/-- The two numbers of a row and their blanks have no break. -/
theorem isBreak_row {l : EntryLine} (h : ∀ c ∈ l.data, isBreak c = false) :
    ∀ c ∈ l.row, isBreak c = false := by
  intro c hc
  rcases List.mem_append.mp hc with hid | hc
  · exact isBreak_of_mem_dec hid
  rcases List.mem_cons.mp hc with rfl | hc
  · rfl
  rcases List.mem_append.mp hc with hts | hc
  · exact isBreak_of_mem_dec hts
  rcases List.mem_cons.mp hc with rfl | hc
  · rfl
  · exact h c hc

/-- A row on one line is read as a row; a CR at its end is not part of it. -/
theorem readLine_row {l : EntryLine} (h : OneLine l.data) (rest : Bytes) :
    ∃ d, readLine (l.row ++ [10] ++ rest) = some (EntryLine.row { l with data := d }, rest) ∧
      (l.data = d ∨ l.data = d ++ [13]) := by
  obtain ⟨d, hd, hdata⟩ := h
  have hrow : ∀ c ∈ EntryLine.row { l with data := d }, isBreak c = false := isBreak_row hd
  refine ⟨d, ?_, hdata⟩
  rcases hdata with hdata | hdata
  · rw [row_withData l d [] (by rw [hdata, List.append_nil]), List.append_nil, List.append_assoc]
    exact readLine_lf hrow rest
  · rw [row_withData l d [13] hdata, List.append_assoc, List.append_assoc]
    exact readLine_crlf hrow rest

/-- A break that is not the CR before the LF of a line leaves that LF. -/
theorem count_behind_break {b : UInt8} {e : Bytes} (h : b :: e ≠ [13]) (rest : Bytes) :
    rest.count 10 + 1 ≤ (afterBreak (b :: (e ++ ([10] ++ rest)))).count 10 := by
  have hlf : ∀ s : Bytes, rest.count 10 + 1 ≤ (s ++ ([10] ++ rest)).count 10 := by
    intro s
    rw [List.count_append, List.singleton_append, List.count_cons_self]
    exact Nat.le_add_left _ _
  rw [afterBreak.eq_def]
  split
  · next unread heq =>
    obtain ⟨rfl, htail⟩ := List.cons.inj heq
    rcases e with - | ⟨c, e⟩
    · exact absurd rfl h
    · obtain ⟨-, rfl⟩ := List.cons.inj htail
      exact hlf e
  · exact hlf e

/-- A row that is not: its first break is not its end, and leaves an LF too
many. -/
theorem readLine_broken {l : EntryLine} (h : ¬ OneLine l.data) (rest : Bytes) :
    ∃ line unread, readLine (l.row ++ [10] ++ rest) = some (line, unread) ∧
      rest.count 10 + 1 ≤ unread.count 10 := by
  set d := l.data.takeWhile fun c => !isBreak c with hd
  have hfree : ∀ c ∈ d, isBreak c = false := by
    intro c hc
    simpa using List.mem_takeWhile_imp hc
  have hdata : l.data = d ++ l.data.dropWhile fun c => !isBreak c :=
    (List.takeWhile_append_dropWhile).symm
  cases htail : l.data.dropWhile fun c => !isBreak c with
  | nil =>
      rw [htail, List.append_nil] at hdata
      exact absurd ⟨d, hfree, Or.inl hdata⟩ h
  | cons b e =>
      rw [htail] at hdata
      have hb : isBreak b = true := by
        have hne : l.data.dropWhile (fun c => !isBreak c) ≠ [] := by
          rw [htail]
          exact List.cons_ne_nil b e
        simpa [htail] using List.head_dropWhile_not _ hne
      have hne : b :: e ≠ [13] := fun heq => h ⟨d, hfree, Or.inr (heq ▸ hdata)⟩
      refine ⟨EntryLine.row { l with data := d }, afterBreak (b :: (e ++ ([10] ++ rest))), ?_, ?_⟩
      · rw [row_withData l d (b :: e) hdata, List.append_assoc, List.append_assoc]
        exact readLine_append (isBreak_row (l := { l with data := d }) hfree) hb _
      · exact count_behind_break hne rest

/-- The loop over rows: it lists them all and leaves nothing unread, if and
only if every row is one line and is decoded. -/
theorem readEntries_wire_iff (hcr : ∀ s, decode (s ++ [13]) = decode s) (rows : List EntryLine)
    (entries : List DiaryEntry) :
    readEntries (newEntry (unsealFromBase64 decode unsealCipher)) rows.length entries
          (wire (rows.map EntryLine.row))
        = ([], some (entries ++ rows.map (EntryLine.opened decode unsealCipher))) ↔
      ∀ l ∈ rows, OneLine l.data ∧ decode l.data ≠ none := by
  induction rows generalizing entries with
  | nil =>
      rw [List.map_nil, List.map_nil, List.append_nil]
      exact iff_of_true rfl nofun
  | cons l rows ih =>
      rw [List.forall_mem_cons, List.length_cons, List.map_cons, List.map_cons]
      show readEntries _ _ _ (l.row ++ [10] ++ wire (rows.map EntryLine.row)) = _ ↔ _
      by_cases hone : OneLine l.data
      · obtain ⟨d, hline, hdata⟩ := readLine_row hone (wire (rows.map EntryLine.row))
        have hdecode : decode d = decode l.data := by
          rcases hdata with hdata | hdata
          · rw [hdata]
          · rw [hdata, hcr]
        have hentry : readEntry (newEntry (unsealFromBase64 decode unsealCipher))
              (EntryLine.row { l with data := d })
            = (decode l.data).map fun _ => some (l.opened decode unsealCipher) := by
          rw [readEntry_row]
          show (newEntry _ l.id l.ts d).map some = _
          rw [newEntry, unsealFromBase64, EntryLine.opened, hdecode]
          cases decode l.data <;> rfl
        rw [readEntries_succ hline, hentry]
        rcases hopen : decode l.data with - | cipher
        · exact iff_of_false (fun h => Option.some_ne_none _ (Prod.mk.inj h).2.symm)
            fun h => h.1.2 rfl
        · rw [and_iff_right ⟨hone, nofun⟩, ← ih (entries ++ [l.opened decode unsealCipher]),
            List.append_assoc]
          rfl
      · -- an LF too many is left to the end
        refine iff_of_false (fun h => ?_) fun h => hone h.1.1
        obtain ⟨line, unread, hline, hcount⟩ := readLine_broken hone (wire (rows.map EntryLine.row))
        rw [readEntries_succ hline] at h
        rcases hentry : readEntry (newEntry (unsealFromBase64 decode unsealCipher)) line with - | e
        · rw [hentry] at h
          cases (Prod.mk.inj h).2
        rw [hentry] at h
        have hlf := length_le_count_wire (rows.map EntryLine.row)
        have hend := count_readEntries h
        rw [List.length_map] at hlf
        rw [List.count_nil] at hend
        omega

end Loop

/-! ### A reply of the server -/

theorem readLine_wire {line : Bytes} (h : ∀ c ∈ line, isBreak c = false) (lines : List Bytes) :
    readLine (wire (line :: lines)) = some (line, wire lines) := by
  show readLine (line ++ [10] ++ wire lines) = _
  rw [List.append_assoc]
  exact readLine_lf h (wire lines)

section Lines

variable {ε : Type*} (entry : Int32 → Int64 → Bytes → Option ε)

theorem snd_readEntries {lines : List Bytes}
    (h : ∀ line ∈ lines, ∀ c ∈ line, isBreak c = false) (n : ℕ) (entries : List ε) :
    (readEntries entry n entries (wire lines)).2 = readRows entry n entries lines := by
  induction n generalizing lines entries with
  | zero => cases lines <;> rfl
  | succ n ih =>
      cases lines with
      | nil => rfl
      | cons line lines =>
          obtain ⟨hline, hlines⟩ := List.forall_mem_cons.mp h
          rw [readEntries_succ (readLine_wire hline lines), readRows]
          rcases readEntry entry line with - | e
          · rfl
          · exact ih hlines _

/-- **Lines without a break in them** are read as they were sent. -/
theorem snd_getEntries {lines : List Bytes}
    (h : ∀ line ∈ lines, ∀ c ∈ line, isBreak c = false) :
    (getEntries entry (wire lines)).2 = androidGetEntries entry lines := by
  cases lines with
  | nil => rfl
  | cons header lines =>
      obtain ⟨hheader, hlines⟩ := List.forall_mem_cons.mp h
      rw [getEntries, readLine_wire hheader, androidGetEntries]
      simp only
      split
      · rcases parseInt (trim (header.drop 8)) with - | count
        · rfl
        simp only
        split
        · rfl
        · exact snd_readEntries entry hlines _ []
      · rfl

theorem isBreak_header (n : ℕ) : ∀ c ∈ lit "ENTRIES " ++ dec n, isBreak c = false := by
  intro c hc
  rcases List.mem_append.mp hc with hc | hc
  · exact isBreak_of_all (by decide : ((lit "ENTRIES ").all fun c => !isBreak c) = true) c hc
  · exact isBreak_of_mem_dec hc

/-- A header and as many rows as it says, however they are printed. -/
theorem getEntries_wire {n : ℕ} (hn : n < 2 ^ 31) (lines : List Bytes) :
    getEntries entry (wire ((lit "ENTRIES " ++ dec n) :: lines))
      = readEntries entry n [] (wire lines) := by
  have hnonneg : ¬ (rowidToInt n).toInt < 0 := rowidToInt_not_neg hn
  rw [getEntries, readLine_wire (isBreak_header n)]
  simp only [isPrefixOf_entries, if_true,
    show (lit "ENTRIES " ++ dec n).drop 8 = dec n from rfl,
    parseInt_count hn, if_neg hnonneg, toNatClampNeg_rowidToInt hn]

end Lines

/-! ### What the server has stored -/

/-- No timestamp stored is negative. -/
def Db.Dated (db : Db) : Prop := ∀ r ∈ db.entries.rows, 0 ≤ r.2.timestamp.toInt

/-- The timestamp of a POST is positive, or the server's clock. -/
theorem ts_nonneg_of_post {now ts : Int64} {line data : Bytes} (hnow : 0 ≤ now.toInt)
    (h : parseLine now line = .post ts data) : 0 ≤ ts.toInt := by
  have hfields : ∀ p, 0 ≤ (postFields now p).1.toInt := by
    intro p
    rw [postFields]
    split
    · simp only
      split
      · next hpos => exact hpos.le
      · exact hnow
    · exact hnow
  rw [parseLine] at h
  split at h
  · cases h
  split at h
  · obtain ⟨rfl, -⟩ := Command.post.inj h
    exact hfields _
  · repeat' split at h
    all_goals cases h

theorem dated_serve {db : Db} {r : Request} (hnow : 0 ≤ r.env.now.toInt) (h : db.Dated) :
    (serve db r).1.Dated := by
  rcases hs : serve db r with ⟨db', reply⟩
  cases effect_of_serve hs with
  | post hline hroom =>
      intro r' hr'
      rcases List.mem_append.mp hr' with hr' | hr'
      · exact h r' hr'
      · obtain rfl := List.mem_singleton.mp hr'
        exact ts_nonneg_of_post hnow hline
  | update hline he hu =>
      intro r' hr'
      -- an UPDATE leaves the timestamp
      obtain ⟨r₀, hr₀, rfl⟩ := List.mem_map.mp hr'
      rw [AutoTable.modifyRow]
      split <;> exact h r₀ hr₀
  | delete hline he hu => exact fun r' hr' => h r' (List.mem_of_mem_filter hr')
  | get | bye | fail => exact h

theorem dated_final {reqs : List Request} (hnow : ∀ r ∈ reqs, 0 ≤ r.env.now.toInt) :
    (final serve Db.fresh reqs).Dated := by
  have hrun : Throughout serve (fun _ r => 0 ≤ r.env.now.toInt) Db.fresh reqs :=
    throughout_iff_forall.mpr fun js r ks heq => hnow r (heq ▸ List.mem_append_cons_self)
  have hfresh : Db.fresh.Dated := fun r hr => absurd hr List.not_mem_nil
  exact throughout_invariant (fun _ _ h hr => dated_serve hr h) hfresh reqs hrun

/-- A row is sent whole: its buffer has room for the sign of an id that has
wrapped, as its timestamp has none. -/
theorem text_eq_row_of_dated {user : Bytes} {db : Db} (h : db.Dated) {l : EntryLine}
    (hl : l ∈ db.view user) : l.text = l.row := by
  obtain ⟨k, e, hmem, -, rfl⟩ := mem_view_iff.mp hl
  have hid := length_dec_int_le_eleven (EntryLine.ofRow (k, e)).id
  have hts : (dec (EntryLine.ofRow (k, e)).ts.toInt).length ≤ 19 :=
    length_dec_long_pos_le (h _ hmem)
  apply snprintf_eq_self
  simp only [EntryLine.row, List.length_append, List.length_cons]
  omega

/-- **When one bad row does not hide the others.**  Of the reply to a GET,
whatever was stored before, the Android client lists every row and leaves
nothing unread if and only if every row's data is decoded without an
exception and has no line break, but perhaps a CR at its end. -/
theorem lists_every_row_iff (decode unsealCipher : Bytes → Option Bytes)
    (hcr : ∀ s, decode (s ++ [13]) = decode s) (user : Bytes) (env : Env)
    (hcalloc : env.calloc = true) (reqs : List Request)
    (hnow : ∀ r ∈ reqs, 0 ≤ r.env.now.toInt) :
    let db := final serve Db.fresh reqs
    let rows := collect env.malloc (db.view user)
    ListsEveryRow decode unsealCipher rows
        (getEntries (newEntry (unsealFromBase64 decode unsealCipher))
          (wire (serve db ⟨user, env, lit "GET"⟩).2.lines)) ↔
      ∀ l ∈ rows, OneLine l.data ∧ decode l.data ≠ none := by
  intro db rows
  have hle : rows.length ≤ maxEntries := length_collect_le env.malloc (db.view user)
  have hlen : rows.length < 2 ^ 31 := lt_of_le_of_lt hle (by decide)
  have htext : ∀ l ∈ db.view user, l.text = l.row := fun l hl =>
    text_eq_row_of_dated (dated_final hnow) hl
  rw [lines_serve_getReply hcalloc htext, ListsEveryRow, getReply, getEntries_wire _ hlen]
  exact readEntries_wire_iff hcr rows []

/-! ### Base64 -/

/-- The six bits of a character of base64. -/
def sextet (c : UInt8) : Option ℕ :=
  if 65 ≤ c ∧ c ≤ 90 then some (c.toNat - 65)
  else if 97 ≤ c ∧ c ≤ 122 then some (c.toNat - 71)
  else if isDigit c then some (c.toNat + 4)
  else if c = 43 then some 62
  else if c = 47 then some 63
  else none

/-- `Base64.decode` with the flags `DEFAULT`, from a state of its decoder on:
how many characters of a group were read, or 4 and 5 after its first and its
last `=`, and the bits they hold.  Other characters are skipped; `none` is
"bad base-64". -/
def base64From : ℕ → ℕ → Bytes → Option Bytes
  | 0, _, [] => some []
  | 2, value, [] => some [UInt8.ofNat (value / 16)]
  | 3, value, [] => some [UInt8.ofNat (value / 1024), UInt8.ofNat (value / 4)]
  | 5, _, [] => some []
  | _, _, [] => none
  | state, value, c :: s =>
      match sextet c with
      | some d =>
          let value := value * 64 + d
          if state < 3 then base64From (state + 1) value s
          else if state = 3 then
            (base64From 0 0 s).map fun out =>
              UInt8.ofNat (value / 65536) :: UInt8.ofNat (value / 256) :: UInt8.ofNat value :: out
          else none
      | none =>
          if c ≠ 61 then base64From state value s
          else if state = 2 then
            (base64From 4 0 s).map fun out => UInt8.ofNat (value / 16) :: out
          else if state = 3 then
            (base64From 5 0 s).map fun out =>
              UInt8.ofNat (value / 1024) :: UInt8.ofNat (value / 4) :: out
          else if state = 4 then base64From 5 0 s
          else none

/-- `Crypto.decodeBase64`. -/
def decodeBase64 (b64 : Bytes) : Option Bytes := base64From 0 0 b64

theorem base64From_cr (state value : ℕ) (s : Bytes) :
    base64From state value (s ++ [13]) = base64From state value s := by
  induction s generalizing state value with
  | nil =>
      -- the states that may end, 0, 2, 3 and 5, and the others
      rcases state with _ | _ | _ | _ | _ | _ | state <;> rfl
  | cons c s ih =>
      rw [List.cons_append, base64From, base64From]
      simp only [ih]

/-- The CR that `readLine` takes off is none of the data. -/
theorem decodeBase64_cr (s : Bytes) : decodeBase64 (s ++ [13]) = decodeBase64 s :=
  base64From_cr 0 0 s

/-! ### Two replies -/

/-- What was sealed with the tag `sealed`. -/
def unsealTagged (cipher : Bytes) : Option Bytes :=
  if (lit "sealed").isPrefixOf cipher then some (cipher.drop 6) else none

/-- A user's request. -/
def aliceRequest (line : Bytes) : Request := ⟨lit "alice", ⟨0, true, true, []⟩, line⟩

/-- A row that does not open is listed. -/
theorem lists_every_row_unsealed :
    let db := final serve Db.fresh [aliceRequest (lit "POST 5 aGk=")]
    ListsEveryRow decodeBase64 unsealTagged [⟨1, 5, lit "aGk="⟩]
        (getEntries (newEntry (unsealFromBase64 decodeBase64 unsealTagged))
          (wire (serve db (aliceRequest (lit "GET"))).2.lines)) ∧
      EntryLine.opened decodeBase64 unsealTagged ⟨1, 5, lit "aGk="⟩ = ⟨1, 5, couldNotDecrypt⟩ := by
  intro db
  have hrows : collect [] (db.view (lit "alice")) = [⟨1, 5, lit "aGk="⟩] := by decide
  have h := lists_every_row_iff decodeBase64 unsealTagged decodeBase64_cr (lit "alice")
    ⟨0, true, true, []⟩ rfl [aliceRequest (lit "POST 5 aGk=")] (by decide)
  simp only [show final serve Db.fresh [aliceRequest (lit "POST 5 aGk=")] = db from rfl, hrows] at h
  refine ⟨h.mpr fun l hl => ?_, by decide⟩
  obtain rfl := List.mem_singleton.mp hl
  exact ⟨⟨lit "aGk=", isBreak_of_all (by decide), Or.inl rfl⟩, by decide⟩

/-- The data `A`, which the server accepts: the decoder throws, and the good
row before it is not listed either. -/
theorem bad_padding_hides_good_row :
    let db := final serve Db.fresh
      [aliceRequest (lit "POST 5 c2VhbGVkaGk="), aliceRequest (lit "POST 5 A")]
    let reply := (serve db (aliceRequest (lit "GET"))).2.lines
    reply = [lit "ENTRIES 2", lit "1 5 c2VhbGVkaGk=", lit "2 5 A"] ∧
      (getEntries (newEntry (unsealFromBase64 decodeBase64 unsealTagged)) (wire reply)).2 = none ∧
      ¬ ListsEveryRow decodeBase64 unsealTagged [⟨1, 5, lit "c2VhbGVkaGk="⟩, ⟨2, 5, lit "A"⟩]
        (getEntries (newEntry (unsealFromBase64 decodeBase64 unsealTagged)) (wire reply)) := by
  intro db reply
  have hreply : reply = [lit "ENTRIES 2", lit "1 5 c2VhbGVkaGk=", lit "2 5 A"] := by decide
  have hnone :
      (getEntries (newEntry (unsealFromBase64 decodeBase64 unsealTagged)) (wire reply)).2
        = none := by
    rw [hreply]
    decide
  refine ⟨hreply, hnone, fun hlists => ?_⟩
  rw [hlists] at hnone
  cases hnone

end Diary
