/-
Diary/Net.lean

client/net.c: the four verbs of the client, over a connection served by the
command loop.

The proto library is a parameter (`Proto`): sealing, which draws on
randomness of some type `ν`, unsealing, and the two line readers.
`Proto.Lawful` says what its documentation promises and this program relies
on.  The connection is a reliable FIFO of lines: the server answers a
request line as it arrives, and `unread` holds the lines it sent that the
client has not read yet.

Each verb has one lemma that says what it does on a connection with nothing
left unread (`netPostEntry_eq` and so on).
-/
import Diary.View

namespace Diary

open CString

/-! ### The proto library -/

/-- What the client uses of the proto library. -/
structure Proto (ν : Type*) where
  /-- `proto_seal_new`, to the user's own key -/
  sealNew : ν → Bytes → Option Bytes
  /-- `proto_unseal_new`, with the user's own keys -/
  unsealNew : Bytes → Option Bytes
  /-- `proto_recv_line` into a buffer of a given size, on the unread lines -/
  recvLine : ℕ → List Bytes → Option Bytes × List Bytes
  /-- `proto_recv_line_dyn`, on the unread lines -/
  recvLineDyn : List Bytes → Option Bytes × List Bytes

variable {ν : Type*}

/-- What the library promises: a sealed text is non-empty base64, which has
no space in it, and unseals to the text; what has a space in it is no
base64 and does not unseal; a line that fits its buffer is received. -/
structure Proto.Lawful (P : Proto ν) : Prop where
  sealed_ne_nil : ∀ {n text b64}, P.sealNew n text = some b64 → b64 ≠ []
  sealed_no_space : ∀ {n text b64}, P.sealNew n text = some b64 → (32 : UInt8) ∉ b64
  unseal_sealed : ∀ {n text b64}, P.sealNew n text = some b64 → P.unsealNew b64 = some text
  unseal_space : ∀ {data}, (32 : UInt8) ∈ data → P.unsealNew data = none
  recvLine_fits : ∀ {cap : ℕ} {line : Bytes} {rest}, line.length < cap →
    P.recvLine cap (line :: rest) = (some line, rest)
  recvLineDyn_cons : ∀ {line rest}, P.recvLineDyn (line :: rest) = (some line, rest)

/-! ### A connection -/

/-- A connection of an authenticated user: the database behind it, and the
lines sent to the client and not read yet. -/
structure World where
  db : Db
  unread : List Bytes

/-- What a call reads from outside. -/
structure CallEnv (ν : Type*) where
  /-- the randomness of the sealing -/
  nonce : ν
  /-- what the server reads while it serves the request -/
  server : Env
  /-- the client's `calloc` succeeds -/
  calloc : Bool

/-- The client sends a line and the server serves it. -/
def World.send (env : Env) (user line : Bytes) (w : World) : World :=
  let (db, reply) := diaryCommand env user line w.db
  { db := db, unread := w.unread ++ reply.lines }

/-! ### The verbs -/

/-- The prefix `net_post_entry` puts before the sealed text. -/
def postPrefix (timestamp : Int64) : Bytes :=
  if 0 < timestamp.toInt then snprintf 32 (lit "POST " ++ (dec timestamp.toInt ++ [32]))
  else lit "POST "

/-- `net_post_entry`. -/
def netPostEntry (P : Proto ν) (user : Bytes) (env : CallEnv ν) (text : Bytes)
    (timestamp : Int64) (w : World) : World × Int32 :=
  match P.sealNew env.nonce text with
  | none => (w, -1)
  | some b64 =>
      let w := w.send env.server user (postPrefix timestamp ++ b64)
      match P.recvLine 64 w.unread with
      | (none, unread) => ({ w with unread := unread }, -1)
      | (some line, unread) =>
          ({ w with unread := unread },
            if (lit "OK ").isPrefixOf line then atoi (line.drop 3) else -1)

/-- `net_update_entry`. -/
def netUpdateEntry (P : Proto ν) (user : Bytes) (env : CallEnv ν) (id : Int32) (text : Bytes)
    (w : World) : World × Int32 :=
  match P.sealNew env.nonce text with
  | none => (w, -1)
  | some b64 =>
      let pre := snprintf 32 (lit "UPDATE " ++ (dec id.toInt ++ [32]))
      let w := w.send env.server user (pre ++ b64)
      match P.recvLine 64 w.unread with
      | (none, unread) => ({ w with unread := unread }, -1)
      | (some line, unread) => ({ w with unread := unread }, if line = lit "OK" then id else -1)

/-- `net_delete_entry`. -/
def netDeleteEntry (P : Proto ν) (user : Bytes) (env : CallEnv ν) (id : Int32) (w : World) :
    World × Int32 :=
  let w := w.send env.server user (snprintf 32 (lit "DELETE " ++ dec id.toInt))
  match P.recvLine 64 w.unread with
  | (none, unread) => ({ w with unread := unread }, -1)
  | (some line, unread) => ({ w with unread := unread }, if line = lit "OK" then 0 else -1)

/-- `diary_entry_t`. -/
structure DiaryEntry where
  id : Int32
  timestamp : Int64
  text : Bytes
deriving DecidableEq

/-- `entry_cmp_newest_first`; the difference of the ids is an `int`. -/
def entryCmpNewestFirst (a b : DiaryEntry) : Int32 :=
  if a.timestamp ≠ b.timestamp then if a.timestamp < b.timestamp then 1 else -1
  else b.id - a.id

/-- `qsort` of the entries with that comparison. -/
def sortNewestFirst (arr : List DiaryEntry) : List DiaryEntry :=
  arr.mergeSort fun a b => (entryCmpNewestFirst a b).toInt ≤ 0

/-- `[could not decrypt]`. -/
def couldNotDecrypt : Bytes := lit "[could not decrypt]"

/-- The text shown for a blob. -/
def shownText (P : Proto ν) (blob : Bytes) : Bytes :=
  match P.unsealNew blob with
  | some plain => cstr plain
  | none => couldNotDecrypt

/-- The split of one row line in `net_get_entries`. -/
def parseRow (P : Proto ν) (line : Bytes) : Option DiaryEntry :=
  match strtok 32 line with
  | none => none
  | some (sid, sv) =>
      match strtok 32 sv with
      | none => none
      | some (sts, sv) =>
          match strtok 32 sv with
          | none => none
          | some (sdat, _) => some ⟨atoi sid, atol sts, shownText P sdat⟩

/-- The loop of `net_get_entries`, with the rows still to come, the entries
so far and the unread lines. -/
def getRows (P : Proto ν) : ℕ → List DiaryEntry → List Bytes →
    Option (List DiaryEntry) × List Bytes
  | 0, arr, unread => (some arr, unread)
  | n + 1, arr, unread =>
      match P.recvLineDyn unread with
      | (none, unread) => (none, unread)
      | (some line, unread) =>
          match parseRow P line with
          | none => (none, unread)
          | some e => getRows P n (arr ++ [e]) unread

/-- `net_get_entries`; `none` is the return value -1. -/
def netGetEntries (P : Proto ν) (user : Bytes) (env : CallEnv ν) (w : World) :
    World × Option (List DiaryEntry) :=
  let w := w.send env.server user (lit "GET")
  match P.recvLine 64 w.unread with
  | (none, unread) => ({ w with unread := unread }, none)
  | (some hdr, unread) =>
      let w : World := { w with unread := unread }
      if (lit "ENTRIES ").isPrefixOf hdr then
        let n := atoi (hdr.drop 8)
        if n.toInt ≤ 0 then (w, some [])
        else if env.calloc = false then (w, none)
        else
          let (arr, unread) := getRows P n.toNatClampNeg [] w.unread
          ({ w with unread := unread }, arr.map sortNewestFirst)
      else (w, none)

/-! ### What a request leaves to read -/

theorem send_eq (env : Env) (user line : Bytes) (w : World) :
    w.send env user line
      = ⟨(perform env user w.db (parseLine env.now line)).1,
          w.unread ++ (perform env user w.db (parseLine env.now line)).2.lines⟩ := by
  simp only [World.send, diaryCommand_eq]

/-! The client's buffer of 64 bytes holds every one-line reply. -/

theorem recvLine_fail {P : Proto ν} (hP : P.Lawful) (why : Failure) :
    P.recvLine 64 (Reply.fail why).lines = (some why.text, []) :=
  hP.recvLine_fits (by cases why <;> decide)

theorem recvLine_ok {P : Proto ν} (hP : P.Lawful) :
    P.recvLine 64 Reply.ok.lines = (some (lit "OK"), []) :=
  hP.recvLine_fits (by decide)

/-- The server's buffer of 32 bytes never cuts an id. -/
theorem okId_lines (id : Int32) : (Reply.okId id).lines = [lit "OK " ++ dec id.toInt] := by
  have hdec := length_dec_int_le_eleven id
  have hlit : (lit "OK ").length = 3 := rfl
  rw [Reply.lines, snprintf_eq_self]
  rw [List.length_append]
  omega

theorem recvLine_okId {P : Proto ν} (hP : P.Lawful) (id : Int32) :
    P.recvLine 64 (Reply.okId id).lines = (some (lit "OK " ++ dec id.toInt), []) := by
  have hdec := length_dec_int_le_eleven id
  have hlit : (lit "OK ").length = 3 := rfl
  rw [okId_lines]
  apply hP.recvLine_fits
  rw [List.length_append]
  omega

/-! ### POST, UPDATE and DELETE -/

/-- The prefix buffer never cuts the timestamp. -/
theorem postPrefix_eq (t : Int64) :
    postPrefix t = if 0 < t.toInt then lit "POST " ++ (dec t.toInt ++ [32]) else lit "POST " := by
  rw [postPrefix]
  split
  · next ht =>
      have hdec := length_dec_long_pos_le ht.le
      have hlit : (lit "POST ").length = 5 := rfl
      apply snprintf_eq_self
      simp only [List.length_append, List.length_cons, List.length_nil]
      omega
  · rfl

/-- The server reads back the timestamp and the blob the client put
together. -/
theorem parseLine_postPrefix (now t : Int64) {b64 : Bytes} (h : (32 : UInt8) ∉ b64) :
    parseLine now (postPrefix t ++ b64) = .post (if 0 < t.toInt then t else now) b64 := by
  rw [postPrefix_eq]
  split
  · next ht =>
      have hsp : strchr (dec t.toInt ++ 32 :: b64) 32 = some (dec t.toInt).length :=
        strchr_append (notMem_dec rfl (by decide))
      have hatol : atol (dec t.toInt ++ 32 :: b64) = t :=
        atol_dec_append t (stopsDigits_cons rfl)
      have hline : lit "POST " ++ (dec t.toInt ++ [32]) ++ b64
          = lit "POST " ++ (dec t.toInt ++ 32 :: b64) := by simp
      rw [hline, parseLine_post]
      simp [postFields, hsp, hatol, ht]
  · rw [parseLine_post]
    simp [postFields, strchr_eq_none h]

/-- `net_post_entry` on a connection in step. -/
theorem netPostEntry_eq {P : Proto ν} (hP : P.Lawful) (user : Bytes) {env : CallEnv ν}
    {text b64 : Bytes} (t : Int64) {w : World} (hw : w.unread = [])
    (hseal : P.sealNew env.nonce text = some b64) :
    netPostEntry P user env text t w
      = let r := storageAddEntry env.server.done user b64
          (if 0 < t.toInt then t else env.server.now) w.db
        (⟨r.1, []⟩, if r.2.toInt < 0 then -1 else r.2) := by
  simp only [netPostEntry, hseal, send_eq, parseLine_postPrefix _ _ (hP.sealed_no_space hseal),
    perform, hw, List.nil_append]
  generalize storageAddEntry env.server.done user b64 _ w.db = r
  by_cases hid : r.2.toInt < 0
  · rw [if_pos hid, if_pos hid, recvLine_fail hP]
    rfl
  · -- `OK <id>`: the client reads the id back from the fourth byte on
    rw [if_neg hid, if_neg hid, recvLine_okId hP]
    simp [show lit "OK " = [79, 75, 32] from rfl, atoi_dec]

/-- `net_update_entry` on a connection in step. -/
theorem netUpdateEntry_eq {P : Proto ν} (hP : P.Lawful) (user : Bytes) {env : CallEnv ν}
    (id : Int32) {text b64 : Bytes} {w : World} (hw : w.unread = [])
    (hseal : P.sealNew env.nonce text = some b64) :
    netUpdateEntry P user env id text w
      = let r := storageUpdateEntry env.server.done user id b64 w.db
        (⟨r.1, []⟩, if r.2 = 0 then id else -1) := by
  have hpre : snprintf 32 (lit "UPDATE " ++ (dec id.toInt ++ [32]))
      = lit "UPDATE " ++ (dec id.toInt ++ [32]) := by
    have hdec := length_dec_int_le_eleven id
    have hlit : (lit "UPDATE ").length = 7 := rfl
    apply snprintf_eq_self
    simp only [List.length_append, List.length_cons, List.length_nil]
    omega
  have hline : lit "UPDATE " ++ (dec id.toInt ++ [32]) ++ b64
      = lit "UPDATE " ++ (dec id.toInt ++ 32 :: b64) := by simp
  simp only [netUpdateEntry, hseal, send_eq, hpre, hline, parseLine_update, perform, hw,
    List.nil_append]
  generalize storageUpdateEntry env.server.done user id b64 w.db = r
  by_cases hrc : r.2 = 0
  · rw [if_pos hrc, if_pos hrc, recvLine_ok hP]
    rfl
  · rw [if_neg hrc, if_neg hrc, recvLine_fail hP]
    rfl

/-- `net_delete_entry` on a connection in step. -/
theorem netDeleteEntry_eq {P : Proto ν} (hP : P.Lawful) {user : Bytes} {env : CallEnv ν}
    (id : Int32) {w : World} (hw : w.unread = []) :
    netDeleteEntry P user env id w
      = let r := storageDeleteEntry env.server.done user id w.db
        (⟨r.1, []⟩, if r.2 = 0 then 0 else -1) := by
  have hcmd : snprintf 32 (lit "DELETE " ++ dec id.toInt) = lit "DELETE " ++ dec id.toInt := by
    have hdec := length_dec_int_le_eleven id
    have hlit : (lit "DELETE ").length = 7 := rfl
    apply snprintf_eq_self
    rw [List.length_append]
    omega
  simp only [netDeleteEntry, send_eq, hcmd, parseLine_delete, perform, hw, List.nil_append]
  generalize storageDeleteEntry env.server.done user id w.db = r
  by_cases hrc : r.2 = 0
  · rw [if_pos hrc, if_pos hrc, recvLine_ok hP]
    rfl
  · rw [if_neg hrc, if_neg hrc, recvLine_fail hP]
    rfl

/-! ### A printed row -/

/-- The data of a row as it is sent: all of it, unless a negative id or a
long timestamp takes up the room. -/
def EntryLine.sentData (l : EntryLine) : Bytes :=
  l.data.take (32 + l.data.length - ((dec l.id.toInt).length + (dec l.ts.toInt).length + 2))

theorem sentData_eq {l : EntryLine} (h : 0 ≤ l.id.toInt) : l.sentData = l.data := by
  have hid := length_dec_int_le h
  have hts := length_dec_long_le l.ts
  exact List.take_of_length_le (by omega)

/-- The client's split of a printed row: the id and the timestamp come back,
the rest is up to the data. -/
theorem parseRow_text (P : Proto ν) (l : EntryLine) :
    parseRow P l.text = (strtok 32 l.sentData).map fun t => ⟨l.id, l.ts, shownText P t.1⟩ := by
  have hid := length_dec_int_le_eleven l.id
  have hts := length_dec_long_le l.ts
  have hidsp : (32 : UInt8) ∉ dec l.id.toInt := notMem_dec rfl (by decide)
  have htssp : (32 : UInt8) ∉ dec l.ts.toInt := notMem_dec rfl (by decide)
  by_cases hroom : (dec l.id.toInt).length + (dec l.ts.toInt).length + 2 ≤ 32 + l.data.length
  · -- both numbers and their blanks fit, and the data is cut to the room left
    have htext : l.text = dec l.id.toInt ++ 32 :: (dec l.ts.toInt ++ 32 :: l.sentData) := by
      have hrow : l.row = (dec l.id.toInt ++ 32 :: (dec l.ts.toInt ++ [32])) ++ l.data := by
        simp [EntryLine.row]
      have hlen : (dec l.id.toInt ++ 32 :: (dec l.ts.toInt ++ [32])).length
          = (dec l.id.toInt).length + (dec l.ts.toInt).length + 2 := by
        simp only [List.length_append, List.length_cons, List.length_nil]
        omega
      rw [EntryLine.text, snprintf, hrow, List.take_append, hlen,
        List.take_of_length_le (by omega), EntryLine.sentData]
      simp only [List.append_assoc, List.cons_append, List.nil_append]
      congr 6
    simp only [parseRow, htext, strtok_append (dec_ne_nil _) hidsp,
      strtok_append (dec_ne_nil _) htssp, atoi_dec, atol_dec]
    cases strtok 32 l.sentData <;> rfl
  · -- the widest id and timestamp, and no data: the last blank is cut off
    have hdata : l.data = [] := List.length_eq_zero_iff.mp (by omega)
    have htext : l.text = dec l.id.toInt ++ 32 :: dec l.ts.toInt := by
      have hrow : l.row = (dec l.id.toInt ++ 32 :: dec l.ts.toInt) ++ [32] := by
        simp [EntryLine.row, hdata]
      rw [EntryLine.text, snprintf, hrow, hdata, List.take_append_of_le_length,
        List.take_of_length_le]
      all_goals simp only [List.length_append, List.length_cons, List.length_nil]; omega
    have hnone : strtok 32 l.sentData = none := by simp [EntryLine.sentData, hdata, strtok]
    rw [hnone]
    simp only [parseRow, htext, strtok_append (dec_ne_nil _) hidsp,
      strtok_of_notMem (dec_ne_nil _) htssp]
    rfl

/-! ### GET -/

theorem length_collectEntry_le {c : EntryCollect} (hc : c.lines.length ≤ maxEntries)
    (id : Int32) (ts : Int64) (data : Bytes) :
    (collectEntry id ts data c).lines.length ≤ maxEntries := by
  rw [collectEntry]
  split
  · exact hc
  · split
    · exact hc
    · simp only [List.length_append, List.length_cons, List.length_nil]
      omega

theorem length_collect_le (malloc : List Bool) (v : List EntryLine) :
    (collect malloc v).length ≤ maxEntries := by
  have hfold : ∀ (v : List EntryLine) (c : EntryCollect), c.lines.length ≤ maxEntries →
      (v.foldl (fun c l => collectEntry l.id l.ts l.data c) c).lines.length ≤ maxEntries := by
    intro v
    induction v with
    | nil => exact fun c hc => hc
    | cons l v ih => exact fun c hc => ih _ (length_collectEntry_le hc l.id l.ts l.data)
  exact hfold v _ (Nat.zero_le _)

/-- The client reads the header, and has the rows still to read. -/
theorem recvLine_entries {P : Proto ν} (hP : P.Lawful) {rows : List EntryLine}
    (hlen : rows.length ≤ maxEntries) :
    P.recvLine 64 (Reply.entries rows).lines
      = (some (lit "ENTRIES " ++ dec rows.length), rows.map EntryLine.text) := by
  have hdec : (decNat rows.length).length ≤ 4 :=
    length_decNat_le (by decide) (lt_of_le_of_lt hlen (by decide))
  have hlit : (lit "ENTRIES ").length = 8 := rfl
  rw [Reply.lines, entries_header hlen]
  apply hP.recvLine_fits
  rw [List.length_append, dec_natCast]
  omega

/-- The rows the server sends in reply to a GET. -/
def sentRows (env : Env) (user : Bytes) (db : Db) : List EntryLine :=
  collect env.malloc (db.view user)

/-- What a GET leaves to read. -/
theorem send_get (env : Env) (user : Bytes) (db : Db) :
    World.send env user (lit "GET") ⟨db, []⟩
      = ⟨db, (if env.calloc = false then Reply.fail .outOfMemory
          else Reply.entries (sentRows env user db)).lines⟩ := by
  simp only [send_eq, parseLine_get, perform, storageGetEntries_collectEntry, sentRows,
    List.nil_append]

theorem isPrefixOf_entries (s : Bytes) :
    (lit "ENTRIES ").isPrefixOf (lit "ENTRIES " ++ s) = true := by
  simp [show lit "ENTRIES " = [69, 78, 84, 82, 73, 69, 83, 32] from rfl]

/-- `net_get_entries` on a connection in step. -/
theorem netGetEntries_eq {P : Proto ν} (hP : P.Lawful) {user : Bytes} {env : CallEnv ν}
    {w : World} (hw : w.unread = []) :
    netGetEntries P user env w
      = let rows := sentRows env.server user w.db
        if env.server.calloc = false then (w, none)
        else if rows = [] then (w, some [])
        else if env.calloc = false then (⟨w.db, rows.map EntryLine.text⟩, none)
        else
          (⟨w.db, (getRows P rows.length [] (rows.map EntryLine.text)).2⟩,
            (getRows P rows.length [] (rows.map EntryLine.text)).1.map sortNewestFirst) := by
  obtain ⟨db, unread⟩ := w
  obtain rfl : unread = [] := hw
  have hlen : (sentRows env.server user db).length ≤ maxEntries := length_collect_le _ _
  simp only [netGetEntries, send_get]
  generalize sentRows env.server user db = rows at hlen
  by_cases hcalloc : env.server.calloc = false
  · simp only [if_pos hcalloc, recvLine_fail hP]
    rfl
  simp only [if_neg hcalloc, recvLine_entries hP hlen, isPrefixOf_entries, if_true]
  -- the count is read back as it was printed
  have hcount : (lit "ENTRIES " ++ dec rows.length).drop 8 = dec rows.length := rfl
  have hmax : rows.length < 2 ^ 31 := lt_of_le_of_lt hlen (by decide)
  have hint := toInt_rowidToInt hmax
  have hatoi : atoi (dec rows.length) = rowidToInt rows.length := by
    rw [← hint]
    exact atoi_dec _
  rw [hcount, hatoi, hint, toNatClampNeg_rowidToInt hmax]
  cases rows with
  | nil => rfl
  | cons l rows =>
      have hpos : ¬ ((l :: rows).length : ℤ) ≤ 0 := by simp
      rw [if_neg hpos, if_neg (List.cons_ne_nil _ _)]

/-! ### Reading the rows -/

/-- A reply all of whose rows split. -/
theorem getRows_of_forall {P : Proto ν} (hP : P.Lawful) {lines : List Bytes}
    {es : List DiaryEntry} (h : lines.map (parseRow P) = es.map some) (arr : List DiaryEntry) :
    getRows P lines.length arr lines = (some (arr ++ es), []) := by
  induction lines generalizing es arr with
  | nil =>
      obtain rfl : es = [] := by simpa using h.symm
      simp [getRows]
  | cons line lines ih =>
      cases es with
      | nil => simp at h
      | cons e es =>
          obtain ⟨he, hes⟩ : parseRow P line = some e ∧ lines.map (parseRow P) = es.map some := by
            simpa using h
          simp only [getRows, List.length_cons, hP.recvLineDyn_cons, he, ih hes, List.append_assoc,
            List.singleton_append]

/-- A reply with a row that does not split: the loop ends there. -/
theorem getRows_of_bad {P : Proto ν} (hP : P.Lawful) {good : List Bytes} {bad : Bytes}
    (hgood : ∀ line ∈ good, (parseRow P line).isSome) (hbad : parseRow P bad = none)
    (rest : List Bytes) (arr : List DiaryEntry) :
    getRows P (good ++ bad :: rest).length arr (good ++ bad :: rest) = (none, rest) := by
  induction good generalizing arr with
  | nil => simp [getRows, hP.recvLineDyn_cons, hbad]
  | cons line good ih =>
      obtain ⟨e, he⟩ := Option.isSome_iff_exists.mp (hgood line (by simp))
      have hrest := ih (fun l hl => hgood l (by simp [hl])) (arr ++ [e])
      simpa [getRows, hP.recvLineDyn_cons, he] using hrest

/-- Lines not all of which split, cut at the first that does not. -/
theorem exists_first_bad {P : Proto ν} {lines : List Bytes}
    (h : ∃ line ∈ lines, parseRow P line = none) :
    ∃ good bad rest, lines = good ++ bad :: rest ∧
      (∀ line ∈ good, (parseRow P line).isSome) ∧ parseRow P bad = none := by
  have hfind : (lines.find? fun line => (parseRow P line).isNone).isSome := by
    rw [List.find?_isSome]
    obtain ⟨line, hline, hnone⟩ := h
    exact ⟨line, hline, by simp [hnone]⟩
  obtain ⟨bad, hbad⟩ := Option.isSome_iff_exists.mp hfind
  obtain ⟨hnone, good, rest, hlines, hgood⟩ := List.find?_eq_some_iff_append.mp hbad
  exact ⟨good, bad, rest, hlines, fun line hline => by simpa using hgood line hline,
    by simpa using hnone⟩

/-- A partial function that is defined on all of a list. -/
theorem exists_map_eq_map_some {α β : Type*} {f : α → Option β} {l : List α}
    (h : ∀ a ∈ l, (f a).isSome) : ∃ bs : List β, l.map f = bs.map some := by
  induction l with
  | nil => exact ⟨[], rfl⟩
  | cons a l ih =>
      obtain ⟨bs, hbs⟩ := ih fun a' ha' => h a' (by simp [ha'])
      obtain ⟨b, hb⟩ := Option.isSome_iff_exists.mp (h a (by simp))
      exact ⟨b :: bs, by simp [hb, hbs]⟩

/-! ### A library that keeps the promises

A stand-in for sealing that leaves the text readable: a tag before a text
of base64 characters, and failure for any other text. -/

def isBase64 (c : UInt8) : Bool :=
  (65 ≤ c && c ≤ 90) || (97 ≤ c && c ≤ 122) || (48 ≤ c && c ≤ 57) || c == 43 || c == 47 || c == 61

def sealTag : Bytes := lit "c2VhbGVk"

def taggingProto : Proto Unit where
  sealNew _ text := if text.all isBase64 then some (sealTag ++ text) else none
  unsealNew blob :=
    if sealTag.isPrefixOf blob && blob.all isBase64 then some (blob.drop 8) else none
  recvLine cap unread :=
    match unread with
    | [] => (none, [])
    | line :: rest => if line.length < cap then (some line, rest) else (none, rest)
  recvLineDyn unread :=
    match unread with
    | [] => (none, [])
    | line :: rest => (some line, rest)

theorem taggingProto_sealNew {n : Unit} {text b64 : Bytes}
    (h : taggingProto.sealNew n text = some b64) :
    text.all isBase64 = true ∧ sealTag ++ text = b64 := by
  simpa [taggingProto] using h

theorem taggingProto_lawful : taggingProto.Lawful where
  sealed_ne_nil h := by
    obtain ⟨-, rfl⟩ := taggingProto_sealNew h
    exact List.append_ne_nil_of_left_ne_nil (by decide) _
  sealed_no_space h := by
    obtain ⟨hall, rfl⟩ := taggingProto_sealNew h
    intro hmem
    rcases List.mem_append.mp hmem with hmem | hmem
    · exact absurd hmem (by decide)
    · exact absurd (List.all_eq_true.mp hall 32 hmem) (by decide)
  unseal_sealed {n text b64} h := by
    obtain ⟨hall, rfl⟩ := taggingProto_sealNew h
    have htag : sealTag.all isBase64 = true := by decide
    have hpre : sealTag.isPrefixOf (sealTag ++ text) = true :=
      List.isPrefixOf_iff_prefix.mpr (List.prefix_append _ _)
    simp only [taggingProto, List.all_append, htag, hall, hpre, Bool.and_self, if_true]
    rfl
  unseal_space {data} h := by
    have hall : data.all isBase64 = false :=
      List.all_eq_false.mpr ⟨32, h, by decide⟩
    simp only [taggingProto, hall, Bool.and_false, Bool.false_eq_true, if_false]
  recvLine_fits h := by simp [taggingProto, h]
  recvLineDyn_cons := rfl

end Diary
