/-
Diary/DiaryConnection.lean

The four calls of DiaryConnection.java on an open connection: a line is
sent, the server answers it, and the reply is read from the bytes that have
come in.

Each call has one lemma that says what it does with nothing left unread, in
terms of the reply of the server.
-/
import Diary.Crypto

namespace Diary

open CString Machine

variable {ν : Type*}

/-! ### The source -/

/-- The connection of a device: the database behind it, and the bytes sent
to the device and not read yet. -/
structure Socket where
  db : Db
  stream : Bytes

/-- `sendLine`: the server serves the line as it arrives. -/
def Socket.sendLine (env : Env) (user line : Bytes) (w : Socket) : Socket :=
  let (db, reply) := diaryCommand env user line w.db
  ⟨db, w.stream ++ wire reply.lines⟩

/-- What a call reads from outside: the randomness of the sealing, and what
the server reads while it serves the line. -/
structure PhoneEnv (ν : Type*) where
  nonce : ν
  server : Env

/-- DiaryEntry.java. -/
structure JavaEntry where
  id : Int32
  timestamp : Int64
  text : List UInt16
deriving DecidableEq

/-- The id a reply says an entry was stored under. -/
def Reply.storedId : Reply → Option Int32
  | .okId id => some id
  | .bye | .ok | .entries _ | .fail _ => none

namespace DiaryConnection

/-- The text shown of a blob that does not open. -/
def couldNotDecrypt : List UInt16 := CodeText.encode utf16 "[could not decrypt]".toList

section Source

variable (S : Sodium ν) (keys : ConnectionKeys) (user : Bytes)

/-- `postEntry`; `none` is an exception. -/
def postEntry (env : PhoneEnv ν) (text : List UInt16) (w : Socket) : Socket × Option Int32 :=
  match sealToBase64 S env.nonce text keys.encPk with
  | none => (w, none)
  | some b64 =>
      let w := w.sendLine env.server user (lit "POST " ++ b64)
      match readLine w.stream with
      | none => (w, none)
      | some (resp, stream) =>
          ({ w with stream := stream },
            if (lit "OK ").isPrefixOf resp then parseInt (trim (resp.drop 3)) else none)

/-- `updateEntry`. -/
def updateEntry (env : PhoneEnv ν) (id : Int32) (text : List UInt16) (w : Socket) :
    Socket × Option Int32 :=
  match sealToBase64 S env.nonce text keys.encPk with
  | none => (w, none)
  | some b64 =>
      let w := w.sendLine env.server user (lit "UPDATE " ++ (dec id.toInt ++ 32 :: b64))
      match readLine w.stream with
      | none => (w, none)
      | some (resp, stream) =>
          ({ w with stream := stream }, if resp = lit "OK" then some id else none)

/-- `deleteEntry`. -/
def deleteEntry (env : PhoneEnv ν) (id : Int32) (w : Socket) : Socket × Option Unit :=
  let w := w.sendLine env.server user (lit "DELETE " ++ dec id.toInt)
  match readLine w.stream with
  | none => (w, none)
  | some (resp, stream) =>
      ({ w with stream := stream }, if resp = lit "OK" then some () else none)

/-- The entry of a row; `none` is an exception of `Crypto.unsealFromBase64`. -/
def entryOf (id : Int32) (ts : Int64) (b64 : Bytes) : Option JavaEntry :=
  (unsealToString S b64 keys.encPk keys.encSk).map fun text =>
    ⟨id, ts, text.getD couldNotDecrypt⟩

/-- `getEntries`. -/
def getEntries (env : PhoneEnv ν) (w : Socket) : Socket × Option (List JavaEntry) :=
  let w := w.sendLine env.server user (lit "GET")
  let (stream, entries) := Diary.getEntries (entryOf S keys) w.stream
  ({ w with stream := stream }, entries)

end Source

/-! ### Replies of one line -/

theorem readLine_ok : readLine (wire Reply.ok.lines) = some (lit "OK", []) :=
  readLine_wire (isBreak_of_all (by decide)) []

theorem readLine_fail (why : Failure) :
    readLine (wire (Reply.fail why).lines) = some (why.text, []) :=
  readLine_wire (isBreak_of_all (by cases why <;> decide)) []

theorem readLine_okId (id : Int32) :
    readLine (wire (Reply.okId id).lines) = some (lit "OK " ++ dec id.toInt, []) := by
  rw [okId_lines]
  refine readLine_wire (fun c hc => ?_) []
  rcases List.mem_append.mp hc with hc | hc
  · exact isBreak_of_all (by decide : ((lit "OK ").all fun c => !isBreak c) = true) c hc
  · exact isBreak_of_mem_dec hc

/-! ### The calls -/

variable {S : Sodium ν} {keys : ConnectionKeys} {user : Bytes} {db : Db} {env : PhoneEnv ν}

theorem sendLine_eq (env : Env) (user line : Bytes) (db : Db) :
    Socket.sendLine env user line ⟨db, []⟩
      = ⟨(serve db ⟨user, env, line⟩).1, wire (serve db ⟨user, env, line⟩).2.lines⟩ := rfl

/-- A POST without a timestamp gets the server's. -/
theorem parseLine_post_of_no_space (now : Int64) {b64 : Bytes} (h : (32 : UInt8) ∉ b64) :
    parseLine now (lit "POST " ++ b64) = .post now b64 := by
  rw [parseLine_post, postFields, strchr_eq_none h]

theorem postEntry_eq (user : Bytes) (db : Db) {text : List UInt16} {b64 : Bytes}
    (hseal : sealToBase64 S env.nonce text keys.encPk = some b64) (hsp : (32 : UInt8) ∉ b64) :
    postEntry S keys user env text ⟨db, []⟩
      = (⟨(serve db ⟨user, env.server, lit "POST " ++ b64⟩).1, []⟩,
          (serve db ⟨user, env.server, lit "POST " ++ b64⟩).2.storedId) := by
  simp only [postEntry, hseal, sendLine_eq, serve_eq, parseLine_post_of_no_space _ hsp, perform]
  generalize storageAddEntry env.server.done user b64 env.server.now db = r
  by_cases hid : r.2.toInt < 0
  · rw [if_pos hid, readLine_fail]
    rfl
  · rw [if_neg hid, readLine_okId]
    simp only [show (lit "OK " ++ dec r.2.toInt).drop 3 = dec r.2.toInt from rfl, trim_dec,
      parseInt_dec, List.isPrefixOf_iff_prefix.mpr (List.prefix_append _ _), if_true]
    rfl

theorem updateEntry_eq (user : Bytes) (db : Db) (id : Int32) {text : List UInt16} {b64 : Bytes}
    (hseal : sealToBase64 S env.nonce text keys.encPk = some b64) :
    updateEntry S keys user env id text ⟨db, []⟩
      = (⟨(serve db ⟨user, env.server, lit "UPDATE " ++ (dec id.toInt ++ 32 :: b64)⟩).1, []⟩,
          if (serve db ⟨user, env.server, lit "UPDATE " ++ (dec id.toInt ++ 32 :: b64)⟩).2 = .ok
          then some id else none) := by
  simp only [updateEntry, hseal, sendLine_eq, serve_eq, parseLine_update, perform]
  generalize storageUpdateEntry env.server.done user id b64 db = r
  by_cases hrc : r.2 = 0
  · rw [if_pos hrc, readLine_ok]
    rfl
  · rw [if_neg hrc, readLine_fail]
    rfl

theorem deleteEntry_eq (user : Bytes) (env : PhoneEnv ν) (db : Db) (id : Int32) :
    deleteEntry user env id ⟨db, []⟩
      = (⟨(serve db ⟨user, env.server, lit "DELETE " ++ dec id.toInt⟩).1, []⟩,
          if (serve db ⟨user, env.server, lit "DELETE " ++ dec id.toInt⟩).2 = .ok then some ()
          else none) := by
  simp only [deleteEntry, sendLine_eq, serve_eq, parseLine_delete, perform]
  generalize storageDeleteEntry env.server.done user id db = r
  by_cases hrc : r.2 = 0
  · rw [if_pos hrc, readLine_ok]
    rfl
  · rw [if_neg hrc, readLine_fail]
    rfl

/-! ### GET -/

/-- A row that opens, and what it is opened as. -/
structure Opens (S : Sodium ν) (keys : ConnectionKeys) (l : EntryLine) (e : JavaEntry) :
    Prop where
  one_line : ∀ c ∈ l.data, isBreak c = false
  text_eq : l.text = l.row
  opened : ∃ text, unsealToString S l.data keys.encPk keys.encSk = some text ∧
    e = ⟨l.id, l.ts, text.getD couldNotDecrypt⟩

theorem readEntry_opens {l : EntryLine} {e : JavaEntry} (h : Opens S keys l e) :
    readEntry (entryOf S keys) l.row = some (some e) := by
  obtain ⟨text, htext, rfl⟩ := h.opened
  rw [readEntry_row, entryOf, htext]
  rfl

theorem readEntries_opens {rows : List EntryLine} {es : List JavaEntry}
    (h : List.Forall₂ (Opens S keys) rows es) (entries : List JavaEntry) :
    readEntries (entryOf S keys) rows.length entries (wire (rows.map EntryLine.text))
      = ([], some (entries ++ es)) := by
  induction h generalizing entries with
  | nil => rw [List.append_nil]; rfl
  | @cons l e rows es hl hrest ih =>
      have hline := readLine_wire (isBreak_row hl.one_line) (rows.map EntryLine.text)
      rw [List.length_cons, List.map_cons, hl.text_eq, readEntries_succ hline]
      simp only [readEntry_opens hl, ih, Option.toList_some, List.append_assoc,
        List.singleton_append]

/-- The device lists the rows that were sent, if they all open. -/
theorem getEntries_opens {es : List JavaEntry} (hcalloc : env.server.calloc = true)
    (h : List.Forall₂ (Opens S keys) (sentRows env.server user db) es) :
    getEntries S keys user env ⟨db, []⟩ = (⟨db, []⟩, some es) := by
  have hlen : (sentRows env.server user db).length ≤ maxEntries := length_collect_le _ _
  have hmax : (sentRows env.server user db).length < 2 ^ 31 := lt_of_le_of_lt hlen (by decide)
  have hserve : serve db ⟨user, env.server, lit "GET"⟩
      = (db, .entries (sentRows env.server user db)) := by
    rw [serve_eq, parseLine_get rfl]
    simp [perform, hcalloc, sentRows, storageGetEntries_collectEntry]
  simp only [getEntries, sendLine_eq, hserve, Reply.lines, entries_header hlen,
    getEntries_wire _ hmax, readEntries_opens h, List.nil_append]

/-- A GET leaves the database alone, whatever it reads. -/
theorem db_getEntries (w : Socket) : (getEntries S keys user env w).1.db = w.db := by
  show (diaryCommand env.server user (lit "GET") w.db).1 = w.db
  rw [diaryCommand_eq, parseLine_get rfl]
  rfl

/-- A GET the server has no memory for throws. -/
theorem getEntries_fail (S : Sodium ν) (keys : ConnectionKeys) (user : Bytes) (db : Db)
    (hcalloc : env.server.calloc = false) :
    getEntries S keys user env ⟨db, []⟩ = (⟨db, []⟩, none) := by
  have hserve : serve db ⟨user, env.server, lit "GET"⟩ = (db, .fail .outOfMemory) := by
    rw [serve_eq, parseLine_get rfl]
    simp [perform, hcalloc]
  simp only [getEntries, Diary.getEntries, sendLine_eq, hserve, readLine_fail]
  rfl

end DiaryConnection

end Diary
