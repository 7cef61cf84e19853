/-
Diary/Handler.lean

server/client_handler.c after registration: the dispatch of one request
line, the lines sent in reply, and the loop over the lines of a session.

A request reads its line and four things the code does not decide (`Env`):
the clock, whether the write statement it may run completes, and whether
the allocations of a GET succeed.

`parseLine` and `perform` split the dispatch in two, the command a line
spells and what the command does (`diaryCommand_eq`); everything after this
module argues about commands.
-/
import Diary.Machine
import Diary.Storage

namespace Diary

open CString

/-! ### GET: entry accumulator -/

/-- `MAX_ENTRIES`. -/
def maxEntries : ℕ := 1024

/-- What `collect_entry` is told about a row, and prints. -/
structure EntryLine where
  id : Int32
  ts : Int64
  data : Bytes
deriving DecidableEq

/-- `"%d %ld %s"`. -/
def EntryLine.row (l : EntryLine) : Bytes :=
  dec l.id.toInt ++ 32 :: (dec l.ts.toInt ++ 32 :: l.data)

/-- The line printed for a row, in the buffer `collect_entry` allocates for
it. -/
def EntryLine.text (l : EntryLine) : Bytes :=
  snprintf (10 + 1 + 20 + 1 + l.data.length + 1) l.row

/-- `entry_collect_t`: the lines collected so far (`count` is their number),
and what the coming calls of `malloc` return; past the end of the list they
succeed. -/
structure EntryCollect where
  lines : List EntryLine
  malloc : List Bool

/-- `collect_entry`. -/
def collectEntry (id : Int32) (ts : Int64) (data : Bytes) (c : EntryCollect) : EntryCollect :=
  if maxEntries ≤ c.lines.length then c
  else if c.malloc.head? = some false then { c with malloc := c.malloc.tail }
  else { lines := c.lines ++ [⟨id, ts, data⟩], malloc := c.malloc.tail }

/-! ### Replies -/

/-- The reasons of a `FAIL` in the command loop. -/
inductive Failure
  | saveEntry
  | outOfMemory
  | updateFormat
  | notFound
  | unknownCommand
deriving DecidableEq

def Failure.text : Failure → Bytes
  | .saveEntry => lit "FAIL could not save entry"
  | .outOfMemory => lit "FAIL out of memory"
  | .updateFormat => lit "FAIL invalid UPDATE format"
  | .notFound => lit "FAIL entry not found"
  | .unknownCommand => lit "FAIL unknown command"

/-- The reply to one request. -/
inductive Reply
  | bye
  | okId (id : Int32)
  | ok
  | entries (lines : List EntryLine)
  | fail (why : Failure)
deriving DecidableEq

/-- The lines a reply is sent as. -/
def Reply.lines : Reply → List Bytes
  | .bye => [lit "BYE"]
  | .okId id => [snprintf 32 (lit "OK " ++ dec id.toInt)]
  | .ok => [lit "OK"]
  | .entries ls => snprintf 32 (lit "ENTRIES " ++ dec ls.length) :: ls.map EntryLine.text
  | .fail why => [why.text]

/-! ### The command loop -/

/-- What a request reads besides its line. -/
structure Env where
  /-- `time(NULL)` -/
  now : Int64
  /-- the write statement of the request returns `SQLITE_DONE` -/
  done : Bool
  /-- the `calloc` of a GET succeeds -/
  calloc : Bool
  /-- the results of its `malloc` calls, as in `EntryCollect` -/
  malloc : List Bool
deriving DecidableEq

/-- The timestamp and the data of a POST payload. -/
def postFields (now : Int64) (payload : Bytes) : Int64 × Bytes :=
  match strchr payload 32 with
  | some sp =>
      let clientTs := atol payload
      if 0 < clientTs.toInt then (clientTs, payload.drop (sp + 1)) else (now, payload)
  | none => (now, payload)

/-- The body of the loop of `diary_handle`: one request line of an
authenticated user. -/
def diaryCommand (env : Env) (user line : Bytes) (db : Db) : Db × Reply :=
  if line = lit "QUIT" then (db, .bye)
  else if (lit "POST ").isPrefixOf line then
    let (ts, payload) := postFields env.now (line.drop 5)
    let (db, id) := storageAddEntry env.done user payload ts db
    if id.toInt < 0 then (db, .fail .saveEntry) else (db, .okId id)
  else if line = lit "GET" then
    if env.calloc = false then (db, .fail .outOfMemory)
    else (db, .entries (storageGetEntries user collectEntry ⟨[], env.malloc⟩ db).lines)
  else if (lit "UPDATE ").isPrefixOf line then
    match strchr (line.drop 7) 32 with
    | none => (db, .fail .updateFormat)
    | some sp =>
        let uid := atoi ((line.drop 7).take sp)
        let (db, rc) := storageUpdateEntry env.done user uid ((line.drop 7).drop (sp + 1)) db
        if rc = 0 then (db, .ok) else (db, .fail .notFound)
  else if (lit "DELETE ").isPrefixOf line then
    let delId := atoi (line.drop 7)
    let (db, rc) := storageDeleteEntry env.done user delId db
    if rc = 0 then (db, .ok) else (db, .fail .notFound)
  else (db, .fail .unknownCommand)

/-- The loop of `diary_handle` over the lines of one session, the last one
followed by the end of the connection. -/
def diaryLoop (user : Bytes) : Db → List (Env × Bytes) → Db × List Reply
  | db, [] => (db, [])
  | db, (env, line) :: rest =>
      let (db, reply) := diaryCommand env user line db
      if line = lit "QUIT" then (db, [reply])
      else
        let (db, replies) := diaryLoop user db rest
        (db, reply :: replies)

/-! ### Whole requests of many sessions -/

/-- A request line of some session of `user`. -/
structure Request where
  user : Bytes
  env : Env
  line : Bytes
deriving DecidableEq

/-- One request against the database the sessions share.  A session keeps
nothing between two lines but its user. -/
def serve (db : Db) (r : Request) : Db × Reply := diaryCommand r.env r.user r.line db

/-- A session alone is a run of its requests, up to its QUIT. -/
theorem diaryLoop_eq_run (user : Bytes) (db : Db) (ls : List (Env × Bytes))
    (hquit : ∀ l ∈ ls, l.2 ≠ lit "QUIT") :
    diaryLoop user db ls
      = (Machine.final serve db (ls.map fun l => ⟨user, l.1, l.2⟩),
        (Machine.trace serve db (ls.map fun l => ⟨user, l.1, l.2⟩)).map Prod.snd) := by
  induction ls generalizing db with
  | nil => rfl
  | cons l ls ih =>
      obtain ⟨env, line⟩ := l
      -- no line ends the loop early
      have hl : line ≠ lit "QUIT" := hquit (env, line) (by simp)
      have ih' := ih (diaryCommand env user line db).1 fun l h => hquit l (by simp [h])
      simp only [diaryLoop, if_neg hl, ih']
      rfl

/-! ### Commands -/

/-- What a request line spells. -/
inductive Command
  | quit
  | post (ts : Int64) (data : Bytes)
  | get
  | update (id : Int32) (data : Bytes)
  | badUpdate
  | delete (id : Int32)
  | unknown
deriving DecidableEq

/-- The command a line spells, at a given time of the server's clock. -/
def parseLine (now : Int64) (line : Bytes) : Command :=
  if line = lit "QUIT" then .quit
  else if (lit "POST ").isPrefixOf line then
    .post (postFields now (line.drop 5)).1 (postFields now (line.drop 5)).2
  else if line = lit "GET" then .get
  else if (lit "UPDATE ").isPrefixOf line then
    match strchr (line.drop 7) 32 with
    | none => .badUpdate
    | some sp => .update (atoi ((line.drop 7).take sp)) ((line.drop 7).drop (sp + 1))
  else if (lit "DELETE ").isPrefixOf line then .delete (atoi (line.drop 7))
  else .unknown

/-! Three request lines as a client prints them. -/

theorem parseLine_post (now : Int64) (payload : Bytes) :
    parseLine now (lit "POST " ++ payload)
      = .post (postFields now payload).1 (postFields now payload).2 := by
  simp [parseLine, show lit "QUIT" = [81, 85, 73, 84] from rfl,
    show lit "POST " = [80, 79, 83, 84, 32] from rfl]

theorem parseLine_update (now : Int64) (id : Int32) (data : Bytes) :
    parseLine now (lit "UPDATE " ++ (dec id.toInt ++ 32 :: data)) = .update id data := by
  have hsp : strchr (dec id.toInt ++ 32 :: data) 32 = some (dec id.toInt).length :=
    strchr_append (notMem_dec rfl (by decide))
  simp [parseLine, show lit "QUIT" = [81, 85, 73, 84] from rfl,
    show lit "POST " = [80, 79, 83, 84, 32] from rfl, show lit "GET" = [71, 69, 84] from rfl,
    show lit "UPDATE " = [85, 80, 68, 65, 84, 69, 32] from rfl, hsp, atoi_dec]

theorem parseLine_delete (now : Int64) (id : Int32) :
    parseLine now (lit "DELETE " ++ dec id.toInt) = .delete id := by
  simp [parseLine, show lit "QUIT" = [81, 85, 73, 84] from rfl,
    show lit "POST " = [80, 79, 83, 84, 32] from rfl, show lit "GET" = [71, 69, 84] from rfl,
    show lit "UPDATE " = [85, 80, 68, 65, 84, 69, 32] from rfl,
    show lit "DELETE " = [68, 69, 76, 69, 84, 69, 32] from rfl, atoi_dec]

/-- What a command does. -/
def perform (env : Env) (user : Bytes) (db : Db) : Command → Db × Reply
  | .quit => (db, .bye)
  | .post ts data =>
      let r := storageAddEntry env.done user data ts db
      (r.1, if r.2.toInt < 0 then .fail .saveEntry else .okId r.2)
  | .get =>
      (db, if env.calloc = false then .fail .outOfMemory
        else .entries (storageGetEntries user collectEntry ⟨[], env.malloc⟩ db).lines)
  | .update id data =>
      let r := storageUpdateEntry env.done user id data db
      (r.1, if r.2 = 0 then .ok else .fail .notFound)
  | .badUpdate => (db, .fail .updateFormat)
  | .delete id =>
      let r := storageDeleteEntry env.done user id db
      (r.1, if r.2 = 0 then .ok else .fail .notFound)
  | .unknown => (db, .fail .unknownCommand)

/-- The dispatch performs the command its line spells. -/
theorem diaryCommand_eq (env : Env) (user line : Bytes) (db : Db) :
    diaryCommand env user line db = perform env user db (parseLine env.now line) := by
  unfold diaryCommand parseLine
  -- the branches are tried in the order of the source
  by_cases hquit : line = lit "QUIT"
  · simp [hquit, perform]
  by_cases hpost : (lit "POST ").isPrefixOf line = true
  · simp only [hquit, hpost, if_true, if_false, perform]
    split <;> rfl
  by_cases hget : line = lit "GET"
  · simp only [if_neg hquit, if_neg hpost, if_pos hget, perform]
    split <;> rfl
  by_cases hupd : (lit "UPDATE ").isPrefixOf line = true
  · simp only [hquit, hpost, hget, hupd, if_true, if_false, Bool.false_eq_true]
    rcases strchr (line.drop 7) 32 with - | sp
    · rfl
    · simp only [perform]
      split <;> rfl
  by_cases hdel : (lit "DELETE ").isPrefixOf line = true
  · simp only [hquit, hpost, hget, hupd, hdel, if_true, if_false, Bool.false_eq_true, perform]
    split <;> rfl
  simp [hquit, hpost, hget, hupd, hdel, perform]

theorem serve_eq (db : Db) (r : Request) :
    serve db r = perform r.env r.user db (parseLine r.env.now r.line) :=
  diaryCommand_eq _ _ _ _

/-! ### What one request can do -/

/-- Everything a request can do to the database, with the reply it gets. -/
inductive Effect (db : Db) (r : Request) : Db → Reply → Prop
  | post {ts data} (hline : parseLine r.env.now r.line = .post ts data)
      (hroom : db.entries.seq < maxRowid) :
      Effect db r { db with entries := db.entries.insert ⟨r.user, ts, data⟩ }
        (if (rowidToInt (db.entries.seq + 1)).toInt < 0 then .fail .saveEntry
          else .okId (rowidToInt (db.entries.seq + 1)))
  | update {id data e} (hline : parseLine r.env.now r.line = .update id data)
      (he : db.entries.lookup id.toNatClampNeg = some e) (hu : e.authPubkey = r.user) :
      Effect db r
        { db with entries :=
            db.entries.modify (namedBy r.user id) fun e => { e with data := data } } .ok
  | delete {id e} (hline : parseLine r.env.now r.line = .delete id)
      (he : db.entries.lookup id.toNatClampNeg = some e) (hu : e.authPubkey = r.user) :
      Effect db r { db with entries := db.entries.remove (namedBy r.user id) } .ok
  | get (hline : parseLine r.env.now r.line = .get) :
      Effect db r db
        (.entries (storageGetEntries r.user collectEntry ⟨[], r.env.malloc⟩ db).lines)
  | bye (hline : parseLine r.env.now r.line = .quit) : Effect db r db .bye
  | fail (why : Failure) : Effect db r db (.fail why)

theorem serve_effect (db : Db) (r : Request) :
    Effect db r (serve db r).1 (serve db r).2 := by
  rw [serve_eq]
  rcases hline : parseLine r.env.now r.line with - | ⟨ts, data⟩ | - | ⟨id, data⟩ | - | id | -
  · exact .bye hline
  · rcases storageAddEntry_cases r.env.done r.user data ts db with ⟨-, hroom, h⟩ | h
    · simp only [perform, h]
      exact .post hline hroom
    · simp only [perform, h]
      exact .fail .saveEntry
  · simp only [perform]
    split
    · exact .fail .outOfMemory
    · exact .get hline
  · rcases storageUpdateEntry_cases r.env.done r.user id data db with ⟨e, -, he, hu, h⟩ | h
    · simp only [perform, h]
      exact .update hline he hu
    · simp only [perform, h]
      exact .fail .notFound
  · exact .fail .updateFormat
  · rcases storageDeleteEntry_cases r.env.done r.user id db with ⟨e, -, he, hu, h⟩ | h
    · simp only [perform, h]
      exact .delete hline he hu
    · simp only [perform, h]
      exact .fail .notFound
  · exact .fail .unknownCommand

theorem effect_of_serve {db db' : Db} {r : Request} {reply : Reply}
    (h : serve db r = (db', reply)) : Effect db r db' reply := by
  have he := serve_effect db r
  rwa [h] at he

/-- The id counter never goes back. -/
theorem seq_le_serve (db : Db) (r : Request) :
    db.entries.seq ≤ (serve db r).1.entries.seq := by
  rcases hs : serve db r with ⟨db', reply⟩
  cases effect_of_serve hs with
  | post => exact Nat.le_succ _
  | update | delete | get | bye | fail => exact Nat.le_refl _

/-- No request of the loop touches `users`. -/
theorem users_serve (db : Db) (r : Request) : (serve db r).1.users = db.users := by
  rcases hs : serve db r with ⟨db', reply⟩
  cases effect_of_serve hs <;> rfl

end Diary
