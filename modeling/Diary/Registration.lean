/-
Diary/Registration.lean

server/client_handler.c from the authentication to the end of a session:
the existence check, REGISTER, and the command loop behind them.

`diaryHandle` is a session on its own, as the code reads.  `Server.step`
takes the same session apart into the steps other sessions can come between
(the check, the line read, the INSERT, the reply, each request), and
`run_events` says that a session nobody interrupts is `diaryHandle`.

* `registration_gates`: no command runs for a user without a row in
  `users`; a registration that fails leaves both tables alone; over any
  sessions, every row the server inserts has a key of the right length and
  stays.
* `registration_agreement_iff`: check and INSERT are two transactions, and
  `INSERT OR IGNORE` reports success for a row it ignored.  So a session that
  was answered OK has its key in `users` exactly if no other first contact
  inserted another key in between; `two_first_contacts` is a run in which one
  did.
-/
import Diary.Handler

namespace Diary

open CString Machine

/-! ### The table `users` -/

theorem storageUserExists_iff {user : Bytes} {db : Db} :
    storageUserExists user db = true ↔ ∃ key, (user, key) ∈ db.users.rows := by
  simp only [storageUserExists, List.any_eq_true, beq_iff_eq]
  constructor
  · rintro ⟨⟨u, key⟩, hrow, rfl⟩
    exact ⟨key, hrow⟩
  · rintro ⟨key, hrow⟩
    exact ⟨_, hrow, rfl⟩

theorem UserTable.key_unique {t : UserTable} {user k k' : Bytes} (hk : (user, k) ∈ t.rows)
    (hk' : (user, k') ∈ t.rows) : k = k' :=
  congrArg Prod.snd (List.inj_on_of_nodup_map t.nodup hk hk' rfl)

theorem UserTable.mem_insertOrIgnore {t : UserTable} {user key : Bytes} {r : Bytes × Bytes} :
    r ∈ (t.insertOrIgnore user key).rows ↔
      r ∈ t.rows ∨ r = (user, key) ∧ user ∉ t.rows.map Prod.fst := by
  rw [UserTable.insertOrIgnore]
  split
  · next h => simp [h]
  · next h => simp [h, or_comm]

/-- The key a user has is the one in the user's row. -/
theorem storageGetEncryptPubkey_eq_some_iff {user key : Bytes} {db : Db} :
    storageGetEncryptPubkey user db = some key ↔ (user, key) ∈ db.users.rows := by
  rw [storageGetEncryptPubkey]
  constructor
  · intro h
    obtain ⟨⟨u, k⟩, hfind, rfl⟩ := Option.map_eq_some_iff.mp h
    have hu : u = user := by simpa using List.find?_some hfind
    subst hu
    exact List.mem_of_find?_eq_some hfind
  · intro h
    obtain ⟨⟨u, k⟩, hfind⟩ := Option.isSome_iff_exists.mp
      (List.find?_isSome (p := fun r : Bytes × Bytes => r.1 == user).mpr ⟨_, h, by simp⟩)
    have hu : u = user := by simpa using List.find?_some hfind
    subst hu
    rw [hfind, UserTable.key_unique h (List.mem_of_find?_eq_some hfind), Option.map_some]

/-! ### A session on its own -/

/-- What the handler uses of the crypto library: `sodium_base642bin`, told
the capacity of its output, and `ENC_PK_LEN`. -/
structure KeyCodec where
  base642bin : ℕ → Bytes → Option Bytes
  encPkLen : ℕ

variable (C : KeyCodec)

/-- The test on the key of a REGISTER line: it decodes, to exactly
`ENC_PK_LEN` bytes. -/
def KeyCodec.accepts (epkB64 : Bytes) : Bool :=
  match C.base642bin C.encPkLen epkB64 with
  | none => false
  | some epk => epk.length == C.encPkLen

/-- What a session reads from outside. -/
structure Transcript where
  /-- `storage_init` returns 0 -/
  init : Bool
  /-- what `proto_recv_line` reads after REGISTER, if it does not fail -/
  register : Option Bytes
  /-- the INSERT of the registration returns `SQLITE_DONE` -/
  done : Bool
  /-- the lines `proto_recv_line_dyn` returns until it returns NULL -/
  lines : List (Env × Bytes)

/-- What a session does: the database it leaves, the lines it sends before
the command loop, and the replies of the loop, one for each line run. -/
structure Handled where
  db : Db
  hello : List Bytes
  replies : List Reply

/-- `diary_handle`. -/
def diaryHandle (user : Bytes) (t : Transcript) (db : Db) : Handled :=
  if t.init = false then ⟨db, [lit "FAIL db"], []⟩
  else if storageUserExists user db = false then
    match t.register with
    | none => ⟨db, [lit "REGISTER"], []⟩
    | some line =>
        if (lit "REGISTER ").isPrefixOf line = false then
          ⟨db, [lit "REGISTER", lit "FAIL expected REGISTER <enc_pubkey_b64>"], []⟩
        else
          let epkB64 := line.drop 9
          if C.accepts epkB64 = false then
            ⟨db, [lit "REGISTER", lit "FAIL invalid encryption key"], []⟩
          else
            let (db, rc) := storageRegisterUser t.done user epkB64 db
            if rc ≠ 0 then ⟨db, [lit "REGISTER", lit "FAIL could not register user"], []⟩
            else
              let (db, replies) := diaryLoop user db t.lines
              ⟨db, [lit "REGISTER", lit "OK"], replies⟩
  else
    let (db, replies) := diaryLoop user db t.lines
    ⟨db, [lit "OK"], replies⟩

/-! ### Registration gates the session -/

variable {C}

/-- The key of a REGISTER line decodes to exactly `ENC_PK_LEN` bytes. -/
def KeyCodec.Decodes (C : KeyCodec) (epkB64 : Bytes) : Prop :=
  ∃ epk, C.base642bin C.encPkLen epkB64 = some epk ∧ epk.length = C.encPkLen

theorem accepts_iff {epkB64 : Bytes} : C.accepts epkB64 = true ↔ C.Decodes epkB64 := by
  rw [KeyCodec.accepts, KeyCodec.Decodes]
  split
  · next h => simp [h]
  · next epk h => simp [h]

/-- A first line that does not register: it is missing, is no REGISTER, or
its key does not decode. -/
def BadFirstLine (C : KeyCodec) : Option Bytes → Prop
  | none => True
  | some line => ¬ (lit "REGISTER ") <+: line ∨ ¬ C.Decodes (line.drop 9)

/-- How a session gets to the command loop, and the database it gets there
with. -/
inductive Admitted (C : KeyCodec) (user : Bytes) (t : Transcript) (db : Db) : Db → Prop
  | known (h : storageUserExists user db = true) : Admitted C user t db db
  | registered {line} (hnew : storageUserExists user db = false)
      (hline : t.register = some line) (hreg : (lit "REGISTER ") <+: line)
      (hkey : C.Decodes (line.drop 9)) :
      Admitted C user t db (storageRegisterUser true user (line.drop 9) db).1

/-- What a session can do: nothing, or the command loop behind the gate. -/
theorem diaryHandle_cases (C : KeyCodec) (user : Bytes) (t : Transcript) (db : Db) :
    (diaryHandle C user t db).db = db ∧ (diaryHandle C user t db).replies = [] ∨
      ∃ db₁, Admitted C user t db db₁ ∧
        ((diaryHandle C user t db).db, (diaryHandle C user t db).replies)
          = diaryLoop user db₁ t.lines := by
  rw [diaryHandle]
  split
  · exact Or.inl ⟨rfl, rfl⟩
  by_cases hnew : storageUserExists user db = false
  · rw [if_pos hnew]
    rcases hline : t.register with - | line
    · exact Or.inl ⟨rfl, rfl⟩
    simp only
    -- the three tests on the first line, in the order of the source
    split
    · exact Or.inl ⟨rfl, rfl⟩
    next hreg =>
    split
    · exact Or.inl ⟨rfl, rfl⟩
    next hkey =>
    cases hdone : t.done with
    | false => exact Or.inl ⟨rfl, rfl⟩
    | true =>
        refine Or.inr ⟨_, .registered hnew hline ?_ ?_, rfl⟩
        · exact List.isPrefixOf_iff_prefix.mp (Bool.eq_true_of_not_eq_false hreg)
        · exact accepts_iff.mp (Bool.eq_true_of_not_eq_false hkey)
  · rw [if_neg hnew]
    exact Or.inr ⟨db, .known (Bool.eq_true_of_not_eq_false hnew), rfl⟩

theorem users_diaryLoop (user : Bytes) (db : Db) (ls : List (Env × Bytes)) :
    (diaryLoop user db ls).1.users = db.users := by
  induction ls generalizing db with
  | nil => rfl
  | cons l ls ih =>
      obtain ⟨env, line⟩ := l
      have hone : (diaryCommand env user line db).1.users = db.users :=
        users_serve db ⟨user, env, line⟩
      simp only [diaryLoop]
      split
      · exact hone
      · exact (ih _).trans hone

/-- Behind the gate the user has a row.  Every row of before is still there,
and a new one is the user's, with a good key. -/
theorem Admitted.users {user : Bytes} {t : Transcript} {db db₁ : Db}
    (h : Admitted C user t db db₁) :
    storageUserExists user db₁ = true ∧ (∀ r ∈ db.users.rows, r ∈ db₁.users.rows) ∧
      ∀ r ∈ db₁.users.rows, r ∈ db.users.rows ∨ r.1 = user ∧ C.Decodes r.2 := by
  cases h with
  | known h => exact ⟨h, fun r hr => hr, fun r hr => Or.inl hr⟩
  | @registered line hnew hline hreg hkey =>
      have hnone : user ∉ db.users.rows.map Prod.fst := by
        intro hmem
        obtain ⟨⟨u, key⟩, hrow, rfl⟩ := List.mem_map.mp hmem
        rw [storageUserExists_iff.mpr ⟨key, hrow⟩] at hnew
        cases hnew
      have hrows : ∀ r, r ∈ (storageRegisterUser true user (line.drop 9) db).1.users.rows ↔
          r ∈ db.users.rows ∨ r = (user, line.drop 9) := by
        intro r
        simp only [storageRegisterUser, if_true, UserTable.mem_insertOrIgnore, hnone,
          not_false_iff, and_true]
      refine ⟨storageUserExists_iff.mpr ⟨line.drop 9, (hrows _).mpr (Or.inr rfl)⟩,
        fun r hr => (hrows r).mpr (Or.inl hr), fun r hr => ?_⟩
      rcases (hrows r).mp hr with hold | rfl
      · exact Or.inl hold
      · exact Or.inr ⟨rfl, hkey⟩

/-- One session keeps every row of `users` and adds rows with a good key
only. -/
theorem users_diaryHandle (user : Bytes) (t : Transcript) (db : Db) :
    (∀ r ∈ db.users.rows, r ∈ (diaryHandle C user t db).db.users.rows) ∧
      ∀ r ∈ (diaryHandle C user t db).db.users.rows, r ∈ db.users.rows ∨ C.Decodes r.2 := by
  rcases diaryHandle_cases C user t db with ⟨hdb, -⟩ | ⟨db₁, hadm, hloop⟩
  · rw [hdb]
    exact ⟨fun r hr => hr, fun r hr => Or.inl hr⟩
  · have hdb : (diaryHandle C user t db).db.users = db₁.users :=
      (congrArg (fun q => q.1.users) hloop).trans (users_diaryLoop user db₁ t.lines)
    obtain ⟨-, hkeep, hnew⟩ := hadm.users
    rw [hdb]
    exact ⟨hkeep, fun r hr => (hnew r hr).imp_right And.right⟩

/-- The database after some sessions, one after the other. -/
def afterSessions (C : KeyCodec) (db : Db) (ss : List (Bytes × Transcript)) : Db :=
  ss.foldl (fun db s => (diaryHandle C s.1 s.2 db).db) db

theorem users_afterSessions (db : Db) (ss : List (Bytes × Transcript)) :
    (∀ r ∈ db.users.rows, r ∈ (afterSessions C db ss).users.rows) ∧
      ∀ r ∈ (afterSessions C db ss).users.rows, r ∈ db.users.rows ∨ C.Decodes r.2 := by
  induction ss generalizing db with
  | nil => exact ⟨fun r hr => hr, fun r hr => Or.inl hr⟩
  | cons s ss ih =>
      obtain ⟨hkeep, hnew⟩ := users_diaryHandle (C := C) s.1 s.2 db
      obtain ⟨hkeep', hnew'⟩ := ih (diaryHandle C s.1 s.2 db).db
      refine ⟨fun r hr => hkeep' r (hkeep r hr), fun r hr => ?_⟩
      rcases hnew' r hr with hold | hkey
      · exact hnew r hold
      · exact Or.inr hkey

/-- A session that does not register does nothing. -/
theorem diaryHandle_of_badFirstLine {user : Bytes} {t : Transcript} {db : Db}
    (hnew : storageUserExists user db = false) (hbad : BadFirstLine C t.register) :
    (diaryHandle C user t db).db = db ∧ (diaryHandle C user t db).replies = [] := by
  rcases diaryHandle_cases C user t db with h | ⟨db₁, hadm, -⟩
  · exact h
  · -- the only other way in is a line that registers
    cases hadm with
    | known h =>
        rw [hnew] at h
        cases h
    | registered _ hline hreg hkey =>
        rw [hline] at hbad
        rcases hbad with hbad | hbad
        · exact absurd hreg hbad
        · exact absurd hkey hbad

/-- **Registration gates the session, and fails atomically.**  A session
answers no request and leaves the database as it was, or runs its lines from
a database in which its user has a row.
A first line that does not register leaves the database alone and no line is
run after it.  And over any sessions every row of `users` was there before
them or has a key that decodes to `ENC_PK_LEN` bytes, and stays. -/
theorem registration_gates (C : KeyCodec) (db : Db) :
    (∀ user t, (diaryHandle C user t db).db = db ∧ (diaryHandle C user t db).replies = [] ∨
      ∃ db₁, Admitted C user t db db₁ ∧ storageUserExists user db₁ = true ∧
        ((diaryHandle C user t db).db, (diaryHandle C user t db).replies)
          = diaryLoop user db₁ t.lines) ∧
    (∀ user t, storageUserExists user db = false → BadFirstLine C t.register →
      (diaryHandle C user t db).db = db ∧ (diaryHandle C user t db).replies = []) ∧
    ∀ ss ss' : List (Bytes × Transcript),
      (∀ r ∈ (afterSessions C db ss).users.rows, r ∈ db.users.rows ∨ C.Decodes r.2) ∧
        ∀ r ∈ (afterSessions C db ss).users.rows,
          r ∈ (afterSessions C db (ss ++ ss')).users.rows := by
  refine ⟨?_, fun user t => diaryHandle_of_badFirstLine, ?_⟩
  · intro user t
    rcases diaryHandle_cases C user t db with hnothing | ⟨db₁, hadm, hloop⟩
    · exact Or.inl hnothing
    · exact Or.inr ⟨db₁, hadm, hadm.users.1, hloop⟩
  · intro ss ss'
    refine ⟨(users_afterSessions db ss).2, ?_⟩
    rw [show afterSessions C db (ss ++ ss') = afterSessions C (afterSessions C db ss) ss' from
      List.foldl_append]
    exact (users_afterSessions (afterSessions C db ss) ss').1

theorem registration_gates_get :
    let t : Transcript := ⟨true, some (lit "GET"), true, [(⟨7, true, true, []⟩, lit "POST hi")]⟩
    let r := diaryHandle ⟨fun _ _ => none, 32⟩ (lit "alice") t Db.fresh
    r.db = Db.fresh ∧ r.replies = [] :=
  (registration_gates ⟨fun _ _ => none, 32⟩ Db.fresh).2.1 (lit "alice")
    ⟨true, some (lit "GET"), true, [(⟨7, true, true, []⟩, lit "POST hi")]⟩ rfl
    (Or.inl (by decide))

/-! ### Sessions that interleave -/

/-- How far `diary_handle` has come. -/
inductive Phase
  | start
  /-- it has sent REGISTER -/
  | asked
  /-- it has read a good key -/
  | inserting (key : Bytes)
  /-- `storage_register_user` has returned -/
  | inserted (key : Bytes) (rc : Int32)
  /-- it is in the command loop -/
  | serving
  | closed
deriving DecidableEq

/-- One step of a session: up to its next access to the database, or to the
next line it reads. -/
inductive HandlerEvent
  | check (init : Bool)
  | register (line : Option Bytes)
  | insert (done : Bool)
  | reply
  | request (env : Env) (line : Bytes)
  | hangUp
deriving DecidableEq

/-- What a step sends: a line before the command loop, or the reply to a
request. -/
inductive Sent
  | hello (line : Bytes)
  | reply (reply : Reply)
deriving DecidableEq

variable (C)

/-- `diary_handle`, one step at a time. -/
def handlerStep (user : Bytes) (db : Db) : Phase → HandlerEvent → Phase × Db × Option Sent
  | .start, .check init =>
      if init = false then (.closed, db, some (.hello (lit "FAIL db")))
      else if storageUserExists user db = false then
        (.asked, db, some (.hello (lit "REGISTER")))
      else (.serving, db, some (.hello (lit "OK")))
  | .asked, .register none => (.closed, db, none)
  | .asked, .register (some line) =>
      if (lit "REGISTER ").isPrefixOf line = false then
        (.closed, db, some (.hello (lit "FAIL expected REGISTER <enc_pubkey_b64>")))
      else if C.accepts (line.drop 9) = false then
        (.closed, db, some (.hello (lit "FAIL invalid encryption key")))
      else (.inserting (line.drop 9), db, none)
  | .inserting key, .insert done =>
      let (db, rc) := storageRegisterUser done user key db
      (.inserted key rc, db, none)
  | .inserted _ rc, .reply =>
      if rc ≠ 0 then (.closed, db, some (.hello (lit "FAIL could not register user")))
      else (.serving, db, some (.hello (lit "OK")))
  | .serving, .request env line =>
      let (db, reply) := diaryCommand env user line db
      (if line = lit "QUIT" then .closed else .serving, db, some (.reply reply))
  | .serving, .hangUp => (.closed, db, none)
  -- nothing else happens in the phase
  | phase, _ => (phase, db, none)

/-- The database and the sessions on it. -/
structure Server where
  db : Db
  phase : ℕ → Phase

/-- A step of the session `e.1`, authenticated as `user e.1`. -/
def Server.step (user : ℕ → Bytes) (w : Server) (e : ℕ × HandlerEvent) : Server × Option Sent :=
  let (phase, db, sent) := handlerStep C (user e.1) w.db (w.phase e.1) e.2
  (⟨db, Function.update w.phase e.1 phase⟩, sent)

/-- A database nobody has connected to. -/
def Server.idle (db : Db) : Server := ⟨db, fun _ => .start⟩

/-- The steps of a session with a given transcript. -/
def Transcript.events (t : Transcript) : List HandlerEvent :=
  [.check t.init, .register t.register, .insert t.done, .reply]
    ++ (t.lines.map (fun l => .request l.1 l.2) ++ [.hangUp])

variable {C} {user : ℕ → Bytes} {i : ℕ}

variable (C) (user) in
theorem step_of_phase (w : Server) {phase : Phase} (h : w.phase i = phase) (e : HandlerEvent) :
    w.step C user (i, e)
      = (⟨(handlerStep C (user i) w.db phase e).2.1,
          Function.update w.phase i (handlerStep C (user i) w.db phase e).1⟩,
        (handlerStep C (user i) w.db phase e).2.2) := by
  subst h
  rfl

theorem phase_moved {db : Db} {phase : ℕ → Phase} {p : Phase} :
    (⟨db, Function.update phase i p⟩ : Server).phase i = p :=
  Function.update_self i p phase

/-- A step that does nothing in the phase the session is in. -/
theorem step_idle {w : Server} {phase : Phase} (h : w.phase i = phase) {e : HandlerEvent}
    (hidle : handlerStep C (user i) w.db phase e = (phase, w.db, none)) :
    w.step C user (i, e) = (w, none) := by
  rw [step_of_phase C user w h, hidle, ← h, Function.update_eq_self]

/-! ### A session nobody interrupts -/

/-- The session `i` alone, taking the steps `es`, leaves the database `db`
and sends `sent`. -/
def Runs (C : KeyCodec) (user : ℕ → Bytes) (i : ℕ) (w : Server) (es : List HandlerEvent)
    (db : Db) (sent : List Sent) : Prop :=
  (final (Server.step C user) w (es.map (i, ·))).db = db ∧
    (trace (Server.step C user) w (es.map (i, ·))).filterMap Prod.snd = sent

theorem Runs.cons {w w' : Server} {e : HandlerEvent} {out : Option Sent}
    {es : List HandlerEvent} {db : Db} {sent : List Sent}
    (hstep : w.step C user (i, e) = (w', out)) (h : Runs C user i w' es db sent) :
    Runs C user i w (e :: es) db (out.toList ++ sent) := by
  obtain ⟨hfin, hsent⟩ := h
  rw [Runs, List.map_cons, final_cons, trace_cons, hstep]
  refine ⟨hfin, ?_⟩
  cases out <;> simp [hsent]

theorem runs_closed {w : Server} (h : w.phase i = .closed) (es : List HandlerEvent) :
    Runs C user i w es w.db [] := by
  induction es with
  | nil => exact ⟨rfl, rfl⟩
  | cons e es ih => exact ih.cons (step_idle h (by cases e <;> rfl))

theorem runs_serving (ls : List (Env × Bytes)) {w : Server} (h : w.phase i = .serving) :
    Runs C user i w (ls.map (fun l => .request l.1 l.2) ++ [.hangUp])
      (diaryLoop (user i) w.db ls).1 ((diaryLoop (user i) w.db ls).2.map .reply) := by
  induction ls generalizing w with
  | nil => exact Runs.cons (step_of_phase C user w h _) (runs_closed (phase_moved) [])
  | cons l ls ih =>
      obtain ⟨env, line⟩ := l
      have hstep := step_of_phase C user w h (.request env line)
      rcases hr : diaryCommand env (user i) line w.db with ⟨db, reply⟩
      simp only [handlerStep, hr] at hstep
      simp only [diaryLoop, hr]
      by_cases hquit : line = lit "QUIT"
      · -- the lines after a QUIT are not read
        rw [if_pos hquit] at hstep ⊢
        exact Runs.cons hstep (runs_closed (phase_moved) _)
      · rw [if_neg hquit] at hstep ⊢
        exact Runs.cons hstep (ih (phase_moved))

/-- **A session nobody interrupts is `diary_handle`.** -/
theorem run_events (C : KeyCodec) (user : ℕ → Bytes) (i : ℕ) (t : Transcript) (db : Db) :
    Runs C user i (Server.idle db) t.events (diaryHandle C (user i) t db).db
      ((diaryHandle C (user i) t db).hello.map .hello
        ++ (diaryHandle C (user i) t db).replies.map .reply) := by
  obtain ⟨init, register, done, lines⟩ := t
  have hcheck := step_of_phase C user ⟨db, fun _ => .start⟩ (i := i) rfl (.check init)
  simp only [handlerStep] at hcheck
  simp only [diaryHandle, Transcript.events, Server.idle]
  by_cases hinit : init = false
  · simp only [if_pos hinit] at hcheck ⊢
    exact Runs.cons hcheck (runs_closed (phase_moved) _)
  simp only [if_neg hinit] at hcheck ⊢
  by_cases hnew : storageUserExists (user i) db = false
  · simp only [if_pos hnew] at hcheck ⊢
    -- the line read decides; a session that fails is closed for the rest
    have hread := step_of_phase C user ⟨db, Function.update (fun _ => Phase.start) i Phase.asked⟩
      phase_moved (.register register)
    cases register with
    | none => exact Runs.cons hcheck (Runs.cons hread (runs_closed (phase_moved) _))
    | some line =>
        simp only [handlerStep] at hread
        simp only
        by_cases hreg : (lit "REGISTER ").isPrefixOf line = false
        · simp only [if_pos hreg] at hread ⊢
          exact Runs.cons hcheck (Runs.cons hread (runs_closed (phase_moved) _))
        simp only [if_neg hreg] at hread ⊢
        by_cases hkey : C.accepts (line.drop 9) = false
        · simp only [if_pos hkey] at hread ⊢
          exact Runs.cons hcheck (Runs.cons hread (runs_closed (phase_moved) _))
        simp only [if_neg hkey] at hread ⊢
        have hinsert := step_of_phase C user
          ⟨db, Function.update (Function.update (fun _ => Phase.start) i Phase.asked) i
            (Phase.inserting (line.drop 9))⟩ phase_moved (.insert done)
        cases done with
        | false =>
            refine Runs.cons hcheck (Runs.cons hread (Runs.cons hinsert ?_))
            exact Runs.cons (step_of_phase C user _ phase_moved .reply) (runs_closed phase_moved _)
        | true =>
            refine Runs.cons hcheck (Runs.cons hread (Runs.cons hinsert ?_))
            exact Runs.cons (step_of_phase C user _ phase_moved .reply)
              (runs_serving lines phase_moved)
  · -- a known user goes straight to the loop
    simp only [if_neg hnew] at hcheck ⊢
    have hserv : (⟨db, Function.update (fun _ => .start) i .serving⟩ : Server).phase i = .serving :=
      phase_moved
    refine Runs.cons hcheck ?_
    refine Runs.cons (step_idle hserv rfl) ?_
    refine Runs.cons (step_idle hserv rfl) ?_
    refine Runs.cons (step_idle hserv rfl) ?_
    exact runs_serving lines hserv

/-! ### Registration agreement -/

/-- A step that leaves `users` alone and does not come past an INSERT. -/
structure Quiet (db : Db) (p : Phase) (r : Phase × Db × Option Sent) : Prop where
  users : r.2.1.users = db.users
  phase : ∀ key, r.1 = .inserted key 0 → p = .inserted key 0

theorem quiet_idle (db : Db) (p : Phase) : Quiet db p (p, db, none) := ⟨rfl, fun _ h => h⟩

theorem quiet_moved {db : Db} {p p' : Phase} {out : Option Sent}
    (h : ∀ key, p' ≠ .inserted key 0) : Quiet db p (p', db, out) :=
  ⟨rfl, fun key hp => absurd hp (h key)⟩

/-- A step of a session is quiet, or it is the INSERT of a registration. -/
theorem handlerStep_cases (C : KeyCodec) (u : Bytes) (db : Db) (p : Phase) (e : HandlerEvent) :
    Quiet db p (handlerStep C u db p e) ∨
      ∃ key, p = .inserting key ∧ e = .insert true ∧
        handlerStep C u db p e
          = (.inserted key 0, { db with users := db.users.insertOrIgnore u key }, none) := by
  -- in every phase one event moves on, the others are ignored
  cases p with
  | start =>
      cases e with
      | check init =>
          left
          simp only [handlerStep]
          split
          · exact quiet_moved (by simp)
          · split <;> exact quiet_moved (by simp)
      | register | insert | reply | request | hangUp => exact Or.inl (quiet_idle _ _)
  | asked =>
      cases e with
      | register line =>
          left
          cases line with
          | none => exact quiet_moved (by simp)
          | some line =>
              simp only [handlerStep]
              split
              · exact quiet_moved (by simp)
              · split <;> exact quiet_moved (by simp)
      | check | insert | reply | request | hangUp => exact Or.inl (quiet_idle _ _)
  | inserting key =>
      cases e with
      | insert done =>
          cases done with
          -- an INSERT that fails leaves the table
          | false => exact Or.inl ⟨rfl, by simp [handlerStep, storageRegisterUser]⟩
          | true => exact Or.inr ⟨key, rfl, rfl, rfl⟩
      | check | register | reply | request | hangUp => exact Or.inl (quiet_idle _ _)
  | inserted key rc =>
      cases e with
      | reply =>
          left
          simp only [handlerStep]
          split <;> exact quiet_moved (by simp)
      | check | register | insert | request | hangUp => exact Or.inl (quiet_idle _ _)
  | serving =>
      cases e with
      | request env line =>
          refine Or.inl ⟨users_serve db ⟨u, env, line⟩, ?_⟩
          simp only [handlerStep]
          split <;> simp
      | hangUp => exact Or.inl (quiet_moved (by simp))
      | check | register | insert | reply => exact Or.inl (quiet_idle _ _)
  | closed => cases e <;> exact Or.inl (quiet_idle _ _)

/-- A session leaves the place behind its INSERT by the reply. -/
theorem phase_inserted_stays (C : KeyCodec) (u : Bytes) (db : Db) (key : Bytes) (rc : Int32)
    {e : HandlerEvent} (h : e ≠ .reply) :
    handlerStep C u db (.inserted key rc) e = (.inserted key rc, db, none) := by
  cases e with
  | reply => exact absurd rfl h
  | check | register | insert | request | hangUp => rfl

/-! The same for the server. -/

theorem step_db (w : Server) (i : ℕ) (e : HandlerEvent) :
    (w.step C user (i, e)).1.db = (handlerStep C (user i) w.db (w.phase i) e).2.1 := rfl

theorem step_phase_self (w : Server) (i : ℕ) (e : HandlerEvent) :
    (w.step C user (i, e)).1.phase i = (handlerStep C (user i) w.db (w.phase i) e).1 :=
  Function.update_self i _ _

theorem step_phase_of_ne (w : Server) {i j : ℕ} (h : i ≠ j) (e : HandlerEvent) :
    (w.step C user (j, e)).1.phase i = w.phase i :=
  Function.update_of_ne h _ _

/-- A row of `users` stays. -/
theorem mem_users_step (w : Server) (e : ℕ × HandlerEvent) {r : Bytes × Bytes}
    (h : r ∈ w.db.users.rows) : r ∈ (w.step C user e).1.db.users.rows := by
  obtain ⟨i, e⟩ := e
  rw [step_db]
  rcases handlerStep_cases C (user i) w.db (w.phase i) e with hq | ⟨key, -, -, heq⟩
  · rw [hq.users]
    exact h
  · rw [heq]
    exact UserTable.mem_insertOrIgnore.mpr (Or.inl h)

theorem mem_users_final (w : Server) (es : List (ℕ × HandlerEvent)) {r : Bytes × Bytes}
    (h : r ∈ w.db.users.rows) : r ∈ (final (Server.step C user) w es).db.users.rows :=
  final_invariant (I := fun w : Server => r ∈ w.db.users.rows)
    (fun w e => mem_users_step w e) h es

/-- A session that is past its INSERT went through it. -/
theorem exists_insert {db : Db} {es : List (ℕ × HandlerEvent)} {key : Bytes}
    (h : (final (Server.step C user) (Server.idle db) es).phase i = .inserted key 0) :
    ∃ js ks, es = js ++ (i, .insert true) :: ks ∧
      (final (Server.step C user) (Server.idle db) js).phase i = .inserting key := by
  have hstart : ¬ (Server.idle db).phase i = .inserted key 0 := by
    show ¬ Phase.start = .inserted key 0
    simp
  obtain ⟨js, ⟨j, e⟩, ks, rfl, hbefore, hafter⟩ :=
    exists_step_of_final (P := fun w : Server => w.phase i = .inserted key 0) es hstart h
  by_cases hij : i = j
  · subst hij
    rw [step_phase_self] at hafter
    rcases handlerStep_cases C (user i) _ _ e with hq | ⟨key', hp, rfl, heq⟩
    · exact absurd (hq.phase key hafter) hbefore
    · rw [heq] at hafter
      obtain ⟨rfl, -⟩ := Phase.inserted.inj hafter
      exact ⟨js, ks, rfl, hp⟩
  · rw [step_phase_of_ne _ hij] at hafter
    exact absurd hafter hbefore

/-- Past its INSERT a session stays until it replies. -/
theorem phase_final_of_no_reply {key : Bytes} {rc : Int32} (es : List (ℕ × HandlerEvent))
    {w : Server} (h : w.phase i = .inserted key rc) (hno : (i, .reply) ∉ es) :
    (final (Server.step C user) w es).phase i = .inserted key rc := by
  induction es generalizing w with
  | nil => exact h
  | cons e es ih =>
      obtain ⟨j, e⟩ := e
      rw [List.mem_cons, not_or] at hno
      refine ih ?_ hno.2
      by_cases hij : i = j
      · subst hij
        rw [step_phase_self, h, phase_inserted_stays C _ _ _ _ fun he => hno.1 (by rw [he])]
      · rw [step_phase_of_ne w hij, h]

/-- Every session that is answered OK to its REGISTER has its key in `users`
from then on. -/
def Agreement (C : KeyCodec) (user : ℕ → Bytes) (db : Db) (es : List (ℕ × HandlerEvent)) : Prop :=
  ∀ js i key rc ks ls, es = js ++ (i, .reply) :: (ks ++ ls) →
    (final (Server.step C user) (Server.idle db) js).phase i = .inserted key rc →
    ((final (Server.step C user) (Server.idle db) js).step C user (i, .reply)).2
      = some (.hello (lit "OK")) →
    storageGetEncryptPubkey (user i)
      (final (Server.step C user) (Server.idle db) (js ++ (i, .reply) :: ks)).db = some key

/-- Whenever the INSERT of a session that goes on to reply completes, the
user has no row yet, or one with the key it inserts. -/
def Uncontested (C : KeyCodec) (user : ℕ → Bytes) (db : Db) (es : List (ℕ × HandlerEvent)) :
    Prop :=
  ∀ js i key ks, es = js ++ (i, .insert true) :: ks → (i, .reply) ∈ ks →
    (final (Server.step C user) (Server.idle db) js).phase i = .inserting key →
    ∀ key', storageGetEncryptPubkey (user i)
      (final (Server.step C user) (Server.idle db) js).db = some key' → key' = key

/-- An INSERT that finds no row, or its own key, leaves its key. -/
theorem mem_users_insert {w : Server} {key : Bytes} (hp : w.phase i = .inserting key)
    (hkey : ∀ key', storageGetEncryptPubkey (user i) w.db = some key' → key' = key) :
    (user i, key) ∈ (w.step C user (i, .insert true)).1.db.users.rows := by
  rw [step_db, hp]
  show (user i, key) ∈ (w.db.users.insertOrIgnore (user i) key).rows
  by_cases hrow : user i ∈ w.db.users.rows.map Prod.fst
  · obtain ⟨⟨u, key'⟩, hmem, hu⟩ := List.mem_map.mp hrow
    obtain rfl : u = user i := hu
    obtain rfl := hkey key' (storageGetEncryptPubkey_eq_some_iff.mpr hmem)
    exact UserTable.mem_insertOrIgnore.mpr (Or.inl hmem)
  · exact UserTable.mem_insertOrIgnore.mpr (Or.inr ⟨rfl, hrow⟩)

/-- **Registration agreement.**  In every interleaving of any sessions, those
answered OK to their REGISTER have their key in `users` from then on, iff the
INSERT of each of them found no row of the user, or one with the same key. -/
theorem registration_agreement_iff (C : KeyCodec) (user : ℕ → Bytes) (db : Db)
    (es : List (ℕ × HandlerEvent)) : Agreement C user db es ↔ Uncontested C user db es := by
  constructor
  · intro hagree js i key ks hes hreply hp key' hkey'
    obtain ⟨ks₁, ks₂, rfl, hno⟩ := List.eq_append_cons_of_mem hreply
    -- the session stands behind its INSERT until the first reply
    have hphase : (final (Server.step C user) (Server.idle db)
        (js ++ (i, .insert true) :: ks₁)).phase i = .inserted key 0 := by
      rw [final_append, final_cons]
      refine phase_final_of_no_reply ks₁ ?_ hno
      rw [step_phase_self, hp]
      rfl
    have hok : ((final (Server.step C user) (Server.idle db)
        (js ++ (i, .insert true) :: ks₁)).step C user (i, .reply)).2
          = some (.hello (lit "OK")) := by
      rw [step_of_phase C user _ hphase]
      rfl
    have hkey := hagree (js ++ (i, .insert true) :: ks₁) i key 0 [] ks₂ (by simp [hes]) hphase hok
    -- the row it found is still there
    have hold : (user i, key') ∈ (final (Server.step C user) (Server.idle db)
        ((js ++ (i, .insert true) :: ks₁) ++ [(i, .reply)])).db.users.rows := by
      rw [List.append_assoc, final_append]
      exact mem_users_final _ _ (storageGetEncryptPubkey_eq_some_iff.mp hkey')
    exact UserTable.key_unique hold (storageGetEncryptPubkey_eq_some_iff.mp hkey)
  · rintro hfree js i key rc ks ls rfl hphase hok
    rw [step_of_phase C user _ hphase] at hok
    have hrc : rc = 0 := by
      by_contra hne
      simp only [handlerStep, if_pos hne] at hok
      exact absurd hok (by decide)
    subst hrc
    obtain ⟨js₁, js₂, rfl, hp⟩ := exists_insert hphase
    have hkey := hfree js₁ i key (js₂ ++ (i, .reply) :: (ks ++ ls)) (by simp) (by simp) hp
    rw [storageGetEncryptPubkey_eq_some_iff, List.append_assoc, List.cons_append, final_append,
      final_cons]
    exact mem_users_final _ _ (mem_users_insert hp hkey)

/-- Two first contacts of one user: both are answered OK, and the key of the
second is nowhere. -/
theorem two_first_contacts :
    let C : KeyCodec := ⟨fun _ s => if s.length = 44 then some (s.take 32) else none, 32⟩
    let user : ℕ → Bytes := fun _ => lit "alice"
    let key (c : UInt8) : Bytes := List.replicate 43 c ++ [61]
    let line (c : UInt8) := lit "REGISTER " ++ key c
    let js : List (ℕ × HandlerEvent) :=
      [(1, .check true), (2, .check true), (1, .register (some (line 65))),
        (2, .register (some (line 69))), (1, .insert true), (2, .insert true), (1, .reply)]
    ((final (Server.step C user) (Server.idle Db.fresh) js).step C user (2, .reply)).2
        = some (.hello (lit "OK")) ∧
      storageGetEncryptPubkey (lit "alice")
          (final (Server.step C user) (Server.idle Db.fresh) (js ++ [(2, .reply)])).db
        = some (key 65) ∧
      ¬ Agreement C user Db.fresh (js ++ [(2, .reply)]) := by
  intro C user key line js
  have hok : ((final (Server.step C user) (Server.idle Db.fresh) js).step C user (2, .reply)).2
      = some (.hello (lit "OK")) := by decide
  have hkey : storageGetEncryptPubkey (lit "alice")
      (final (Server.step C user) (Server.idle Db.fresh) (js ++ [(2, .reply)])).db
        = some (key 65) := by decide
  refine ⟨hok, hkey, ?_⟩
  intro hagree
  have h := hagree js 2 (key 69) 0 [] [] rfl (by decide) hok
  exact absurd (hkey.symm.trans h) (by decide)

end Diary
