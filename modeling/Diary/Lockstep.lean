/-
Diary/Lockstep.lean

Requests and replies in step.  The server answers every line with one
complete reply (`complete_diaryCommand`).  POST, UPDATE and DELETE read the
whole of it; a GET does unless it gives up before the last row
(`unread_netGetEntries_iff`).  Over a run of calls on one connection, with
requests of other sessions in between, client and server stay in step
exactly as long as no GET gives up early (`lockstep_iff`).
-/
import Diary.Entries

namespace Diary

open CString Machine

variable {ν : Type*} {P : Proto ν} {user : Bytes}

/-! ### Complete replies -/

/-- One line that announces no rows, or a header with `n` and `n` lines. -/
def Complete (lines : List Bytes) : Prop :=
  (∃ line, lines = [line] ∧ (lit "ENTRIES ").isPrefixOf line = false) ∨
    ∃ rows, lines = (lit "ENTRIES " ++ dec rows.length) :: rows

/-- **One request, one reply.** -/
theorem complete_diaryCommand (env : Env) (user line : Bytes) (db : Db) :
    Complete (diaryCommand env user line db).2.lines := by
  have hfail : ∀ why, Complete (Reply.fail why).lines := fun why =>
    Or.inl ⟨_, rfl, by cases why <;> decide⟩
  have hid : ∀ id, Complete (Reply.okId id).lines := fun id =>
    Or.inl ⟨_, okId_lines id, rfl⟩
  rcases hs : diaryCommand env user line db with ⟨db', reply⟩
  cases effect_of_serve (r := ⟨user, env, line⟩) hs with
  | post hline hroom =>
      split
      · exact hfail _
      · exact hid _
  | update | delete => exact Or.inl ⟨_, rfl, by decide⟩
  | get hline =>
      refine Or.inr ⟨(collect env.malloc (db.view user)).map EntryLine.text, ?_⟩
      rw [storageGetEntries_collectEntry, Reply.lines, entries_header (length_collect_le _ _),
        List.length_map]
  | bye => exact Or.inl ⟨_, rfl, by decide⟩
  | fail why => exact hfail why

/-! ### Calls -/

/-- A call of one of the four verbs. -/
inductive Call
  | post (text : Bytes) (timestamp : Int64)
  | update (id : Int32) (text : Bytes)
  | delete (id : Int32)
  | get

/-- What a call returns. -/
inductive CallResult
  | code (rc : Int32)
  | entries (arr : Option (List DiaryEntry))
deriving DecidableEq

/-- A call, after some requests of other sessions. -/
structure CallStep (ν : Type*) where
  others : List Request
  env : CallEnv ν
  call : Call

/-- The connection when the call is made. -/
def World.meanwhile (w : World) (others : List Request) : World :=
  { w with db := final serve w.db others }

def callStep (P : Proto ν) (user : Bytes) (w : World) (s : CallStep ν) : World × CallResult :=
  let w := w.meanwhile s.others
  match s.call with
  | .post text t =>
      let r := netPostEntry P user s.env text t w
      (r.1, .code r.2)
  | .update id text =>
      let r := netUpdateEntry P user s.env id text w
      (r.1, .code r.2)
  | .delete id =>
      let r := netDeleteEntry P user s.env id w
      (r.1, .code r.2)
  | .get =>
      let r := netGetEntries P user s.env w
      (r.1, .entries r.2)

/-! ### What a call leaves unread -/

theorem unread_netPostEntry (hP : P.Lawful) {env : CallEnv ν} (text : Bytes) (t : Int64)
    {w : World} (hw : w.unread = []) : (netPostEntry P user env text t w).1.unread = [] := by
  cases hseal : P.sealNew env.nonce text with
  | none => simpa [netPostEntry, hseal] using hw
  | some b64 => rw [netPostEntry_eq hP user t hw hseal]

theorem unread_netUpdateEntry (hP : P.Lawful) {env : CallEnv ν} (id : Int32) (text : Bytes)
    {w : World} (hw : w.unread = []) : (netUpdateEntry P user env id text w).1.unread = [] := by
  cases hseal : P.sealNew env.nonce text with
  | none => simpa [netUpdateEntry, hseal] using hw
  | some b64 => rw [netUpdateEntry_eq hP user id hw hseal]

theorem unread_netDeleteEntry (hP : P.Lawful) {env : CallEnv ν} (id : Int32) {w : World}
    (hw : w.unread = []) : (netDeleteEntry P user env id w).1.unread = [] := by
  rw [netDeleteEntry_eq hP id hw]

/-- The reply to a GET is read to its end: there are no rows, or the client
has the memory for them and every row before the last has data with a byte
other than a space. -/
def ReadsToTheEnd (user : Bytes) (env : CallEnv ν) (db : Db) : Prop :=
  env.server.calloc = false ∨ sentRows env.server user db = [] ∨
    (env.calloc = true ∧
      ∀ l ∈ (sentRows env.server user db).dropLast, ∃ c ∈ l.sentData, c ≠ 32)

theorem isSome_parseRow_text_iff {l : EntryLine} :
    (parseRow P l.text).isSome ↔ ∃ c ∈ l.sentData, c ≠ 32 := by
  have hnone : parseRow P l.text = none ↔ ∀ c ∈ l.sentData, c = 32 := by
    rw [parseRow_text, Option.map_eq_none_iff, strtok_eq_none_iff]
  rw [← Option.not_isNone, Bool.not_eq_true', Bool.eq_false_iff, Ne, Option.isNone_iff_eq_none,
    hnone]
  push Not
  rfl

/-- The loop over the rows stops at the first that does not split, so it
reads all lines exactly when all before the last split. -/
theorem unread_getRows_iff (hP : P.Lawful) (lines : List Bytes) :
    (getRows P lines.length [] lines).2 = []
      ↔ ∀ line ∈ lines.dropLast, (parseRow P line).isSome := by
  by_cases hall : ∀ line ∈ lines, (parseRow P line).isSome
  · obtain ⟨es, hes⟩ := exists_map_eq_map_some hall
    rw [getRows_of_forall hP hes]
    exact iff_of_true rfl fun line hline => hall line (List.mem_of_mem_dropLast hline)
  · push Not at hall
    obtain ⟨line, hline, hnone⟩ := hall
    obtain ⟨good, bad, rest, rfl, hgood, hbad⟩ :=
      exists_first_bad (P := P) ⟨line, hline, by simpa using hnone⟩
    rw [getRows_of_bad hP hgood hbad rest]
    cases rest with
    | nil =>
        refine iff_of_true rfl fun line hline => hgood line ?_
        simpa using hline
    | cons next rest =>
        refine iff_of_false (List.cons_ne_nil _ _) fun hsome => ?_
        have hmem : bad ∈ (good ++ bad :: next :: rest).dropLast := by simp
        have hb := hsome bad hmem
        rw [hbad] at hb
        cases hb

/-- **A GET and the lines it leaves.** -/
theorem unread_netGetEntries_iff (hP : P.Lawful) {env : CallEnv ν} {w : World}
    (hw : w.unread = []) :
    (netGetEntries P user env w).1.unread = [] ↔ ReadsToTheEnd user env w.db := by
  rw [netGetEntries_eq hP hw]
  simp only [ReadsToTheEnd]
  generalize sentRows env.server user w.db = rows
  by_cases hserver : env.server.calloc = false
  · simp [hserver, hw]
  by_cases hrows : rows = []
  · simp [hserver, hrows, hw]
  by_cases hclient : env.calloc = false
  · simp [hserver, hrows, hclient]
  have hsome : (∀ line ∈ (rows.map EntryLine.text).dropLast, (parseRow P line).isSome)
      ↔ ∀ l ∈ rows.dropLast, ∃ c ∈ l.sentData, c ≠ 32 := by
    rw [← List.map_dropLast, List.forall_mem_map]
    exact forall₂_congr fun l _ => isSome_parseRow_text_iff
  have hunread := unread_getRows_iff hP (rows.map EntryLine.text)
  rw [List.length_map, hsome] at hunread
  simp only [if_neg hserver, if_neg hrows, if_neg hclient, hunread]
  simp [hserver, hrows, hclient]

/-! ### Runs of calls -/

/-- The call leaves client and server in step: a line it sends is answered
by one complete reply, and no line of it is left unread. -/
def InStep (P : Proto ν) (user : Bytes) (w : World) (s : CallStep ν) : Prop :=
  (∀ line, Complete (diaryCommand s.env.server user line (w.meanwhile s.others).db).2.lines) ∧
    (callStep P user w s).1.unread = []

/-- The call, if it is a GET, does not give up before the last row. -/
def GetReadsToTheEnd (user : Bytes) (w : World) (s : CallStep ν) : Prop :=
  s.call = .get → ReadsToTheEnd user s.env (w.meanwhile s.others).db

theorem inStep_iff (hP : P.Lawful) {w : World} (hw : w.unread = []) (s : CallStep ν) :
    InStep P user w s ↔ GetReadsToTheEnd user w s := by
  have hw' : (w.meanwhile s.others).unread = [] := hw
  have hcomplete := fun line =>
    complete_diaryCommand s.env.server user line (w.meanwhile s.others).db
  rw [InStep, and_iff_right hcomplete, GetReadsToTheEnd, callStep]
  cases s.call with
  | post text t => exact iff_of_true (unread_netPostEntry hP text t hw') nofun
  | update id text => exact iff_of_true (unread_netUpdateEntry hP id text hw') nofun
  | delete id => exact iff_of_true (unread_netDeleteEntry hP id hw') nofun
  | get => exact (unread_netGetEntries_iff hP hw').trans ⟨fun h _ => h, fun h => h rfl⟩

/-- **When a connection stays in step.**  Over every run of calls, with any
requests of other sessions in between, each call leaves client and server
in step exactly when no GET of the run gives up before its last row. -/
theorem lockstep_iff {P : Proto ν} (hP : P.Lawful) (user : Bytes) (db : Db)
    (run : List (CallStep ν)) :
    Throughout (callStep P user) (InStep P user) ⟨db, []⟩ run
      ↔ Throughout (callStep P user) (GetReadsToTheEnd user) ⟨db, []⟩ run :=
  throughout_congr (I := fun w => w.unread = []) (fun _ s hw => inStep_iff hP hw s)
    (fun _ _ _ hstep => hstep.2) rfl run

theorem lockstep_iff_two_calls :
    let env : CallEnv Unit := ⟨(), ⟨7, true, true, []⟩, true⟩
    let run : List (CallStep Unit) :=
      [⟨[⟨lit "alice", env.server, lit "POST "⟩], env, .get⟩, ⟨[], env, .post (lit "hi") 0⟩]
    Throughout (callStep taggingProto (lit "alice")) (InStep taggingProto (lit "alice"))
      ⟨Db.fresh, []⟩ run := by
  intro env run
  -- the only row is the last one, so giving up at it leaves nothing
  apply (lockstep_iff taggingProto_lawful (lit "alice") Db.fresh run).mpr
  refine ⟨fun _ => ?_, ?_, trivial⟩
  · refine Or.inr (Or.inr ⟨rfl, fun l hl => ?_⟩)
    have hnil : l ∈ ([] : List EntryLine) := hl
    exact absurd hnil List.not_mem_nil
  · exact nofun

/-- A GET that gives up at the first of two rows leaves the second to be
read as the reply to the POST after it: the entry is stored and reported
failed. -/
theorem stale_row_answers_post :
    let env : CallEnv Unit := ⟨(), ⟨7, true, true, []⟩, true⟩
    let others : List Request :=
      [⟨lit "alice", env.server, lit "POST "⟩, ⟨lit "alice", env.server, lit "POST c2VhbGVkaGk="⟩]
    let run : List (CallStep Unit) := [⟨others, env, .get⟩, ⟨[], env, .post (lit "hi") 0⟩]
    ¬ Throughout (callStep taggingProto (lit "alice")) (InStep taggingProto (lit "alice"))
        ⟨Db.fresh, []⟩ run ∧
      (trace (callStep taggingProto (lit "alice")) ⟨Db.fresh, []⟩ run).map Prod.snd
        = [.entries none, .code (-1)] ∧
      (final (callStep taggingProto (lit "alice")) ⟨Db.fresh, []⟩ run).db.entries.lookup 3
        = some ⟨lit "alice", 7, lit "c2VhbGVkhi"⟩ := by
  intro env others run
  refine ⟨?_, by decide, by decide⟩
  rintro ⟨⟨-, hunread⟩, -⟩
  exact absurd hunread (by decide)

end Diary
