/-
Diary/Session.lean

An editor session against the server: every save of the loop is a call of
`net_post_entry` or `net_update_entry`, served by the command loop over the
database, with no other writer.

`SessionInv` ties buffer, flag, entry id and rows together: the session has
written no row but the one its entry id names, that row is one it was
opened on or one it created, and while the flag is clear the row holds the
buffer.  `SaveEffect` says everything a save can do; one lemma carries the
invariant over a save (`sessionInv_save`), one over an event
(`sessionInv_step`), and `session_writes_one_entry` is about every run.
-/
import Diary.Editor
import Diary.Lockstep

namespace Diary

open CString Machine

variable {ν : Type*}

/-! ### The session -/

/-- The editor with its connection; `running` until its loop ends. -/
structure Session where
  editor : Editor
  running : Bool
  world : World

/-- An iteration, and what a save in it reads. -/
structure SessionEvent (ν : Type*) where
  inp : EditorInput
  env : CallEnv ν

/-- A save: the call, and the id it returned. -/
structure SaveMade where
  call : Call
  newId : Int32

/-- The call a save makes, with the text of the buffer up to its NUL. -/
def Editor.saveCall (e : Editor) (t : Int64) : Call :=
  if 0 < e.entryId.toInt then .update e.entryId (cstr e.buf) else .post (cstr e.buf) t

/-- The network call of a save. -/
def Editor.netSave (P : Proto ν) (user : Bytes) (t : Int64) (env : CallEnv ν) (e : Editor)
    (w : World) : World × Int32 :=
  if 0 < e.entryId.toInt then netUpdateEntry P user env e.entryId (cstr e.buf) w
  else netPostEntry P user env (cstr e.buf) t w

/-- One event of a session of `user`; new entries are dated `t`
(`g_entry_at`). -/
def sessionStep (P : Proto ν) (user : Bytes) (t : Int64) (s : Session) (ev : SessionEvent ν) :
    Session × Option SaveMade :=
  if s.running then
    match s.editor.iterate ev.inp with
    | .continue e => ({ s with editor := e }, none)
    | .leave e => ({ s with editor := e, running := false }, none)
    | .save e =>
        let r := e.netSave P user t ev.env s.world
        ({ s with editor := e.finishSave r.2, world := r.1 }, some ⟨e.saveCall t, r.2⟩)
  else (s, none)

def Session.opened (k : Int32) (text : Option Bytes) (db : Db) : Session :=
  ⟨Editor.opened k text, true, ⟨db, []⟩⟩

/-! ### What holds throughout -/

variable (P : Proto ν) (user : Bytes) (db₀ : Db) (k : Int32)

/-- The row of an entry holds a sealed text of the user. -/
def Stores (db : Db) (id : Int32) (text : Bytes) : Prop :=
  ∃ e, db.entries.lookup id.toNatClampNeg = some e ∧ e.authPubkey = user ∧
    P.unsealNew e.data = some text

/-- What a session opened on entry `k` (0 for a new one) of the database
`db₀` has done. -/
structure SessionInv (s : Session) : Prop where
  unread : s.world.unread = []
  nul : 0 ∉ s.editor.buf
  /-- the entry is `k`, or the row created after the rows there were -/
  entry : s.editor.entryId = k ∧ s.world.db.entries.seq = db₀.entries.seq ∨
    k = 0 ∧ s.editor.entryId.toInt = (db₀.entries.seq + 1 : ℕ) ∧
      s.world.db.entries.seq = db₀.entries.seq + 1
  others : ∀ j, j ≠ s.editor.entryId.toNatClampNeg →
    s.world.db.entries.lookup j = db₀.entries.lookup j
  stored : s.editor.dirty = 0 → 0 < s.editor.entryId.toInt →
    Stores P user s.world.db s.editor.entryId s.editor.buf

variable {P user db₀ k} {t : Int64}

theorem lookup_zero {α : Type*} (tab : AutoTable α) : tab.lookup 0 = none := by
  refine AutoTable.lookup_eq_none_iff.mpr fun a ha => ?_
  exact absurd (tab.pos _ ha) (lt_irrefl 0)

/-- A new session has the id 0 until its POST succeeds, and has written
nothing. -/
theorem SessionInv.eq_of_not_pos {s : Session} (h : SessionInv P user db₀ k s)
    (hk : 0 ≤ k.toInt) (hid : ¬ 0 < s.editor.entryId.toInt) :
    k = 0 ∧ s.editor.entryId = 0 ∧ s.world.db.entries = db₀.entries := by
  rcases h.entry with ⟨hentry, hseq⟩ | ⟨-, hval, -⟩
  · have hzero : k = 0 := Int32.toInt_inj.mp (by rw [hentry] at hid; simp; omega)
    have hnat : s.editor.entryId.toNatClampNeg = 0 := by rw [hentry, hzero]; rfl
    refine ⟨hzero, hentry.trans hzero, AutoTable.ext_lookup hseq (funext fun j => ?_)⟩
    by_cases hj : j = 0
    · rw [hj, lookup_zero, lookup_zero]
    · exact h.others j (by rw [hnat]; exact hj)
  · omega

/-! ### Events that send nothing -/

/-- Only the text, the id and the flag of the editor count. -/
theorem SessionInv.congr {s : Session} (h : SessionInv P user db₀ k s) {e : Editor}
    (hbuf : e.buf = s.editor.buf) (hid : e.entryId = s.editor.entryId)
    (hdirty : e.dirty = s.editor.dirty) (running : Bool) :
    SessionInv P user db₀ k ⟨e, running, s.world⟩ where
  unread := h.unread
  nul := by rw [hbuf]; exact h.nul
  entry := by simp only [hid]; exact h.entry
  others := by simp only [hid]; exact h.others
  stored := by simp only [hid, hbuf, hdirty]; exact h.stored

/-- A flag that is set promises nothing about the text. -/
theorem SessionInv.of_dirty {s : Session} (h : SessionInv P user db₀ k s) {e : Editor}
    (hnul : 0 ∉ e.buf) (hid : e.entryId = s.editor.entryId) (hdirty : e.dirty ≠ 0)
    (running : Bool) : SessionInv P user db₀ k ⟨e, running, s.world⟩ where
  unread := h.unread
  nul := hnul
  entry := by simp only [hid]; exact h.entry
  others := by simp only [hid]; exact h.others
  stored hd := absurd hd hdirty

/-! ### Saves -/

/-- Everything a save over the rows of `db` can do, with the id it returns. -/
inductive SaveEffect (P : Proto ν) (user : Bytes) (e : Editor) (db : Db) : World × Int32 → Prop
  /-- not sealed, or answered with an error -/
  | failed : SaveEffect P user e db (⟨db, []⟩, -1)
  /-- the UPDATE of the row the editor is on -/
  | updated {row b64} (hid : 0 < e.entryId.toInt)
      (hrow : db.entries.lookup e.entryId.toNatClampNeg = some row) (howner : row.authPubkey = user)
      (hdata : b64 ≠ [] ∧ (32 : UInt8) ∉ b64) (hunseal : P.unsealNew b64 = some (cstr e.buf)) :
      SaveEffect P user e db
        (⟨{ db with entries :=
              db.entries.modify (namedBy user e.entryId) fun r => { r with data := b64 } }, []⟩,
          e.entryId)
  /-- the POST of a row under the next id -/
  | posted {ts b64} (hid : ¬ 0 < e.entryId.toInt)
      (hdata : b64 ≠ [] ∧ (32 : UInt8) ∉ b64) (hunseal : P.unsealNew b64 = some (cstr e.buf)) :
      SaveEffect P user e db
        (⟨{ db with entries := db.entries.insert ⟨user, ts, b64⟩ }, []⟩,
          if (rowidToInt (db.entries.seq + 1)).toInt < 0 then -1
          else rowidToInt (db.entries.seq + 1))

/-- **A save**, on a connection in step. -/
theorem netSave_effect (hP : P.Lawful) (env : CallEnv ν) (e : Editor) {w : World}
    (hw : w.unread = []) : SaveEffect P user e w.db (e.netSave P user t env w) := by
  obtain ⟨db, unread⟩ := w
  obtain rfl : unread = [] := hw
  rw [Editor.netSave]
  rcases hseal : P.sealNew env.nonce (cstr e.buf) with - | b64
  · -- what is not sealed is not sent
    have hnot : ∀ id, netUpdateEntry P user env id (cstr e.buf) ⟨db, []⟩ = (⟨db, []⟩, -1) :=
      fun id => by simp [netUpdateEntry, hseal]
    rw [hnot, show netPostEntry P user env (cstr e.buf) t ⟨db, []⟩ = (⟨db, []⟩, -1) by
      simp [netPostEntry, hseal], ite_self]
    exact .failed
  have hdata := And.intro (hP.sealed_ne_nil hseal) (hP.sealed_no_space hseal)
  have hunseal := hP.unseal_sealed hseal
  split
  · next hid =>
      -- UPDATE, for an entry with an id
      rw [netUpdateEntry_eq hP user e.entryId rfl hseal]
      rcases storageUpdateEntry_cases env.server.done user e.entryId b64 db with
        ⟨row, -, hrow, howner, hcase⟩ | hcase
      · rw [hcase]
        exact .updated hid hrow howner hdata hunseal
      · rw [hcase]
        exact .failed
  · next hid =>
      -- POST, for a new one
      rw [netPostEntry_eq hP user t rfl hseal]
      rcases storageAddEntry_cases env.server.done user b64
        (if 0 < t.toInt then t else env.server.now) db with ⟨-, -, hcase⟩ | hcase
      · rw [hcase]
        exact .posted hid hdata hunseal
      · rw [hcase]
        exact .failed

/-- A save that failed stored nothing and leaves the flag as it was. -/
theorem sessionInv_failed {s : Session} (h : SessionInv P user db₀ k s) (newId : Int32)
    (hfail : ¬ 0 < newId.toInt) :
    SessionInv P user db₀ k ⟨s.editor.finishSave newId, s.running, s.world⟩ := by
  refine h.congr (finishSave_buf _ _) ?_ ?_ s.running
  · rw [finishSave_entryId, if_neg fun h => hfail h.1]
  · rw [finishSave_dirty, if_neg hfail]

/-- A save, whatever it does. -/
theorem sessionInv_save (hk : 0 ≤ k.toInt) (hids : db₀.entries.seq + 1 < 2 ^ 31)
    {s : Session} (h : SessionInv P user db₀ k s) {r : World × Int32}
    (hr : SaveEffect P user s.editor s.world.db r) :
    SessionInv P user db₀ k ⟨s.editor.finishSave r.2, s.running, r.1⟩ := by
  have hfailed := sessionInv_failed h (-1) (by decide)
  rw [show s.world = ⟨s.world.db, []⟩ by rw [← h.unread]] at hfailed
  cases hr with
  | failed => exact hfailed
  | @updated row b64 hid hrow howner hdata hunseal =>
      -- the row of the session is the one that changed
      have hentry : (s.editor.finishSave s.editor.entryId).entryId = s.editor.entryId := by
        rw [finishSave_entryId]
        split <;> rfl
      have hlookup := lookup_modify_namedBy hrow howner b64
      refine ⟨rfl, by simpa using h.nul, ?_, ?_, fun _ _ => ?_⟩
      · simpa only [hentry, AutoTable.seq_modify] using h.entry
      · intro j hj
        simp only [hentry] at hj
        simp only [hlookup, Function.update_of_ne hj, h.others j hj]
      · refine ⟨{ row with data := b64 }, ?_, howner, ?_⟩
        · simp only [hentry, hlookup, Function.update_self]
        · rw [finishSave_buf, hunseal, cstr_eq_self h.nul]
  | @posted ts b64 hid hdata hunseal =>
      -- one row more, under the next id
      obtain ⟨hk0, hentry, hsame⟩ := h.eq_of_not_pos hk hid
      have hval := toInt_rowidToInt hids
      have hnat := toNatClampNeg_rowidToInt hids
      have hpos : 0 < (rowidToInt (db₀.entries.seq + 1)).toInt := by rw [hval]; omega
      rw [hsame, if_neg (show ¬ (rowidToInt (db₀.entries.seq + 1)).toInt < 0 by omega)]
      have hnew : (s.editor.finishSave (rowidToInt (db₀.entries.seq + 1))).entryId
          = rowidToInt (db₀.entries.seq + 1) := by
        rw [finishSave_entryId, if_pos ⟨hpos, by omega⟩]
      refine ⟨rfl, by simpa using h.nul, Or.inr ⟨hk0, ?_, rfl⟩, ?_, fun _ _ => ?_⟩
      · simp only [hnew, hval]
      · intro j hj
        simp only [hnew, hnat] at hj
        simp only [AutoTable.lookup_insert, Function.update_of_ne hj]
      · refine ⟨⟨user, ts, b64⟩, ?_, rfl, ?_⟩
        · simp only [hnew, hnat, AutoTable.lookup_insert, Function.update_self]
        · rw [finishSave_buf, hunseal, cstr_eq_self h.nul]

/-- **Step lemma of a session.** -/
theorem sessionInv_step (hP : P.Lawful) (hk : 0 ≤ k.toInt) (hids : db₀.entries.seq + 1 < 2 ^ 31)
    {s : Session} (h : SessionInv P user db₀ k s) (ev : SessionEvent ν) :
    SessionInv P user db₀ k (sessionStep P user t s ev).1 := by
  rw [sessionStep]
  split
  · have hkey := iterate_effect s.editor ev.inp
    generalize s.editor.iterate ev.inp = o at hkey
    cases hkey with
    | look | leave | noMemory => refine h.congr ?_ ?_ ?_ _ <;> rfl
    | edit hesc hnul hcur =>
        refine h.of_dirty ?_ ?_ ?_ _
        · exact hnul h.nul
        · rfl
        · exact one_ne_zero
    | warn hesc hdirty =>
        refine h.of_dirty ?_ ?_ ?_ _
        · exact h.nul
        · rfl
        · exact neg_ne_zero.mpr one_ne_zero
    | @save viewTop status hesc hdue =>
        have h' := h.congr (e := { s.editor with viewTop := viewTop, status := status }) rfl rfl rfl
          s.running
        exact sessionInv_save hk hids h' (netSave_effect hP ev.env _ h.unread)
  · exact h

/-! ### Which call a save makes -/

/-- An entry id, once there, stays. -/
theorem entryId_step {s : Session} (h : 0 < s.editor.entryId.toInt) (ev : SessionEvent ν) :
    (sessionStep P user t s ev).1.editor.entryId = s.editor.entryId := by
  rw [sessionStep]
  split
  · have hkey := iterate_effect s.editor ev.inp
    generalize s.editor.iterate ev.inp = o at hkey
    cases hkey with
    | look | edit | warn | leave | noMemory => rfl
    | save hesc hdue =>
        simp only [finishSave_entryId]
        rw [if_neg (by omega)]
  · rfl

theorem entryId_final {s : Session} (h : 0 < s.editor.entryId.toInt)
    (run : List (SessionEvent ν)) :
    (final (sessionStep P user t) s run).editor.entryId = s.editor.entryId := by
  refine final_invariant (I := fun s' : Session => s'.editor.entryId = s.editor.entryId) ?_ rfl run
  intro s' ev hs'
  rw [entryId_step (by rw [hs']; exact h), hs']

/-- A save updates the entry the session is on; the first that succeeds
puts it on one. -/
theorem save_step {s : Session} {ev : SessionEvent ν} {made : SaveMade}
    (h : (sessionStep P user t s ev).2 = some made) :
    (0 < s.editor.entryId.toInt → made.call = .update s.editor.entryId (cstr s.editor.buf)) ∧
      (¬ 0 < s.editor.entryId.toInt → 0 < made.newId.toInt →
        (sessionStep P user t s ev).1.editor.entryId = made.newId) := by
  unfold sessionStep at h ⊢
  split at h
  · next hrun =>
      have hkey := iterate_effect s.editor ev.inp
      rw [if_pos hrun]
      generalize s.editor.iterate ev.inp = o at hkey h ⊢
      cases hkey with
      | look | edit | warn | leave | noMemory => cases h
      | save hesc hdue =>
          obtain rfl := Option.some.inj h
          refine ⟨fun hid => by simp [Editor.saveCall, hid], fun hid hnew => ?_⟩
          simp only [finishSave_entryId]
          rw [if_pos ⟨hnew, by omega⟩]
  · cases h

/-- After a POST that returned an id the session is on that id for good. -/
theorem entryId_after_post {s : Session} {ev : SessionEvent ν} {made : SaveMade}
    (h : (sessionStep P user t s ev).2 = some made) (hnew : ¬ 0 < s.editor.entryId.toInt)
    (hid : 0 < made.newId.toInt) (run : List (SessionEvent ν)) :
    (final (sessionStep P user t) (sessionStep P user t s ev).1 run).editor.entryId
      = made.newId := by
  have hadopt := (save_step h).2 hnew hid
  rw [entryId_final (by rw [hadopt]; exact hid) run, hadopt]

/-- The call of a save in a run, by what was saved before it. -/
theorem save_in_run {s : Session} {before : List (SessionEvent ν)} {ev : SessionEvent ν}
    {made : SaveMade}
    (h : (sessionStep P user t (final (sessionStep P user t) s before) ev).2 = some made)
    {id : Int32} (hid : 0 < id.toInt)
    (hbefore : s.editor.entryId = id ∨ ∃ p ∈ trace (sessionStep P user t) s before,
      ∃ text made', p.2 = some made' ∧ made'.call = .post text t ∧ made'.newId = id) :
    made.call = .update id (cstr (final (sessionStep P user t) s before).editor.buf) := by
  have hcall := (save_step h).1
  rcases hbefore with hopen | ⟨p, hp, text, made', hmade, hpost, rfl⟩
  · have hfinal : (final (sessionStep P user t) s before).editor.entryId = s.editor.entryId :=
      entryId_final (by rw [hopen]; exact hid) before
    rw [hfinal, hopen] at hcall
    exact hcall hid
  · -- the session was new when it posted, and on the new entry ever since
    obtain ⟨js, ev', ks, rfl, rfl⟩ := mem_trace_iff (sessionStep P user t) |>.mp hp
    obtain ⟨hupdate, -⟩ := save_step hmade
    have hnew : ¬ 0 < (final (sessionStep P user t) s js).editor.entryId.toInt := fun hpos => by
      rw [hupdate hpos] at hpost
      cases hpost
    have hfinal := entryId_after_post hmade hnew hid ks
    rw [final_append, final_cons, hfinal] at hcall
    rw [final_append, final_cons]
    exact hcall hid

/-! ### Whole sessions -/

/-- **A session writes one entry.**  In every state of a session, opened
for a new entry (`k = 0`) or on a stored entry `k` with its text, whatever
keys and timeouts came and however its saves were answered:

* rows other than the session's own are as they were, no row was created
  unless the session was new, and then at most one;
* once the flag is clear and the entry has an id, the row of that id holds
  the buffer;
* the next save is an UPDATE of `k`, or of the id a POST of the session
  returned. -/
theorem session_writes_one_entry {P : Proto ν} (hP : P.Lawful) (user : Bytes) (t : Int64)
    (db₀ : Db) (hids : db₀.entries.seq + 1 < 2 ^ 31) (k : Int32) (text : Option Bytes)
    (hopen : k = 0 ∨ 0 < k.toInt ∧ ∃ init, text = some init ∧ 0 ∉ init ∧ Stores P user db₀ k init)
    (run : List (SessionEvent ν)) (ev : SessionEvent ν) :
    let s := final (sessionStep P user t) (Session.opened k text db₀) run
    let id := s.editor.entryId
    (∀ j, j ≠ id.toNatClampNeg → s.world.db.entries.lookup j = db₀.entries.lookup j) ∧
    (id = k ∨ k = 0 ∧ id.toInt = (db₀.entries.seq + 1 : ℕ)) ∧
    (∀ j, db₀.entries.lookup j = none → s.world.db.entries.lookup j ≠ none →
      k = 0 ∧ j = id.toNatClampNeg) ∧
    (s.editor.dirty = 0 → 0 < id.toInt → Stores P user s.world.db id s.editor.buf) ∧
    (∀ made id', (sessionStep P user t s ev).2 = some made → 0 < id'.toInt →
      (k = id' ∨ ∃ p ∈ trace (sessionStep P user t) (Session.opened k text db₀) run,
        ∃ text made', p.2 = some made' ∧ made'.call = .post text t ∧ made'.newId = id') →
      ∃ text, made.call = .update id' text) := by
  intro s id
  have hk : 0 ≤ k.toInt := by
    rcases hopen with rfl | ⟨hpos, -⟩
    · decide
    · exact hpos.le
  -- no key yet: the text is the one stored, if there is one
  have hinv₀ : SessionInv P user db₀ k (Session.opened k text db₀) := by
    refine ⟨rfl, zero_notMem_cstr _, Or.inl ⟨rfl, rfl⟩, fun _ _ => rfl, fun _ hpos => ?_⟩
    rcases hopen with rfl | ⟨-, init, rfl, hnul, hstores⟩
    · exact absurd hpos (lt_irrefl _)
    · simpa [Session.opened, Editor.opened, cstr_eq_self hnul] using hstores
  have hinv : SessionInv P user db₀ k s :=
    final_invariant (I := SessionInv P user db₀ k)
      (fun _ ev h => sessionInv_step hP hk hids h ev) hinv₀ run
  refine ⟨hinv.others, ?_, fun j hnone hsome => ?_, hinv.stored, fun made id' hmade hpos hid' => ?_⟩
  · exact hinv.entry.imp And.left fun h => ⟨h.1, h.2.1⟩
  · have hj : j = id.toNatClampNeg := by
      -- the others are as they were
      by_contra hne
      exact hsome ((hinv.others j hne).trans hnone)
    refine ⟨?_, hj⟩
    rcases hinv.entry with ⟨hentry, -⟩ | ⟨hzero, -⟩
    · rcases hopen with hzero | ⟨-, init, -, -, e, he, -⟩
      · exact hzero
      · rw [hj, show id = k from hentry, he] at hnone
        cases hnone
    · exact hzero
  · exact ⟨_, save_in_run hmade hpos hid'⟩

theorem session_writes_one_entry_hi :
    let event (ch : ℤ) : SessionEvent Unit :=
      ⟨⟨24, 80, ch, .other, true⟩, ⟨(), ⟨7, true, true, []⟩, true⟩⟩
    let s := final (sessionStep taggingProto (lit "alice") 0) (Session.opened 0 none Db.fresh)
      [event 104, event 105, event 19]
    Stores taggingProto (lit "alice") s.world.db 1 (lit "hi") := by
  intro event s
  have h := session_writes_one_entry taggingProto_lawful (lit "alice") 0 Db.fresh (by decide) 0 none
    (Or.inl rfl) [event 104, event 105, event 19] (event 19)
  have hid : s.editor.entryId = 1 := by decide
  have hbuf : s.editor.buf = lit "hi" := by decide
  have hstored := h.2.2.2.1 (by decide) (by decide)
  rw [hid, hbuf] at hstored
  exact hstored

end Diary
