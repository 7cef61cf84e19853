/-
Diary/MainActivity.lean

MainActivity.java: the list of entries, the dialogs that delete one of
them, and the two queues behind them.

Work on the connection runs on an executor of one thread, and what it has
to say to the screen is posted to the main looper; both are FIFO queues
here, and a run says which of them goes on next.  A dialog keeps the
position that was pressed.  `deleteEntry` looks it up in the list of the
time it is confirmed, and the completion of the DELETE removes whatever is
at that position by then.

* `deletes_pressed`: so the DELETE is for the entry that was pressed if no
  completion has put another entry at its position in between;
* `deletions_coherent`: and it removes the deleted entry from the list
  exactly if the deleted entry is still at its position.

The server is the one of the modules before (`serve`), other clients of it
included.  What a dialog, a task or a posted completion knows beyond its
captured variables is marked as such.
-/
import Diary.ClientOrder

namespace Diary

open CString Machine

/-! ### The activity -/

/-- A dialog on the screen, for the entry at `pos`: the menu, which has
captured the entry for its item "Edit", or the question "Delete this
entry?", which keeps only the position (`entry` is then for the reader). -/
structure Dialog where
  pos : ℕ
  entry : DiaryEntry
  confirming : Bool
deriving DecidableEq

/-- What waits on the executor.  A deletion captured `e.id` and `pos`; the
id of the entry that was pressed is for the reader. -/
inductive Task
  | connect
  | load
  | delete (id : Int32) (pos : ℕ) (pressed : Int32)
deriving DecidableEq

/-- What waits on the main looper.  The completion of a deletion captured
`pos`; the id deleted is for the reader.  `status` stands for every
completion that only shows a message. -/
inductive Posted
  | connected
  | loaded (list : List DiaryEntry)
  | deleted (pos : ℕ) (id : Int32)
  | status
deriving DecidableEq

/-- The activity, and the server's database.  `alive` is lost with the first
exception nothing catches. -/
structure MainActivity where
  entries : List DiaryEntry
  conn : Bool
  dialogs : List Dialog
  executor : List Task
  looper : List Posted
  alive : Bool
  db : Db

/-- `connectAndLoad`. -/
def MainActivity.connectAndLoad (s : MainActivity) : MainActivity :=
  { s with executor := s.executor ++ [.connect] }

/-- After `onCreate`. -/
def MainActivity.created (db : Db) : MainActivity :=
  MainActivity.connectAndLoad
    { entries := [], conn := false, dialogs := [], executor := [], looper := [], alive := true,
      db := db }

/-- `loadEntries`. -/
def MainActivity.loadEntries (s : MainActivity) : MainActivity :=
  if s.conn then { s with executor := s.executor ++ [.load] } else s

/-- `handler.post`. -/
def MainActivity.post (p : Posted) (s : MainActivity) : MainActivity :=
  { s with looper := s.looper ++ [p] }

/-- `showEntryMenu`. -/
def MainActivity.showEntryMenu (pos : ℕ) (s : MainActivity) : MainActivity :=
  match s.entries[pos]? with
  | none => { s with alive := false }
  | some e => { s with dialogs := s.dialogs ++ [⟨pos, e, false⟩] }

/-- `confirmDelete`, which takes the place of the menu. -/
def MainActivity.confirmDelete (i : ℕ) (d : Dialog) (s : MainActivity) : MainActivity :=
  { s with dialogs := s.dialogs.set i { d with confirming := true } }

/-- `deleteEntry`. -/
def MainActivity.deleteEntry (pos : ℕ) (pressed : Int32) (s : MainActivity) : MainActivity :=
  match s.entries[pos]? with
  | none => { s with alive := false }
  | some e => { s with executor := s.executor ++ [.delete e.id pos pressed] }

/-! ### The executor -/

/-- How far a request and its reply get. -/
inductive Transport
  | answered
  | unanswered
  | unsent
deriving DecidableEq

/-- A request line, if there is one, and the reply to it; `none` is an
exception. -/
def exchange (user : Bytes) (line : Option Bytes) (transport : Transport) (env : Env) (db : Db) :
    Db × Option (List Bytes) :=
  match line, transport with
  | some line, .answered =>
      ((serve db ⟨user, env, line⟩).1, some (serve db ⟨user, env, line⟩).2.lines)
  | some line, .unanswered => ((serve db ⟨user, env, line⟩).1, none)
  | some _, .unsent | none, _ => (db, none)

def MainActivity.request (user : Bytes) (transport : Transport) (env : Env) (line : Bytes)
    (s : MainActivity) : MainActivity × Option (List Bytes) :=
  let (db, reply) := exchange user (some line) transport env s.db
  ({ s with db := db }, reply)

/-- What a step does on the connection: `DiaryConnection.deleteEntry` is
called, for the id and beside the one pressed, or a list is loaded. -/
inductive MainCall
  | deleteEntry (id pressed : Int32)
  | getEntries
deriving DecidableEq

section Step

variable (user : Bytes) (unsealFromBase64 : Bytes → Option (Option Bytes))

/-- The executor runs its next task. -/
def MainActivity.runTask (transport : Transport) (env : Env) (s : MainActivity) :
    MainActivity × Option MainCall :=
  match s.executor with
  | [] => (s, none)
  | .connect :: executor =>
      let s := { s with conn := true, executor := executor }
      (s.post (if transport = .answered then .connected else .status), none)
  | .load :: executor =>
      let (s, reply) := MainActivity.request user transport env (lit "GET")
        { s with executor := executor }
      match reply.bind (androidGetEntries (newEntry unsealFromBase64)) with
      | some list => (s.post (.loaded (sortByTimestamp list)), some .getEntries)
      | none => (s.connectAndLoad.post .status, none)
  | .delete id pos pressed :: executor =>
      let (s, reply) := MainActivity.request user transport env (lit "DELETE " ++ dec id.toInt)
        { s with executor := executor }
      (s.post (if reply = some [lit "OK"] then .deleted pos id else .status),
        some (.deleteEntry id pressed))

/-- The main looper runs the next completion; `entries.remove(pos)` throws
outside the list. -/
def MainActivity.runPosted (s : MainActivity) : MainActivity :=
  match s.looper with
  | [] => s
  | .connected :: looper => MainActivity.loadEntries { s with looper := looper }
  | .loaded list :: looper => { s with looper := looper, entries := list }
  | .deleted pos _ :: looper =>
      if pos < s.entries.length then
        { s with looper := looper, entries := s.entries.eraseIdx pos }
      else { s with looper := looper, alive := false }
  | .status :: looper => { s with looper := looper }

/-- What can happen: the user presses something, a queue goes on, or another
client is served.  Dialogs are named by their index.  The editor is another
activity; when it returns the list is reloaded. -/
inductive MainEvent
  | longPress (pos : ℕ)
  | edit (dialog : ℕ)
  | delete (dialog : ℕ)
  | confirm (dialog : ℕ)
  | dismiss (dialog : ℕ)
  | reload
  | runTask (transport : Transport) (env : Env)
  | runPosted
  | other (r : Request)

/-- An event of a running activity. -/
def MainActivity.handle (s : MainActivity) : MainEvent → MainActivity × Option MainCall
  | .longPress pos => (s.showEntryMenu pos, none)
  | .edit i => ({ s with dialogs := s.dialogs.eraseIdx i }, none)
  | .delete i =>
      match s.dialogs[i]? with
      | some d => (s.confirmDelete i d, none)
      | none => (s, none)
  | .confirm i =>
      match s.dialogs[i]? with
      | some d =>
          if d.confirming then
            (MainActivity.deleteEntry d.pos d.entry.id
              { s with dialogs := s.dialogs.eraseIdx i }, none)
          else (s, none)
      | none => (s, none)
  | .dismiss i => ({ s with dialogs := s.dialogs.eraseIdx i }, none)
  | .reload => (s.loadEntries, none)
  | .runTask transport env => s.runTask user unsealFromBase64 transport env
  | .runPosted => (s.runPosted, none)
  | .other r => ({ s with db := (serve s.db r).1 }, none)

/-- One event; the server goes on without the activity. -/
def mainStep (s : MainActivity) (ev : MainEvent) : MainActivity × Option MainCall :=
  if s.alive then s.handle user unsealFromBase64 ev
  else
    match ev with
    | .other r => ({ s with db := (serve s.db r).1 }, none)
    | _ => (s, none)

end Step

/-! ### What a step does to the executor -/

variable {user : Bytes} {unsealFromBase64 : Bytes → Option (Option Bytes)}

@[simp] theorem executor_post (p : Posted) (s : MainActivity) :
    (s.post p).executor = s.executor := rfl

/-- A request changes nothing of the activity. -/
theorem request_fst (user : Bytes) (transport : Transport) (env : Env) (line : Bytes)
    (s : MainActivity) :
    (s.request user transport env line).1
      = { s with
          db := if transport = .unsent then s.db else (serve s.db ⟨user, env, line⟩).1 } := by
  cases transport <;> rfl

/-- A confirmed question, and the entry at its position by now. -/
structure Confirms (s : MainActivity) (ev : MainEvent) (d : Dialog) (e : DiaryEntry) : Prop where
  alive : s.alive = true
  event : ∃ i, ev = .confirm i ∧ s.dialogs[i]? = some d
  confirming : d.confirming = true
  entry : s.entries[d.pos]? = some e

/-- Everything a step can do to the executor's queue, with what it calls:
only a confirmed question queues a deletion, and only the executor runs
one. -/
inductive ExecutorEffect (s : MainActivity) (ev : MainEvent) :
    List Task → Option MainCall → Prop
  | idle : ExecutorEffect s ev s.executor none
  | queue {t} (ht : t = .connect ∨ t = .load) : ExecutorEffect s ev (s.executor ++ [t]) none
  | confirm {d e} (h : Confirms s ev d e) :
      ExecutorEffect s ev (s.executor ++ [.delete e.id d.pos d.entry.id]) none
  | connect {rest} (h : s.executor = .connect :: rest) : ExecutorEffect s ev rest none
  | load {rest} (h : s.executor = .load :: rest) : ExecutorEffect s ev rest (some .getEntries)
  | loadFails {rest} (h : s.executor = .load :: rest) :
      ExecutorEffect s ev (rest ++ [.connect]) none
  | delete {id pos pressed rest} (h : s.executor = .delete id pos pressed :: rest) :
      ExecutorEffect s ev rest (some (.deleteEntry id pressed))

theorem executorEffect_runTask (transport : Transport) (env : Env) (s : MainActivity)
    (ev : MainEvent) :
    ExecutorEffect s ev (s.runTask user unsealFromBase64 transport env).1.executor
      (s.runTask user unsealFromBase64 transport env).2 := by
  rw [MainActivity.runTask]
  rcases hex : s.executor with - | ⟨t, rest⟩
  · exact .idle
  cases t with
  | connect => exact .connect hex
  | load =>
      simp only
      split
      · rw [executor_post, request_fst]
        exact .load hex
      · rw [executor_post, MainActivity.connectAndLoad, request_fst]
        exact .loadFails hex
  | delete id pos pressed =>
      simp only [executor_post, request_fst]
      exact .delete hex

theorem executorEffect_loadEntries {s s' : MainActivity} (h : s'.executor = s.executor)
    (ev : MainEvent) : ExecutorEffect s ev s'.loadEntries.executor none := by
  rw [MainActivity.loadEntries]
  split
  · rw [h]
    exact .queue (Or.inr rfl)
  · rw [h]
    exact .idle

theorem executorEffect_runPosted (s : MainActivity) (ev : MainEvent) :
    ExecutorEffect s ev s.runPosted.executor none := by
  rw [MainActivity.runPosted]
  split
  · exact .idle
  · refine executorEffect_loadEntries (s := s) ?_ ev
    rfl
  · exact .idle
  · split <;> exact .idle
  · exact .idle

variable (user unsealFromBase64) in
theorem executorEffect_mainStep (s : MainActivity) (ev : MainEvent) :
    ExecutorEffect s ev (mainStep user unsealFromBase64 s ev).1.executor
      (mainStep user unsealFromBase64 s ev).2 := by
  unfold mainStep
  split
  swap
  · cases ev <;> exact .idle
  next halive =>
  cases ev with
  | longPress pos =>
      simp only [MainActivity.handle, MainActivity.showEntryMenu]
      split <;> exact .idle
  | edit i | dismiss i => exact .idle
  | delete i =>
      simp only [MainActivity.handle]
      split <;> exact .idle
  | confirm i =>
      simp only [MainActivity.handle]
      split
      · next d hd =>
        split
        · next hconf =>
          simp only [MainActivity.deleteEntry]
          split
          · exact .idle
          · -- a deletion is queued when the dialog is confirmed, and only then
            next e he => exact .confirm ⟨halive, ⟨i, rfl, hd⟩, hconf, he⟩
        · exact .idle
      · exact .idle
  | reload => exact executorEffect_loadEntries rfl _
  | runTask transport env => exact executorEffect_runTask transport env s _
  | runPosted => exact executorEffect_runPosted s _
  | other r => exact .idle

/-! ### Deletion and the entry that was pressed -/

/-- Whatever question is confirmed, the entry at its position is the one
that was pressed. -/
def ConfirmsPressed (s : MainActivity) (ev : MainEvent) : Prop :=
  ∀ d e, Confirms s ev d e → e.id = d.entry.id

/-- Every DELETE of a run is for the entry that was pressed. -/
def DeletesPressed (run : List (MainEvent × Option MainCall)) : Prop :=
  ∀ p ∈ run, ∀ id pressed, p.2 = some (.deleteEntry id pressed) → id = pressed

/-- No deletion waits. -/
def MainActivity.NoDeleteWaits (s : MainActivity) : Prop :=
  ∀ id pos pressed, .delete id pos pressed ∉ s.executor

/-- Every deletion that waits is for the entry that was pressed. -/
def WaitsForPressed (s : MainActivity) : Prop :=
  ∀ id pos pressed, .delete id pos pressed ∈ s.executor → id = pressed

theorem waitsForPressed_step {s : MainActivity} (h : WaitsForPressed s) {ev : MainEvent}
    (hconf : ConfirmsPressed s ev) :
    WaitsForPressed (mainStep user unsealFromBase64 s ev).1 := by
  intro id pos pressed hmem
  generalize hex : (mainStep user unsealFromBase64 s ev).1.executor = ex at hmem
  have heff := executorEffect_mainStep user unsealFromBase64 s ev
  rw [hex] at heff
  generalize (mainStep user unsealFromBase64 s ev).2 = out at heff
  cases heff with
  | idle => exact h id pos pressed hmem
  | queue ht =>
      rcases List.mem_append.mp hmem with hmem | hmem
      · exact h id pos pressed hmem
      · rcases ht with rfl | rfl <;> simp at hmem
  | @confirm d e hc =>
      rcases List.mem_append.mp hmem with hmem | hmem
      · exact h id pos pressed hmem
      · -- the deletion that was just confirmed
        obtain ⟨rfl, rfl, rfl⟩ : id = e.id ∧ pos = d.pos ∧ pressed = d.entry.id := by
          simpa using hmem
        exact hconf d e hc
  | connect hrest | load hrest | delete hrest =>
      exact h id pos pressed (by rw [hrest]; exact List.mem_cons_of_mem _ hmem)
  | loadFails hrest =>
      rcases List.mem_append.mp hmem with hmem | hmem
      · exact h id pos pressed (by rw [hrest]; exact List.mem_cons_of_mem _ hmem)
      · simp at hmem

theorem deletesPressed_step {s : MainActivity} (h : WaitsForPressed s) {ev : MainEvent}
    {id pressed : Int32}
    (hcall : (mainStep user unsealFromBase64 s ev).2 = some (.deleteEntry id pressed)) :
    id = pressed := by
  have heff := executorEffect_mainStep user unsealFromBase64 s ev
  rw [hcall] at heff
  generalize (mainStep user unsealFromBase64 s ev).1.executor = ex at heff
  cases heff with
  | delete hex => exact h _ _ _ (by rw [hex]; exact List.mem_cons_self)

variable (user unsealFromBase64) in
/-- A deletion that waits is called for, or still waits. -/
theorem waiting_step {s : MainActivity} {id pressed : Int32} {pos : ℕ}
    (h : .delete id pos pressed ∈ s.executor) (ev : MainEvent) :
    .delete id pos pressed ∈ (mainStep user unsealFromBase64 s ev).1.executor ∨
      (mainStep user unsealFromBase64 s ev).2 = some (.deleteEntry id pressed) := by
  have heff := executorEffect_mainStep user unsealFromBase64 s ev
  generalize (mainStep user unsealFromBase64 s ev).1.executor = ex at heff
  generalize (mainStep user unsealFromBase64 s ev).2 = out at heff
  cases heff with
  | idle => exact Or.inl h
  | queue | confirm => exact Or.inl (List.mem_append_left _ h)
  | connect hex | load hex =>
      rw [hex] at h
      exact Or.inl (by simpa using h)
  | loadFails hex =>
      rw [hex] at h
      exact Or.inl (List.mem_append_left _ (by simpa using h))
  | delete hex =>
      rw [hex, List.mem_cons] at h
      rcases h with heq | h
      · obtain ⟨rfl, rfl, rfl⟩ := Task.delete.inj heq
        exact Or.inr rfl
      · exact Or.inl h

variable (user unsealFromBase64) in
theorem waiting_final {id pressed : Int32} {pos : ℕ} (evs : List MainEvent) {s : MainActivity}
    (h : .delete id pos pressed ∈ s.executor) :
    .delete id pos pressed ∈ (final (mainStep user unsealFromBase64) s evs).executor ∨
      ∃ p ∈ trace (mainStep user unsealFromBase64) s evs,
        p.2 = some (.deleteEntry id pressed) := by
  induction evs generalizing s with
  | nil => exact Or.inl h
  | cons ev evs ih =>
      rcases waiting_step user unsealFromBase64 h ev with h | h
      · exact (ih h).imp_right fun ⟨p, hp, hcall⟩ => ⟨p, List.mem_cons_of_mem _ hp, hcall⟩
      · exact Or.inr ⟨_, List.mem_cons_self, h⟩

/-- The DELETE a confirmed question queues. -/
theorem executor_of_confirms {s : MainActivity} {ev : MainEvent} {d : Dialog} {e : DiaryEntry}
    (h : Confirms s ev d e) :
    (mainStep user unsealFromBase64 s ev).1.executor
      = s.executor ++ [.delete e.id d.pos d.entry.id] := by
  obtain ⟨halive, ⟨i, rfl, hd⟩, hconf, he⟩ := h
  unfold mainStep
  rw [if_pos halive]
  simp only [MainActivity.handle, hd, if_pos hconf, MainActivity.deleteEntry, he]

/-- **Deletion and the entry that was pressed.**  If at each question that is
confirmed the entry at its position is the one that was pressed, every
DELETE of the run is for an entry that was pressed.  And in a run in which
every deletion has had its turn, that is the only way. -/
theorem deletes_pressed (user : Bytes) (unsealFromBase64 : Bytes → Option (Option Bytes))
    (db : Db) (run : List MainEvent) :
    let step := mainStep user unsealFromBase64
    let s₀ := MainActivity.created db
    (Throughout step ConfirmsPressed s₀ run → DeletesPressed (trace step s₀ run)) ∧
      ((final step s₀ run).NoDeleteWaits →
        (DeletesPressed (trace step s₀ run) ↔ Throughout step ConfirmsPressed s₀ run)) := by
  intro step s₀
  have hstart : WaitsForPressed s₀ := by
    intro id pos pressed hmem
    simp [s₀, MainActivity.created, MainActivity.connectAndLoad] at hmem
  have henough : Throughout step ConfirmsPressed s₀ run → DeletesPressed (trace step s₀ run) := by
    intro hrun p hp id pressed hcall
    obtain ⟨js, ev, ks, rfl, rfl⟩ := (mem_trace_iff step).mp hp
    have hjs := (throughout_append.mp hrun).1
    have hwaits : WaitsForPressed (final step s₀ js) :=
      throughout_invariant (I := WaitsForPressed) (fun _ _ h hc => waitsForPressed_step h hc)
        hstart js hjs
    exact deletesPressed_step hwaits hcall
  refine ⟨henough, fun hdone => ⟨fun hdel => ?_, henough⟩⟩
  refine throughout_iff_forall.mpr fun js ev ks hrun d e hconf => ?_
  -- the deletion queued here is called for later, as none waits at the end
  have hmem : .delete e.id d.pos d.entry.id ∈ (step (final step s₀ js) ev).1.executor := by
    rw [executor_of_confirms hconf]
    exact List.mem_append_right _ List.mem_cons_self
  have hsplit : final step s₀ run = final step (step (final step s₀ js) ev).1 ks := by
    rw [hrun, final_append, final_cons]
  rcases waiting_final user unsealFromBase64 ks hmem with h | h
  · rw [hsplit] at hdone
    exact absurd h (hdone _ _ _)
  · obtain ⟨p, hp, hcall⟩ := h
    refine hdel p ?_ _ _ hcall
    rw [hrun, trace_append, trace_cons]
    exact List.mem_append_right _ (List.mem_cons_of_mem _ hp)

/-! ### Removal by position -/

/-- Among elements known by distinct keys, removing a position is removing a
key exactly if the key is at the position. -/
theorem eraseIdx_eq_filter_iff {α β : Type*} [DecidableEq β] {f : α → β} {l : List α}
    (hl : (l.map f).Nodup) {pos : ℕ} {b : β} :
    (pos < l.length ∧ l.eraseIdx pos = l.filter fun a => f a ≠ b) ↔ l[pos]?.map f = some b := by
  induction l generalizing pos with
  | nil => simp
  | cons a l ih =>
      obtain ⟨ha, hl⟩ := List.nodup_cons.mp hl
      have hnot : a ∉ l := fun hmem => ha (List.mem_map_of_mem hmem)
      by_cases hab : f a = b
      · -- the key is the first element's, and no later one's
        have hrest : ∀ x ∈ l, f x ≠ b := fun x hx hxb =>
          ha (List.mem_map.mpr ⟨x, hx, hxb.trans hab.symm⟩)
        have hfilter : (a :: l).filter (fun x => f x ≠ b) = l := by
          rw [List.filter_cons_of_neg (by simpa using hab),
            List.filter_eq_self.mpr fun x hx => by simpa using hrest x hx]
        rw [hfilter]
        cases pos with
        | zero => simp [hab]
        | succ pos =>
            refine iff_of_false (fun h => hnot ?_) fun h => ?_
            · rw [← h.2, List.eraseIdx_cons_succ]
              exact List.mem_cons_self
            · rw [List.getElem?_cons_succ] at h
              obtain ⟨x, hx, hxb⟩ := Option.map_eq_some_iff.mp h
              exact hrest x (List.mem_of_getElem? hx) hxb
      · have hfilter : (a :: l).filter (fun x => f x ≠ b) = a :: l.filter fun x => f x ≠ b :=
          List.filter_cons_of_pos (by simpa using hab)
        rw [hfilter]
        cases pos with
        | zero =>
            refine iff_of_false (fun h => hnot ?_) (by simpa using hab)
            rw [show l = _ from h.2]
            exact List.mem_cons_self
        | succ pos =>
            rw [List.length_cons, Nat.add_lt_add_iff_right, List.eraseIdx_cons_succ,
              List.cons_inj_right, List.getElem?_cons_succ]
            exact ih hl

/-! ### What the server tells the activity -/

/-- The ids of a list of entries. -/
def entryIds (entries : List DiaryEntry) : List Int32 := entries.map DiaryEntry.id

/-- A reply to a GET that is read as a list is read as what was collected for
it. -/
theorem entryIds_of_get {env : Env} {db : Db} (hids : db.entries.seq < 2 ^ 31)
    {list : List DiaryEntry}
    (hlist : androidGetEntries (newEntry unsealFromBase64)
      (serve db ⟨user, env, lit "GET"⟩).2.lines = some list) :
    entryIds list = (collect env.malloc (db.view user)).map EntryLine.id := by
  cases hcalloc : env.calloc with
  | false =>
      rw [serve_eq, parseLine_get rfl] at hlist
      simp only [perform, hcalloc, if_true] at hlist
      cases hlist
  | true =>
      have htext : ∀ l ∈ db.view user, l.text = l.row := fun l hl =>
        text_eq_row (view_id_bounds hids hl).1.le
      have hlen : (collect env.malloc (db.view user)).length < 2 ^ 31 :=
        lt_of_le_of_lt (length_collect_le _ _) (by decide)
      rw [lines_serve_getReply hcalloc htext, androidGetEntries_rows_iff _ hlen] at hlist
      have hpairs := congrArg (List.map Prod.fst) (map_pair_newEntry hlist)
      rw [List.map_map, List.map_map] at hpairs
      exact hpairs

theorem entryIds_sortByTimestamp_perm (list : List DiaryEntry) :
    (entryIds (sortByTimestamp list)).Perm (entryIds list) :=
  (List.mergeSort_perm _ _).map _

theorem nodup_view_ids {db : Db} (hids : db.entries.seq < 2 ^ 31) (user : Bytes) :
    ((db.view user).map EntryLine.id).Nodup := by
  refine List.pairwise_map.mpr ((view_ascending hids).imp fun {l m} hlt heq => ?_)
  rw [heq] at hlt
  exact lt_irrefl _ hlt

/-- A request to delete an id. -/
def deleteRequest (user : Bytes) (env : Env) (id : Int32) : Request :=
  ⟨user, env, lit "DELETE " ++ dec id.toInt⟩

theorem serve_get_fst (db : Db) (user : Bytes) (env : Env) :
    (serve db ⟨user, env, lit "GET"⟩).1 = db := by
  rw [serve_eq, parseLine_get rfl]
  rfl

/-- A DELETE is answered OK or FAIL. -/
theorem serve_delete_reply (db : Db) (user : Bytes) (env : Env) (id : Int32) :
    (serve db (deleteRequest user env id)).2 = .ok ∨
      (serve db (deleteRequest user env id)).2 = .fail .notFound := by
  rw [serve_eq, deleteRequest, parseLine_delete]
  simp only [perform]
  split
  · exact Or.inl rfl
  · exact Or.inr rfl

theorem serve_delete_lines (db : Db) (user : Bytes) (env : Env) (id : Int32) :
    (serve db (deleteRequest user env id)).2.lines = [lit "OK"] ↔
      (serve db (deleteRequest user env id)).2 = .ok := by
  rcases serve_delete_reply db user env id with h | h <;> rw [h]
  · simp [Reply.lines]
  · exact iff_of_false (by decide) (by simp)

/-- Everything a step can do to the list, to the looper and to the
database. -/
inductive ScreenEffect (user : Bytes) (unsealFromBase64 : Bytes → Option (Option Bytes))
    (s : MainActivity) (ev : MainEvent) : List DiaryEntry → List Posted → Db → Prop
  | idle : ScreenEffect user unsealFromBase64 s ev s.entries s.looper s.db
  | other {r} (hev : ev = .other r) :
      ScreenEffect user unsealFromBase64 s ev s.entries s.looper (serve s.db r).1
  | message {p} (hp : p = .connected ∨ p = .status) :
      ScreenEffect user unsealFromBase64 s ev s.entries (s.looper ++ [p]) s.db
  | load {transport env rest list} (hev : ev = .runTask transport env)
      (hex : s.executor = .load :: rest)
      (hlist : androidGetEntries (newEntry unsealFromBase64)
        (serve s.db ⟨user, env, lit "GET"⟩).2.lines
        = some list) :
      ScreenEffect user unsealFromBase64 s ev s.entries
        (s.looper ++ [.loaded (sortByTimestamp list)]) s.db
  | delete {env id pos} (hok : (serve s.db (deleteRequest user env id)).2 = .ok) :
      ScreenEffect user unsealFromBase64 s ev s.entries (s.looper ++ [.deleted pos id])
        (serve s.db (deleteRequest user env id)).1
  | deleteFails {transport env id pos pressed rest} (hev : ev = .runTask transport env)
      (hex : s.executor = .delete id pos pressed :: rest)
      (hfail : transport = .unanswered ∨ (serve s.db (deleteRequest user env id)).2 ≠ .ok) :
      ScreenEffect user unsealFromBase64 s ev s.entries (s.looper ++ [.status])
        (serve s.db (deleteRequest user env id)).1
  | display {list rest} (hloop : s.looper = .loaded list :: rest) :
      ScreenEffect user unsealFromBase64 s ev list rest s.db
  | remove {pos id rest} (hloop : s.looper = .deleted pos id :: rest)
      (hpos : pos < s.entries.length) (hev : ev = .runPosted) (halive : s.alive = true) :
      ScreenEffect user unsealFromBase64 s ev (s.entries.eraseIdx pos) rest s.db
  | crash {pos id rest} (hloop : s.looper = .deleted pos id :: rest)
      (hpos : ¬ pos < s.entries.length) (hev : ev = .runPosted) (halive : s.alive = true) :
      ScreenEffect user unsealFromBase64 s ev s.entries rest s.db
  | note {p rest} (hloop : s.looper = p :: rest) (hp : p = .connected ∨ p = .status) :
      ScreenEffect user unsealFromBase64 s ev s.entries rest s.db

theorem screenEffect_runTask {s : MainActivity} {ev : MainEvent} {transport : Transport} {env : Env}
    (hev : ev = .runTask transport env) :
    ScreenEffect user unsealFromBase64 s ev
      (s.runTask user unsealFromBase64 transport env).1.entries
      (s.runTask user unsealFromBase64 transport env).1.looper
      (s.runTask user unsealFromBase64 transport env).1.db := by
  rw [MainActivity.runTask]
  rcases hex : s.executor with - | ⟨t, rest⟩
  · exact .idle
  cases t with
  | connect =>
      refine .message (p := if transport = .answered then .connected else .status) ?_
      split
      · exact Or.inl rfl
      · exact Or.inr rfl
  | load =>
      cases transport with
      | unsent => exact .message (Or.inr rfl)
      | unanswered =>
          simp only [MainActivity.request, exchange, Option.bind_none, MainActivity.connectAndLoad,
            MainActivity.post, serve_get_fst]
          exact .message (Or.inr rfl)
      | answered =>
          simp only [MainActivity.request, exchange, Option.bind_some, serve_get_fst]
          rcases hlist : androidGetEntries (newEntry unsealFromBase64)
            (serve s.db ⟨user, env, lit "GET"⟩).2.lines with - | list
          · exact .message (Or.inr rfl)
          · exact .load hev hex hlist
  | delete id pos pressed =>
      cases transport with
      | unsent => exact .message (Or.inr rfl)
      | unanswered => exact .deleteFails hev hex (Or.inl rfl)
      | answered =>
          -- the lines of the reply tell whether the server removed the row
          have hlines := serve_delete_lines s.db user env id
          simp only [MainActivity.request, exchange, Option.some.injEq,
            show (⟨user, env, lit "DELETE " ++ dec id.toInt⟩ : Request)
              = deleteRequest user env id from rfl]
          by_cases hok : (serve s.db (deleteRequest user env id)).2 = .ok
          · rw [if_pos (hlines.mpr hok)]
            exact .delete hok
          · rw [if_neg (mt hlines.mp hok)]
            exact .deleteFails hev hex (Or.inr hok)

theorem screen_loadEntries (s : MainActivity) :
    s.loadEntries.entries = s.entries ∧ s.loadEntries.looper = s.looper ∧
      s.loadEntries.db = s.db := by
  rw [MainActivity.loadEntries]
  split <;> exact ⟨rfl, rfl, rfl⟩

theorem screenEffect_runPosted {s : MainActivity} {ev : MainEvent} (hev : ev = .runPosted)
    (halive : s.alive = true) :
    ScreenEffect user unsealFromBase64 s ev s.runPosted.entries s.runPosted.looper
      s.runPosted.db := by
  rw [MainActivity.runPosted]
  split
  · exact .idle
  · next looper hloop =>
    obtain ⟨he, hl, hd⟩ := screen_loadEntries { s with looper := looper }
    rw [he, hl, hd]
    exact .note hloop (Or.inl rfl)
  · next hloop => exact .display hloop
  · next hloop =>
    split
    · next hpos => exact .remove hloop hpos hev halive
    · next hpos => exact .crash hloop hpos hev halive
  · next hloop => exact .note hloop (Or.inr rfl)

variable (user unsealFromBase64) in
theorem screenEffect_mainStep (s : MainActivity) (ev : MainEvent) :
    ScreenEffect user unsealFromBase64 s ev
      (mainStep user unsealFromBase64 s ev).1.entries
      (mainStep user unsealFromBase64 s ev).1.looper
      (mainStep user unsealFromBase64 s ev).1.db := by
  unfold mainStep
  split
  swap
  · cases ev with
    -- a destroyed activity hears of the other clients alone
    | other r => exact .other rfl
    | longPress | edit | delete | confirm | dismiss | reload | runTask | runPosted => exact .idle
  next halive =>
  cases ev with
  | longPress pos =>
      simp only [MainActivity.handle, MainActivity.showEntryMenu]
      split <;> exact .idle
  | edit i | dismiss i => exact .idle
  | delete i =>
      simp only [MainActivity.handle]
      split <;> exact .idle
  | confirm i =>
      simp only [MainActivity.handle]
      split
      · split
        · simp only [MainActivity.deleteEntry]
          split <;> exact .idle
        · exact .idle
      · exact .idle
  | reload =>
      obtain ⟨he, hl, hd⟩ := screen_loadEntries s
      simp only [MainActivity.handle, he, hl, hd]
      exact .idle
  | runTask transport env => exact screenEffect_runTask rfl
  | runPosted => exact screenEffect_runPosted rfl halive
  | other r => exact .other rfl

/-! ### The list on the screen has distinct ids -/

/-- The lists of the activity, on the screen or on the way to it, have
distinct ids. -/
structure DistinctIds (s : MainActivity) : Prop where
  entries : (entryIds s.entries).Nodup
  loaded : ∀ list, .loaded list ∈ s.looper → (entryIds list).Nodup

theorem seq_le_screenEffect {s : MainActivity} {ev : MainEvent} {es : List DiaryEntry}
    {looper : List Posted} {db : Db}
    (h : ScreenEffect user unsealFromBase64 s ev es looper db) :
    s.db.entries.seq ≤ db.entries.seq := by
  cases h with
  | other | delete | deleteFails => exact seq_le_serve _ _
  | idle | message | load | display | remove | crash | note => exact le_refl _

theorem seq_lt_of_mainStep (s : MainActivity) (ev : MainEvent)
    (h : (mainStep user unsealFromBase64 s ev).1.db.entries.seq < 2 ^ 31) :
    s.db.entries.seq < 2 ^ 31 :=
  lt_of_le_of_lt (seq_le_screenEffect (screenEffect_mainStep _ _ s ev)) h

theorem distinctIds_screenEffect {s : MainActivity} (hids : s.db.entries.seq < 2 ^ 31)
    (h : DistinctIds s) {ev : MainEvent} {es : List DiaryEntry} {looper : List Posted} {db : Db}
    (heff : ScreenEffect user unsealFromBase64 s ev es looper db) :
    (entryIds es).Nodup ∧ ∀ list, .loaded list ∈ looper → (entryIds list).Nodup := by
  -- what is left of the looper was there before
  have htail : ∀ {p rest}, s.looper = p :: rest → ∀ list, .loaded list ∈ rest →
      (entryIds list).Nodup := fun hloop list hmem =>
    h.loaded list (by rw [hloop]; exact List.mem_cons_of_mem _ hmem)
  -- a posted message that is no list brings no list
  have hposted : ∀ p, (∀ list, p ≠ Posted.loaded list) → ∀ list, .loaded list ∈ s.looper ++ [p] →
      (entryIds list).Nodup := by
    intro p hp list hmem
    rcases List.mem_append.mp hmem with hmem | hmem
    · exact h.loaded list hmem
    · exact absurd (List.mem_singleton.mp hmem).symm (hp list)
  cases heff with
  | idle | other => exact ⟨h.entries, h.loaded⟩
  | message hp => exact ⟨h.entries, hposted _ (by rcases hp with rfl | rfl <;> simp)⟩
  | delete | deleteFails => exact ⟨h.entries, hposted _ (by simp)⟩
  | @load transport env rest list hev hex hlist =>
      refine ⟨h.entries, fun list' hmem => ?_⟩
      rcases List.mem_append.mp hmem with hmem | hmem
      · exact h.loaded list' hmem
      · obtain rfl : list' = sortByTimestamp list := by simpa using hmem
        -- a loaded list has the ids of the rows, each once
        rw [(entryIds_sortByTimestamp_perm list).nodup_iff]
        rw [entryIds_of_get hids hlist]
        exact ((collect_sublist _ _).map _).nodup (nodup_view_ids hids user)
  | display hloop =>
      exact ⟨h.loaded _ (by rw [hloop]; exact List.mem_cons_self), htail hloop⟩
  | remove hloop hpos =>
      exact ⟨((List.eraseIdx_sublist _ _).map _).nodup h.entries, htail hloop⟩
  | crash hloop | note hloop => exact ⟨h.entries, htail hloop⟩

theorem distinctIds_step (s : MainActivity) (ev : MainEvent)
    (hids : (mainStep user unsealFromBase64 s ev).1.db.entries.seq < 2 ^ 31)
    (h : DistinctIds s) : DistinctIds (mainStep user unsealFromBase64 s ev).1 := by
  obtain ⟨hentries, hloaded⟩ := distinctIds_screenEffect (seq_lt_of_mainStep s ev hids) h
    (screenEffect_mainStep user unsealFromBase64 s ev)
  exact ⟨hentries, hloaded⟩

/-! ### Completions of deletions -/

/-- The completion of a DELETE answered OK does not throw; it removes the
deleted entry from the list, if it is there, and no other. -/
def RemovesDeleted (user : Bytes) (unsealFromBase64 : Bytes → Option (Option Bytes))
    (s : MainActivity) (ev : MainEvent) : Prop :=
  ∀ pos id rest, s.alive = true → ev = .runPosted → s.looper = .deleted pos id :: rest →
    (mainStep user unsealFromBase64 s ev).1.alive = true ∧
      (mainStep user unsealFromBase64 s ev).1.entries = s.entries.filter fun e => e.id ≠ id

/-- At the completion of a DELETE the deleted entry is still at the position
it was deleted from. -/
def StillAtPosition (s : MainActivity) (ev : MainEvent) : Prop :=
  ∀ pos id rest, s.alive = true → ev = .runPosted → s.looper = .deleted pos id :: rest →
    s.entries[pos]?.map DiaryEntry.id = some id

theorem removesDeleted_iff_step {s : MainActivity} (h : DistinctIds s) (ev : MainEvent) :
    RemovesDeleted user unsealFromBase64 s ev ↔ StillAtPosition s ev := by
  refine forall_congr' fun pos => forall_congr' fun id => forall_congr' fun rest =>
    forall_congr' fun halive => forall_congr' fun hev => forall_congr' fun hloop => ?_
  subst hev
  rw [← eraseIdx_eq_filter_iff h.entries]
  simp only [mainStep, if_pos halive, MainActivity.handle, MainActivity.runPosted, hloop]
  by_cases hpos : pos < s.entries.length
  · simp [hpos, halive]
  · simp [hpos]

/-! ### The list and the server -/

/-- What the completions still on their way make of the ids on the
screen. -/
def Posted.ids (ids : List Int32) : Posted → List Int32
  | .loaded list => entryIds list
  | .deleted _ id => ids.filter (· ≠ id)
  | .connected | .status => ids

/-- Once the looper has run, the list has the ids the server holds. -/
def Mirrors (user : Bytes) (s : MainActivity) : Prop :=
  ∀ id, id ∈ s.looper.foldl Posted.ids (entryIds s.entries) ↔
    id ∈ (s.db.view user).map EntryLine.id

/-- Nobody else writes the user's rows, a GET has room for all of them, and
a DELETE that reaches the server is answered. -/
structure Calm (user : Bytes) (s : MainActivity) (ev : MainEvent) : Prop where
  alone : ∀ r, ev = .other r → r.user ≠ user
  complete : ∀ transport env rest, ev = .runTask transport env → s.executor = .load :: rest →
    (∀ b ∈ env.malloc, b = true) ∧ (s.db.view user).length ≤ maxEntries
  answered : ∀ transport env id pos pressed rest, ev = .runTask transport env →
    s.executor = .delete id pos pressed :: rest → transport ≠ .unanswered

/-- A list that is loaded has the server's ids. -/
theorem entryIds_loaded {s : MainActivity} (hids : s.db.entries.seq < 2 ^ 31) {env : Env}
    (hmalloc : ∀ b ∈ env.malloc, b = true) (hlen : (s.db.view user).length ≤ maxEntries)
    {list : List DiaryEntry}
    (hlist : androidGetEntries (newEntry unsealFromBase64)
      (serve s.db ⟨user, env, lit "GET"⟩).2.lines
      = some list) (id : Int32) :
    id ∈ entryIds (sortByTimestamp list) ↔ id ∈ (s.db.view user).map EntryLine.id := by
  rw [(entryIds_sortByTimestamp_perm _).mem_iff, entryIds_of_get hids hlist,
    collect_eq_take hmalloc, List.take_of_length_le hlen]

/-- The view after a DELETE that was answered OK. -/
theorem view_deleted {s : MainActivity} {env : Env} {id : Int32}
    (hids : (serve s.db (deleteRequest user env id)).1.entries.seq < 2 ^ 31)
    (hok : (serve s.db (deleteRequest user env id)).2 = .ok) :
    (serve s.db (deleteRequest user env id)).1.view user
      = (s.db.view user).filter fun l => l.id ≠ id := by
  rw [view_serve hids, hok]
  simp [noteEntry, deleteRequest, parseLine_delete]

/-- The view after a DELETE that failed. -/
theorem view_not_deleted {s : MainActivity} {env : Env} {id : Int32}
    (hids : (serve s.db (deleteRequest user env id)).1.entries.seq < 2 ^ 31)
    (hfail : (serve s.db (deleteRequest user env id)).2 ≠ .ok) :
    (serve s.db (deleteRequest user env id)).1.view user = s.db.view user := by
  rcases serve_delete_reply s.db user env id with h | h
  · exact absurd h hfail
  · rw [view_serve hids, h]
    exact noteEntry_of_not_acknowledges not_false

theorem mirrors_screenEffect {s : MainActivity} {ev : MainEvent} {es : List DiaryEntry}
    {looper : List Posted} {db : Db} (hids : db.entries.seq < 2 ^ 31) (hdist : DistinctIds s)
    (hstill : StillAtPosition s ev) (hcalm : Calm user s ev) (h : Mirrors user s)
    (heff : ScreenEffect user unsealFromBase64 s ev es looper db) (id : Int32) :
    id ∈ looper.foldl Posted.ids (entryIds es) ↔ id ∈ (db.view user).map EntryLine.id := by
  have hids₀ := lt_of_le_of_lt (seq_le_screenEffect heff) hids
  cases heff with
  | idle => exact h id
  | other hev =>
      rw [view_serve_of_ne (hcalm.alone _ hev) hids]
      exact h id
  | message hp =>
      rw [List.foldl_append]
      rcases hp with rfl | rfl <;> exact h id
  | load hev hex hlist =>
      obtain ⟨hmalloc, hlen⟩ := hcalm.complete _ _ _ hev hex
      rw [List.foldl_append]
      exact entryIds_loaded hids₀ hmalloc hlen hlist id
  | @delete env id' pos hok =>
      rw [List.foldl_append, view_deleted hids hok]
      show id ∈ (s.looper.foldl Posted.ids (entryIds s.entries)).filter (· ≠ id') ↔ _
      rw [List.mem_filter, h id]
      simp only [List.mem_map, List.mem_filter, decide_eq_true_eq]
      constructor
      · rintro ⟨⟨l, hl, rfl⟩, hne⟩
        exact ⟨l, ⟨hl, hne⟩, rfl⟩
      · rintro ⟨l, ⟨hl, hne⟩, rfl⟩
        exact ⟨⟨l, hl, rfl⟩, hne⟩
  | deleteFails hev hex hfail =>
      rw [List.foldl_append]
      rcases hfail with hlost | hfail
      · exact absurd hlost (hcalm.answered _ _ _ _ _ _ hev hex)
      · rw [view_not_deleted hids hfail]
        exact h id
  | display hloop =>
      have hid := h id
      rw [hloop] at hid
      exact hid
  | @remove pos id' rest hloop hpos hev halive =>
      -- the completion takes away the id it was expected to
      have hat := hstill pos id' _ halive hev hloop
      have herase := ((eraseIdx_eq_filter_iff hdist.entries).mpr hat).2
      have hids' : entryIds (s.entries.eraseIdx pos) = (entryIds s.entries).filter (· ≠ id') := by
        rw [herase, entryIds, entryIds, List.filter_map]
        rfl
      have hid := h id
      rw [hloop] at hid
      rw [hids']
      exact hid
  | @crash pos id' rest hloop hpos hev halive =>
      have hat := hstill pos id' _ halive hev hloop
      rw [List.getElem?_eq_none (not_lt.mp hpos)] at hat
      cases hat
  | note hloop hp =>
      have hid := h id
      rw [hloop] at hid
      rcases hp with rfl | rfl <;> exact hid

/-! ### Whole runs -/

theorem distinctIds_created (db : Db) : DistinctIds (MainActivity.created db) :=
  ⟨List.nodup_nil, by simp [MainActivity.created, MainActivity.connectAndLoad]⟩

/-- A step that calls a list in is a GET that was answered. -/
theorem load_of_getEntries {s : MainActivity} {ev : MainEvent}
    (h : (mainStep user unsealFromBase64 s ev).2 = some .getEntries) :
    ∃ transport env rest list, ev = .runTask transport env ∧ s.executor = .load :: rest ∧
      androidGetEntries (newEntry unsealFromBase64) (serve s.db ⟨user, env, lit "GET"⟩).2.lines
        = some list ∧
      (mainStep user unsealFromBase64 s ev).1.looper
        = s.looper ++ [.loaded (sortByTimestamp list)] ∧
      (mainStep user unsealFromBase64 s ev).1.db = s.db := by
  unfold mainStep at h ⊢
  split at h
  swap
  · cases ev <;> cases h
  next halive =>
  rw [if_pos halive]
  -- only the executor makes the call
  cases ev with
  | longPress | edit | dismiss | reload | runPosted | other => cases h
  | delete i =>
      simp only [MainActivity.handle] at h
      split at h <;> cases h
  | confirm i =>
      simp only [MainActivity.handle] at h
      split at h
      · split at h <;> cases h
      · cases h
  | runTask transport env =>
      simp only [MainActivity.handle, MainActivity.runTask] at h ⊢
      rcases hex : s.executor with - | ⟨t, rest⟩
      · rw [hex] at h
        cases h
      cases t with
      | connect =>
          rw [hex] at h
          cases h
      | delete id pos pressed =>
          rw [hex] at h
          cases h
      | load =>
          rw [hex] at h
          cases transport with
          | unsent | unanswered => cases h
          | answered =>
              simp only [MainActivity.request, exchange, Option.bind_some] at h ⊢
              -- the list is posted, unless a row does not split
              rcases hlist : androidGetEntries (newEntry unsealFromBase64)
                (serve s.db ⟨user, env, lit "GET"⟩).2.lines with - | list
              · rw [hlist] at h
                cases h
              · exact ⟨.answered, env, rest, list, rfl, rfl, hlist, rfl,
                  serve_get_fst s.db user env⟩

/-- A load that succeeds puts the list and the server together. -/
theorem mirrors_of_load {s : MainActivity} {ev : MainEvent}
    (hids : (mainStep user unsealFromBase64 s ev).1.db.entries.seq < 2 ^ 31)
    (hcalm : Calm user s ev)
    (hload : (mainStep user unsealFromBase64 s ev).2 = some .getEntries) :
    Mirrors user (mainStep user unsealFromBase64 s ev).1 := by
  obtain ⟨transport, env, rest, list, hev, hex, hlist, hlooper, hdb⟩ := load_of_getEntries hload
  obtain ⟨hmalloc, hlen⟩ := hcalm.complete _ _ _ hev hex
  intro id
  rw [hlooper, hdb, List.foldl_append]
  rw [hdb] at hids
  exact entryIds_loaded hids hmalloc hlen hlist id

/-- **The list and the deletions.**  As long as row ids stay below `2^31`,
every completion of a DELETE removes the deleted entry and no other iff each
finds the deleted entry at its position.  In such a run in which nobody else
writes, once a list was loaded and the looper has run, the list has exactly
the ids the server holds. -/
theorem deletions_coherent (user : Bytes) (unsealFromBase64 : Bytes → Option (Option Bytes))
    (db : Db) (run : List MainEvent) :
    let step := mainStep user unsealFromBase64
    let s₀ := MainActivity.created db
    let s := final step s₀ run
    s.db.entries.seq < 2 ^ 31 →
    (Throughout step (RemovesDeleted user unsealFromBase64) s₀ run ↔
        Throughout step StillAtPosition s₀ run) ∧
      (Throughout step StillAtPosition s₀ run → Throughout step (Calm user) s₀ run →
        (∃ p ∈ trace step s₀ run, p.2 = some .getEntries) → s.looper = [] →
        ∀ id, id ∈ entryIds s.entries ↔ id ∈ (s.db.view user).map EntryLine.id) := by
  intro step s₀ s hids
  refine ⟨throughout_congr_until (I := DistinctIds)
    (B := fun s : MainActivity => s.db.entries.seq < 2 ^ 31) seq_lt_of_mainStep
    (fun _ ev _ h => removesDeleted_iff_step h ev) distinctIds_step
    (distinctIds_created db) run hids, ?_⟩
  rintro hstill hcalm ⟨p, hp, hload⟩ hlooper
  obtain ⟨js, ev, ks, rfl, rfl⟩ := (mem_trace_iff step).mp hp
  -- the load, and everything after it
  obtain ⟨hstill₀, -, hstill₁⟩ := throughout_append.mp hstill
  obtain ⟨hcalm₀, hcalm₁, hcalm₂⟩ := throughout_append.mp hcalm
  set s₁ := (step (final step s₀ js) ev).1 with hs₁
  have hsplit : s = final step s₁ ks := by
    rw [show s = final step s₀ (js ++ ev :: ks) from rfl, final_append, final_cons]
  rw [hsplit] at hids hlooper ⊢
  have hB : ∀ (s : MainActivity) (ev : MainEvent), (step s ev).1.db.entries.seq < 2 ^ 31 →
      s.db.entries.seq < 2 ^ 31 := seq_lt_of_mainStep
  have hids₁ : s₁.db.entries.seq < 2 ^ 31 :=
    of_final (B := fun s : MainActivity => s.db.entries.seq < 2 ^ 31) hB ks hids
  have hdist : DistinctIds s₁ := by
    refine distinctIds_step _ ev hids₁ ?_
    exact throughout_invariant_until (I := DistinctIds)
      (B := fun s : MainActivity => s.db.entries.seq < 2 ^ 31) hB
      (fun s ev hids h _ => distinctIds_step s ev hids h) (distinctIds_created db) js hstill₀
      (hB _ ev hids₁)
  have hmirrors : Mirrors user s₁ := mirrors_of_load hids₁ hcalm₁ hload
  obtain ⟨-, hend⟩ := throughout_invariant_until
    (I := fun s : MainActivity => DistinctIds s ∧ Mirrors user s)
    (B := fun s : MainActivity => s.db.entries.seq < 2 ^ 31) hB
    (fun s ev hids h hq => ⟨distinctIds_step s ev hids h.1, fun id =>
      mirrors_screenEffect hids h.1 hq.1 hq.2 h.2 (screenEffect_mainStep _ _ s ev) id⟩)
    ⟨hdist, hmirrors⟩ ks (throughout_and.mpr ⟨hstill₁, hcalm₂⟩) hids
  intro id
  have hid := hend id
  rwa [hlooper] at hid

/-! ### Runs -/

/-- The activity connects and loads the list. -/
def loading (env : Env) : List MainEvent :=
  [.runTask .answered env, .runPosted, .runTask .answered env, .runPosted]

/-- The activity with a list on the screen and nothing on its way. -/
def MainActivity.showing (entries : List DiaryEntry) (db : Db) : MainActivity :=
  { entries := entries, conn := true, dialogs := [], executor := [], looper := [], alive := true,
    db := db }

theorem final_loading {env : Env} {db : Db} {list : List DiaryEntry}
    (hlist : androidGetEntries (newEntry unsealFromBase64)
      (serve db ⟨user, env, lit "GET"⟩).2.lines
      = some list) :
    final (mainStep user unsealFromBase64) (MainActivity.created db) (loading env)
      = MainActivity.showing (sortByTimestamp list) db := by
  simp [loading, mainStep, MainActivity.handle, MainActivity.created, MainActivity.connectAndLoad,
    MainActivity.runTask, MainActivity.request, exchange, MainActivity.post, MainActivity.runPosted,
    MainActivity.loadEntries, hlist, serve_get_fst, MainActivity.showing]

/-- The states the loading goes through. -/
theorem throughout_loading {env : Env} {db : Db} {list : List DiaryEntry}
    (hlist : androidGetEntries (newEntry unsealFromBase64)
      (serve db ⟨user, env, lit "GET"⟩).2.lines
      = some list) {Q : MainActivity → MainEvent → Prop}
    (h₁ : Q (MainActivity.created db) (.runTask .answered env))
    (h₂ : Q { MainActivity.showing [] db with looper := [.connected] } .runPosted)
    (h₃ : Q { MainActivity.showing [] db with executor := [.load] } (.runTask .answered env))
    (h₄ : Q { MainActivity.showing [] db with looper := [.loaded (sortByTimestamp list)] }
      .runPosted) :
    Throughout (mainStep user unsealFromBase64) Q (MainActivity.created db) (loading env) := by
  refine ⟨h₁, h₂, h₃, ?_, trivial⟩
  have hstate : (mainStep user unsealFromBase64
      { MainActivity.showing [] db with executor := [.load] } (.runTask .answered env)).1
        = { MainActivity.showing [] db with looper := [.loaded (sortByTimestamp list)] } := by
    simp [mainStep, MainActivity.handle, MainActivity.runTask, MainActivity.request, exchange,
      MainActivity.post, hlist, serve_get_fst, MainActivity.showing]
  exact hstate ▸ h₄

/-- The user presses a row and confirms its deletion. -/
def pressAndDelete (pos : ℕ) : List MainEvent := [.longPress pos, .delete 0, .confirm 0]

/-- Three entries of one user, the oldest with the highest id. -/
def threeEntries : Db :=
  final serve Db.fresh
    [⟨lit "alice", ⟨1, true, true, []⟩, lit "POST 9 aGk="⟩,
      ⟨lit "alice", ⟨1, true, true, []⟩, lit "POST 8 aGk="⟩,
      ⟨lit "alice", ⟨1, true, true, []⟩, lit "POST 7 aGk="⟩]

/-- The list the activity shows of them. -/
def threeShown : List DiaryEntry :=
  [⟨1, 9, couldNotDecrypt⟩, ⟨2, 8, couldNotDecrypt⟩, ⟨3, 7, couldNotDecrypt⟩]

theorem androidGetEntries_three :
    androidGetEntries (newEntry fun _ => some none)
        (serve threeEntries ⟨lit "alice", ⟨1, true, true, []⟩, lit "GET"⟩).2.lines
      = some threeShown := by
  decide

theorem final_loading_three :
    final (mainStep (lit "alice") fun _ => some none) (MainActivity.created threeEntries)
        (loading ⟨1, true, true, []⟩)
      = MainActivity.showing threeShown threeEntries := by
  rw [final_loading androidGetEntries_three,
    show sortByTimestamp threeShown = threeShown from List.mergeSort_of_pairwise (by decide)]

/-- The second of two deletions that wait at once takes away an entry that
was not deleted, and leaves the deleted one. -/
theorem second_removal_is_wrong :
    let step := mainStep (lit "alice") fun _ => some none
    let env : Env := ⟨1, true, true, []⟩
    let run := loading env ++ (pressAndDelete 0 ++ pressAndDelete 1 ++
      [.runTask .answered env, .runPosted, .runTask .answered env, .runPosted])
    let s := final step (MainActivity.created threeEntries) run
    s.executor = [] ∧ s.looper = [] ∧ entryIds s.entries = [2] ∧
      (s.db.view (lit "alice")).map EntryLine.id = [3] ∧
      ¬ Throughout step (RemovesDeleted (lit "alice") fun _ => some none)
        (MainActivity.created threeEntries) run := by
  intro step env run s
  have hs : s = final step (MainActivity.showing threeShown threeEntries)
      (pressAndDelete 0 ++ pressAndDelete 1 ++
        [.runTask .answered env, .runPosted, .runTask .answered env, .runPosted]) := by
    rw [show s = final step (MainActivity.created threeEntries) run from rfl, final_append,
      final_loading_three]
  rw [hs]
  refine ⟨by decide, by decide, by decide, by decide, ?_⟩
  intro hrun
  have hrest := (throughout_append.mp hrun).2
  rw [final_loading_three] at hrest
  have hlast := throughout_iff_forall.mp hrest (pressAndDelete 0 ++ pressAndDelete 1 ++
    [.runTask .answered env, .runPosted, .runTask .answered env]) .runPosted [] rfl 1 2 []
    (by decide) rfl (by decide)
  exact absurd hlast.2 (by decide)

/-- While the menu of the second row is open an earlier deletion completes;
the third entry is deleted. -/
theorem menu_outlives_row :
    let step := mainStep (lit "alice") fun _ => some none
    let env : Env := ⟨1, true, true, []⟩
    let run := loading env ++ (pressAndDelete 0 ++
      [.longPress 1, .runTask .answered env, .runPosted, .delete 0, .confirm 0,
        .runTask .answered env])
    let s := final step (MainActivity.created threeEntries) run
    (s.db.view (lit "alice")).map EntryLine.id = [2] ∧
      ¬ DeletesPressed (trace step (MainActivity.created threeEntries) run) := by
  intro step env run s
  have hs : s = final step (MainActivity.showing threeShown threeEntries) (pressAndDelete 0 ++
      [.longPress 1, .runTask .answered env, .runPosted, .delete 0, .confirm 0,
        .runTask .answered env]) := by
    rw [show s = final step (MainActivity.created threeEntries) run from rfl, final_append,
      final_loading_three]
  refine ⟨by rw [hs]; decide, ?_⟩
  intro hdel
  have hcall : (step (final step (MainActivity.showing threeShown threeEntries)
      (pressAndDelete 0 ++ [.longPress 1, .runTask .answered env, .runPosted, .delete 0,
        .confirm 0])) (.runTask .answered env)).2 = some (.deleteEntry 3 2) := by decide
  have hmem : (MainEvent.runTask .answered env, some (MainCall.deleteEntry 3 2))
      ∈ trace step (MainActivity.created threeEntries) run := by
    refine (mem_trace_iff step).mpr ⟨loading env ++ (pressAndDelete 0 ++
      [.longPress 1, .runTask .answered env, .runPosted, .delete 0, .confirm 0]),
      .runTask .answered env, [], rfl, ?_⟩
    rw [final_append, final_loading_three, hcall]
  exact absurd (hdel _ hmem 3 2 rfl) (by decide)

theorem confirmsPressed_of_ne {s : MainActivity} {ev : MainEvent} (h : ∀ i, ev ≠ .confirm i) :
    ConfirmsPressed s ev := by
  rintro d e ⟨-, ⟨i, hi, -⟩, -, -⟩
  exact absurd hi (h i)

theorem deletes_pressed_first :
    let step := mainStep (lit "alice") fun _ => some none
    let env : Env := ⟨1, true, true, []⟩
    let run := loading env ++ (pressAndDelete 0 ++ [.runTask .answered env])
    DeletesPressed (trace step (MainActivity.created threeEntries) run) := by
  intro step env run
  refine (deletes_pressed (lit "alice") (fun _ => some none) threeEntries run).1 ?_
  refine throughout_append.mpr ⟨throughout_loading androidGetEntries_three
    (confirmsPressed_of_ne (by simp)) (confirmsPressed_of_ne (by simp))
    (confirmsPressed_of_ne (by simp)) (confirmsPressed_of_ne (by simp)), ?_⟩
  rw [final_loading_three]
  refine ⟨confirmsPressed_of_ne (by simp), confirmsPressed_of_ne (by simp), ?_,
    confirmsPressed_of_ne (by simp), trivial⟩
  rintro d e ⟨-, ⟨i, hi, hd⟩, -, he⟩
  obtain rfl := MainEvent.confirm.inj hi
  obtain rfl : ⟨0, ⟨1, 9, couldNotDecrypt⟩, true⟩ = d := Option.some.inj hd
  exact congrArg DiaryEntry.id (Option.some.inj he).symm

theorem stillAtPosition_of_ne {s : MainActivity} {ev : MainEvent} (h : ev ≠ .runPosted) :
    StillAtPosition s ev := fun _ _ _ _ hev => absurd hev h

theorem calm_user {s : MainActivity} {ev : MainEvent} (hother : ∀ r, ev ≠ .other r)
    (htask : ∀ transport env, ev ≠ .runTask transport env) : Calm user s ev :=
  ⟨fun r h => absurd h (hother r), fun transport env _ h => absurd h (htask transport env),
    fun transport env _ _ _ _ h => absurd h (htask transport env)⟩

theorem calm_answered {s : MainActivity} {env : Env} (hmalloc : ∀ b ∈ env.malloc, b = true)
    (hlen : (s.db.view user).length ≤ maxEntries) : Calm user s (.runTask .answered env) := by
  refine ⟨fun r h => ?_, fun transport env' rest h _ => ?_, fun transport env' _ _ _ _ h _ => ?_⟩
  · cases h
  · obtain ⟨rfl, rfl⟩ := MainEvent.runTask.inj h
    exact ⟨hmalloc, hlen⟩
  · obtain ⟨rfl, rfl⟩ := MainEvent.runTask.inj h
    simp

theorem stillAtPosition_of_looper {s : MainActivity} {ev : MainEvent} {p : Posted}
    {rest : List Posted} (h : s.looper = p :: rest) (hp : ∀ pos id, p ≠ .deleted pos id) :
    StillAtPosition s ev := by
  intro pos id rest' _ _ hloop
  rw [h] at hloop
  exact absurd (List.cons.inj hloop).1 (hp pos id)

theorem deletions_coherent_first :
    let step := mainStep (lit "alice") fun _ => some none
    let env : Env := ⟨1, true, true, []⟩
    let run := loading env ++ (pressAndDelete 0 ++ [.runTask .answered env, .runPosted])
    let s := final step (MainActivity.created threeEntries) run
    ∀ id, id ∈ entryIds s.entries ↔ id ∈ (s.db.view (lit "alice")).map EntryLine.id := by
  intro step env run s
  have hlist : androidGetEntries (newEntry fun _ => some none)
      (serve threeEntries ⟨lit "alice", env, lit "GET"⟩).2.lines = some threeShown :=
    androidGetEntries_three
  have hs : s = final step (MainActivity.showing threeShown threeEntries)
      (pressAndDelete 0 ++ [.runTask .answered env, .runPosted]) := by
    rw [show s = final step (MainActivity.created threeEntries) run from rfl, final_append,
      final_loading_three]
  have hids : s.db.entries.seq < 2 ^ 31 := by
    rw [hs]
    decide
  have hrows : (threeEntries.view (lit "alice")).length ≤ maxEntries := by decide
  refine (deletions_coherent (lit "alice") (fun _ => some none) threeEntries run hids).2 ?_ ?_ ?_ ?_
  · -- no deletion is shown before the last event
    refine throughout_append.mpr ⟨throughout_loading hlist (stillAtPosition_of_ne (by simp))
      (stillAtPosition_of_looper rfl (by simp)) (stillAtPosition_of_ne (by simp))
      (stillAtPosition_of_looper rfl (by simp)), ?_⟩
    rw [final_loading_three]
    refine ⟨stillAtPosition_of_ne (by simp), stillAtPosition_of_ne (by simp),
      stillAtPosition_of_ne (by simp), stillAtPosition_of_ne (by simp), ?_, trivial⟩
    -- the last event shows the deletion of the row at position 0, which is still there
    intro pos id rest _ _ hloop
    have hposted : Posted.deleted 0 1 = .deleted pos id := (List.cons.inj hloop).1
    obtain ⟨rfl, rfl⟩ := Posted.deleted.inj hposted
    decide
  · refine throughout_append.mpr ⟨throughout_loading hlist (calm_answered (by simp [env]) hrows)
      (calm_user (by simp) (by simp)) (calm_answered (by simp [env]) hrows)
      (calm_user (by simp) (by simp)), ?_⟩
    rw [final_loading_three]
    exact ⟨calm_user (by simp) (by simp), calm_user (by simp) (by simp),
      calm_user (by simp) (by simp), calm_answered (by simp [env]) (by decide),
      calm_user (by simp) (by simp), trivial⟩
  · -- the load is in the run
    refine ⟨(.runTask .answered env, some .getEntries), ?_, rfl⟩
    refine (mem_trace_iff step).mpr ⟨[.runTask .answered env, .runPosted], .runTask .answered env,
      .runPosted :: (pressAndDelete 0 ++ [.runTask .answered env, .runPosted]), rfl, ?_⟩
    have hcall : (step (final step (MainActivity.created threeEntries)
        [.runTask .answered env, .runPosted]) (.runTask .answered env)).2
          = some .getEntries := by
      simp [step, mainStep, MainActivity.handle, MainActivity.created,
        MainActivity.connectAndLoad, MainActivity.runTask, MainActivity.request, exchange,
        MainActivity.post, MainActivity.runPosted, MainActivity.loadEntries, hlist, serve_get_fst]
    rw [hcall]
  · -- nothing is left to show
    show s.looper = []
    rw [hs]
    decide

end Diary
