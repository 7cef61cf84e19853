/-
Diary/Tui.lean

client/ui.c as a whole: `ui_run`, the list screen with the screens it opens,
one connection, and the server the other sessions write to as well.

`screen_list` waits in `screen_view` or `screen_editor` until they return, so
the state says which screen reads the next key (`TuiScreen`); an iteration that
opens the editor is finished, with its reload, by the key that leaves it.
Requests of other sessions come at any time.

An entry read outside the array is undefined behaviour: the run is not
followed any further (`TuiScreen.outside`).

Two facts say what a step does, and all else is derived from them: what a
key of the list leaves of it (`listStep_cases`), and which requests an event
sends (`sends_of_step`).

* `screen_shows_database`: without a second writer of the user's rows the
  list on the screen is at every moment the one the server would send.
* `rows_change_by_hand`: with any number of other writers, a row of the
  database goes, changes or appears only by what somebody did on purpose.
-/
import Diary.RowOrders
import Diary.Selection
import Diary.ViewScreen

namespace Diary

open CString Machine

variable {ν : Type*}

/-! ### The program -/

/-- The screen that reads the next key. -/
inductive TuiScreen
  | list
  | view (v : Viewer)
  /-- the editor, in the iteration of `screen_list` that opened it -/
  | edit (i : ListInput) (e : Editor)
  /-- `entries[selected]` was read outside the array -/
  | outside

/-- The editor is open. -/
def TuiScreen.editing : TuiScreen → Bool
  | .edit _ _ => true
  | .list | .view _ | .outside => false

structure Tui where
  list : ListScreen
  screen : TuiScreen
  world : World

def Tui.db (s : Tui) : Db := s.world.db

/-- An iteration of `screen_list`: what it reads, but for the answers of the
server, and what the calls it makes read. -/
structure ListKey (ν : Type*) where
  inp : ListInput
  /-- the terminal, when the viewer opens -/
  size : TermSize
  del : CallEnv ν
  get : CallEnv ν

/-- What happens next: a key on one of the screens, or a request of another
session.  A key for a screen that does not wait for one is not read. -/
inductive TuiEvent (ν : Type*)
  | list (k : ListKey ν)
  | view (i : ViewInput)
  /-- with the reload, if the key leaves the editor -/
  | edit (ev : SessionEvent ν) (get : CallEnv ν)
  | other (r : Request)

/-- "Confirm delete" is answered with Y. -/
def ListInput.Confirmed (i : ListInput) : Prop := i.conf = 121 ∨ i.conf = 89

instance (i : ListInput) : Decidable i.Confirmed :=
  inferInstanceAs (Decidable (i.conf = 121 ∨ i.conf = 89))

/-- The key R. -/
def ListInput.Refreshes (i : ListInput) : Prop := i.ch = 114 ∨ i.ch = 82

instance (i : ListInput) : Decidable i.Refreshes :=
  inferInstanceAs (Decidable (i.ch = 114 ∨ i.ch = 82))

/-- The rest of an iteration of `screen_list`, from its `reload_entries` on. -/
def Tui.reload (P : Proto ν) (user : Bytes) (get : CallEnv ν) (i : ListInput) (s : Tui) : Tui :=
  let g := netGetEntries P user get s.world
  { list := (listStep s.list { i with fetched := g.2 }).1, screen := .list, world := g.1 }

/-- A key on the list. -/
def Tui.listKey (P : Proto ν) (user : Bytes) (k : ListKey ν) (s : Tui) : Tui :=
  match (listStep s.list k.inp).2 with
  | .view none | .edit none | .delete none => { s with screen := .outside }
  | .view (some e) =>
      { s with list := (listStep s.list k.inp).1, screen := .view (Viewer.opened e.text k.size) }
  | .new => { s with screen := .edit k.inp (Editor.opened 0 none) }
  | .edit (some e) => { s with screen := .edit k.inp (Editor.opened e.id (some e.text)) }
  | .delete (some e) =>
      if k.inp.Confirmed then
        let d := netDeleteEntry P user k.del e.id s.world
        Tui.reload P user k.get { k.inp with deleted := d.2 = 0 } { s with world := d.1 }
      else { s with list := (listStep s.list k.inp).1 }
  | .none | .quit =>
      if s.list.running = true ∧ k.inp.Refreshes then s.reload P user k.get k.inp
      else { s with list := (listStep s.list k.inp).1 }

/-- A key in the editor; new entries are dated `t` (`g_entry_at`). -/
def Tui.editKey (P : Proto ν) (user : Bytes) (t : Int64) (i : ListInput) (e : Editor)
    (ev : SessionEvent ν) (get : CallEnv ν) (s : Tui) : Tui :=
  let r := (sessionStep P user t ⟨e, true, s.world⟩ ev).1
  if r.running then { s with screen := .edit i r.editor, world := r.world }
  else Tui.reload P user get i { s with world := r.world }

/-- One event. -/
def tuiStep (P : Proto ν) (user : Bytes) (t : Int64) (s : Tui) (ev : TuiEvent ν) : Tui × Unit :=
  (match ev with
  | .list k =>
      match s.screen with
      | .list => s.listKey P user k
      | .view _ | .edit _ _ | .outside => s
  | .view i =>
      match s.screen with
      | .view v =>
          let v := (viewStep v i).1
          { s with screen := if v.running then .view v else .list }
      | .list | .edit _ _ | .outside => s
  | .edit ev get =>
      match s.screen with
      | .edit i e => s.editKey P user t i e ev get
      | .list | .view _ | .outside => s
  | .other r => { s with world := { s.world with db := (serve s.world.db r).1 } }, ())

/-- `ui_run`, up to the first key. -/
def Tui.opened (P : Proto ν) (user : Bytes) (get : CallEnv ν) (db : Db) : Tui :=
  let g := netGetEntries P user get ⟨db, []⟩
  { list := ListScreen.opened g.2, screen := .list, world := g.1 }

/-! ### The keys of the list -/

/-- The key D, confirmed. -/
theorem step_delete {s : ListScreen} {i : ListInput} (hrun : s.running = true)
    (hkey : i.ch = 100 ∨ i.ch = 68) (hc : 0 < s.count) (hconf : i.Confirmed) :
    listStep s i
      = ((reloadEntries i.fetched { s.frame i.rows with
            status := if i.deleted then .deleted else .deleteError }).clamp,
          .delete s.current) := by
  have hc' : 0 < { s.frame i.rows with status := ListStatus.none }.count := hc
  rw [ListInput.Confirmed] at hconf
  rw [listStep, if_pos hrun]
  rcases hkey with hkey | hkey <;>
    simp only [ListScreen.iterate, ListScreen.command, hkey, hc', keyUp, keyDown, keyMouse,
      keyEnter, hconf] <;> rfl

/-- The key R. -/
theorem step_refresh {s : ListScreen} {i : ListInput} (hrun : s.running = true)
    (hkey : i.Refreshes) :
    listStep s i
      = let s' := (reloadEntries i.fetched { s.frame i.rows with status := .none }).clamp
        (if s'.status = .none then { s' with status := .reloaded } else s', .none) := by
  rw [listStep, if_pos hrun]
  rcases hkey with hkey | hkey <;>
    simp only [ListScreen.iterate, ListScreen.command, hkey, keyUp, keyDown, keyMouse,
      keyEnter] <;> rfl

/-- What an iteration that loads nothing does. -/
def ListAct.Idle (s : ListScreen) (i : ListInput) (act : ListAct) : Prop :=
  act = .none ∧ ¬ (s.running = true ∧ i.Refreshes) ∨
    act = .quit ∧ ¬ (s.running = true ∧ i.Refreshes) ∨ act = .view s.current ∨
    act = .delete s.current ∧ ¬ i.Confirmed

/-- Everything a key of the list can do: the keys that load the list again
are R, N, E on an entry and D on an entry, confirmed. -/
inductive ListCase (s : ListScreen) (i : ListInput) : Prop
  | idle (hentries : (listStep s i).1.entries = s.entries)
      (hact : (listStep s i).2.Idle s i)
  | refresh (hrun : s.running = true) (hkey : i.Refreshes)
  | new (hrun : s.running = true) (hkey : i.ch = 110 ∨ i.ch = 78)
  | edit (hrun : s.running = true) (hkey : i.ch = 101 ∨ i.ch = 69) (hc : 0 < s.count)
  | delete (hrun : s.running = true) (hkey : i.ch = 100 ∨ i.ch = 68) (hc : 0 < s.count)
      (hconf : i.Confirmed)

theorem listStep_cases (s : ListScreen) (i : ListInput) : ListCase s i := by
  by_cases hrun : s.running = true
  swap
  · have hstep : listStep s i = (s, .none) := if_neg hrun
    exact .idle (by rw [hstep]) (by rw [hstep]; exact Or.inl ⟨rfl, fun h => hrun h.1⟩)
  by_cases hr : i.Refreshes
  · exact .refresh hrun hr
  by_cases hn : i.ch = 110 ∨ i.ch = 78
  · exact .new hrun hn
  by_cases he : (i.ch = 101 ∨ i.ch = 69) ∧ 0 < s.count
  · exact .edit hrun he.1 he.2
  by_cases hd : (i.ch = 100 ∨ i.ch = 68) ∧ 0 < s.count ∧ i.Confirmed
  · exact .delete hrun hd.1 hd.2.1 hd.2.2
  have hnone : ¬ (s.running = true ∧ i.Refreshes) := fun h => hr h.2
  have hcommand : ∀ s' : ListScreen, s'.entries = s.entries → s'.selected = s.selected →
      (s'.command i).1.entries = s.entries ∧ (s'.command i).2.Idle s i := by
    intro s' hentries hselected
    have hcount : s'.count = s.count := by rw [ListScreen.count, hentries, ListScreen.count]
    have hcurrent : s'.current = s.current := by
      rw [ListScreen.current, hentries, hselected, ListScreen.current]
    rw [ListScreen.command, hcount, hcurrent, if_neg hn]
    split
    · -- Enter
      split
      · exact ⟨hentries, Or.inr (Or.inr (Or.inl rfl))⟩
      · exact ⟨hentries, Or.inl ⟨rfl, hnone⟩⟩
    split
    · next hkey =>
        rw [if_neg fun hc => he ⟨hkey, hc⟩]
        exact ⟨hentries, Or.inl ⟨rfl, hnone⟩⟩
    split
    · next hkey =>
        split
        · next hc =>
            rw [if_neg fun hconf : i.conf = 121 ∨ i.conf = 89 => hd ⟨hkey, hc, hconf⟩]
            exact ⟨hentries, Or.inr (Or.inr (Or.inr ⟨rfl, fun hconf => hd ⟨hkey, hc, hconf⟩⟩))⟩
        · exact ⟨hentries, Or.inl ⟨rfl, hnone⟩⟩
    rw [if_neg (show ¬ (i.ch = 114 ∨ i.ch = 82) from hr)]
    exact ⟨hentries, Or.inl ⟨rfl, hnone⟩⟩
  suffices h : (s.iterate i).1.entries = s.entries ∧ (s.iterate i).2.Idle s i by
    rw [← show listStep s i = s.iterate i from if_pos hrun] at h
    exact .idle h.1 h.2
  rw [ListScreen.iterate]
  simp only
  split
  · exact ⟨rfl, Or.inr (Or.inl ⟨rfl, hnone⟩)⟩
  split
  · exact ⟨rfl, Or.inl ⟨rfl, hnone⟩⟩
  split
  · exact ⟨rfl, Or.inl ⟨rfl, hnone⟩⟩
  split
  · -- the wheel
    split
    · exact ⟨rfl, Or.inl ⟨rfl, hnone⟩⟩
    · split
      · exact ⟨rfl, Or.inl ⟨rfl, hnone⟩⟩
      · exact ⟨rfl, Or.inl ⟨rfl, hnone⟩⟩
  · apply hcommand
    · rfl
    · rfl

/-! ### What an event asks of the server -/

variable (P : Proto ν) (user : Bytes) (t : Int64)

/-- What is asked of the server in an event, and about whose entries. -/
inductive Orders (s : Tui) : TuiEvent ν → Bytes → Command → Prop
  | other (r : Request) : Orders s (.other r) r.user (parseLine r.env.now r.line)
  /-- D on the selected entry, confirmed; the entry is on the screen if that
  has a row for it -/
  | delete {k e} (hscreen : s.screen = .list) (hkey : k.inp.ch = 100 ∨ k.inp.ch = 68)
      (hconf : k.inp.Confirmed) (hcur : s.list.current = some e)
      (hdrawn : 1 ≤ k.inp.rows - 3 → s.list.selected ∈ s.list.drawn k.inp.rows) :
      Orders s (.list k) user (.delete e.id)
  /-- a save of the entry the editor is on -/
  | update {i e e' ev get b64} (hscreen : s.screen = .edit i e)
      (hsave : e.iterate ev.inp = .save e') (hid : 0 < e.entryId.toInt)
      (hopens : P.unsealNew b64 = some (cstr e.buf)) :
      Orders s (.edit ev get) user (.update e.entryId b64)
  /-- the first save of a new one -/
  | post {i e e' ev get b64} (hscreen : s.screen = .edit i e)
      (hsave : e.iterate ev.inp = .save e') (hid : ¬ 0 < e.entryId.toInt)
      (hopens : P.unsealNew b64 = some (cstr e.buf)) :
      Orders s (.edit ev get) user
        (.post (if 0 < t.toInt then t else ev.env.server.now) b64)

variable {P user t}

theorem db_send (env : Env) (line : Bytes) (w : World) :
    (w.send env user line).db = (perform env user w.db (parseLine env.now line)).1 := by
  rw [send_eq]

/-- A GET changes no row, whatever becomes of its answer. -/
@[simp] theorem db_netGetEntries (env : CallEnv ν) (w : World) :
    (netGetEntries P user env w).1.db = w.db := by
  have hdb : (w.send env.server user (lit "GET")).db = w.db := by
    rw [db_send, parseLine_get rfl, perform]
  rw [netGetEntries]
  simp only
  split
  · exact hdb
  · split
    · split
      · exact hdb
      · split <;> exact hdb
    · exact hdb

@[simp] theorem db_reload (get : CallEnv ν) (i : ListInput) (s : Tui) :
    (s.reload P user get i).world.db = s.world.db :=
  db_netGetEntries get s.world

/-- Nor does a DELETE, a POST or an UPDATE change other rows when the
connection is out of step: what the server does is what it does in step. -/
theorem db_netDeleteEntry (hP : P.Lawful) (env : CallEnv ν) (id : Int32) (w : World) :
    (netDeleteEntry P user env id w).1.db = (perform env.server user w.db (.delete id)).1 := by
  have hsend : ∀ w : World, (netDeleteEntry P user env id w).1.db
      = (w.send env.server user (snprintf 32 (lit "DELETE " ++ dec id.toInt))).db := by
    intro w
    rw [netDeleteEntry]
    split <;> rfl
  have heq : netDeleteEntry P user env id ⟨w.db, []⟩ = _ := netDeleteEntry_eq hP id rfl
  have hstep := congrArg (fun r => r.1.db) heq
  rw [hsend, db_send] at hstep ⊢
  exact hstep

/-- What a save asks for. -/
def Editor.saveCommand (e : Editor) (t now : Int64) (b64 : Bytes) : Command :=
  if 0 < e.entryId.toInt then .update e.entryId b64 else .post (if 0 < t.toInt then t else now) b64

theorem db_netSave (hP : P.Lawful) (env : CallEnv ν) (e : Editor) (w : World) :
    (e.netSave P user t env w).1.db = w.db ∨
      ∃ b64, P.unsealNew b64 = some (cstr e.buf) ∧
        (e.netSave P user t env w).1.db
          = (perform env.server user w.db (e.saveCommand t env.server.now b64)).1 := by
  rcases hseal : P.sealNew env.nonce (cstr e.buf) with - | b64
  · -- nothing was sealed, and nothing is sent
    refine Or.inl ?_
    rw [Editor.netSave]
    split
    · simp [netUpdateEntry, hseal]
    · simp [netPostEntry, hseal]
  refine Or.inr ⟨b64, hP.unseal_sealed hseal, ?_⟩
  rw [Editor.netSave, Editor.saveCommand]
  split
  · -- what is unread does not matter to the line that is sent
    have hsend : ∀ w : World, (netUpdateEntry P user env e.entryId (cstr e.buf) w).1.db
        = (w.send env.server user
            (snprintf 32 (lit "UPDATE " ++ (dec e.entryId.toInt ++ [32])) ++ b64)).db := by
      intro w
      simp only [netUpdateEntry, hseal]
      split <;> rfl
    have hstep := congrArg (fun r => r.1.db)
      (netUpdateEntry_eq hP user e.entryId (w := ⟨w.db, []⟩) rfl hseal)
    rw [hsend, db_send] at hstep ⊢
    exact hstep
  · have hsend : ∀ w : World, (netPostEntry P user env (cstr e.buf) t w).1.db
        = (w.send env.server user (postPrefix t ++ b64)).db := by
      intro w
      simp only [netPostEntry, hseal]
      split <;> rfl
    have hstep := congrArg (fun r => r.1.db)
      (netPostEntry_eq hP user t (w := ⟨w.db, []⟩) rfl hseal)
    rw [hsend, db_send] at hstep ⊢
    exact hstep

/-- The selected entry is drawn, on a screen with a row for it. -/
theorem selected_drawn {s : ListScreen} {e : DiaryEntry} (hcur : s.current = some e) {rows : ℤ}
    (hrows : 1 ≤ rows - 3) : s.selected ∈ s.drawn rows := by
  rw [ListScreen.current] at hcur
  split at hcur
  · cases hcur
  · next hge =>
      have hshows := adjustScroll_shows (not_lt.mp hge) hrows s.scroll
      obtain ⟨hlt, -⟩ := List.getElem?_eq_some_iff.mp hcur
      refine mem_drawn_iff.mpr ⟨hshows.1, hshows.2, ?_⟩
      rw [ListScreen.count]
      omega

theorem delete_of_act {s : ListScreen} {i : ListInput} {e : DiaryEntry}
    (hact : (listStep s i).2 = .delete (some e)) (hconf : i.Confirmed) :
    s.running = true ∧ (i.ch = 100 ∨ i.ch = 68) ∧ 0 < s.count ∧ s.current = some e := by
  -- of the keys, only D with Y has this act
  cases listStep_cases s i with
  | idle hentries hidle =>
      rw [hact] at hidle
      rcases hidle with ⟨h, -⟩ | ⟨h, -⟩ | h | ⟨-, h⟩
      · cases h
      · cases h
      · cases h
      · exact absurd hconf h
  | refresh hrun hkey =>
      rw [step_refresh hrun hkey] at hact
      cases hact
  | new hrun hkey =>
      rw [step_new hrun hkey] at hact
      cases hact
  | edit hrun hkey hc =>
      rw [step_edit hrun hkey hc] at hact
      cases hact
  | delete hrun hkey hc hconf =>
      rw [step_delete hrun hkey hc hconf] at hact
      injection hact with hcur
      exact ⟨hrun, hkey, hc, hcur⟩

theorem ordered_listKey (hP : P.Lawful) {s : Tui} (hscreen : s.screen = .list) (k : ListKey ν) :
    Ordered Tui.db (Orders P user t) s (.list k) (s.listKey P user k).world.db := by
  rw [Tui.listKey]
  split
  · exact Or.inl rfl
  · exact Or.inl rfl
  · exact Or.inl rfl
  · exact Or.inl rfl
  · exact Or.inl rfl
  · exact Or.inl rfl
  · -- D: the DELETE is the only request beside the reload
    next e hact =>
      split
      · next hconf =>
          obtain ⟨hrun, hkey, hc, hcur⟩ := delete_of_act hact hconf
          rw [db_reload, db_netDeleteEntry hP]
          exact Or.inr ⟨_, _, _, .delete hscreen hkey hconf hcur (selected_drawn hcur), rfl⟩
      · exact Or.inl rfl
  -- the other keys may load the list again, which changes nothing
  all_goals
    split
    · rw [db_reload]
      exact Or.inl rfl
    · exact Or.inl rfl

/-- A save is of the text and the entry the iteration began with. -/
theorem save_of_iterate {e e' : Editor} {inp : EditorInput} (h : e.iterate inp = .save e') :
    e'.buf = e.buf ∧ e'.entryId = e.entryId := by
  have hkey := iterate_effect e inp
  rw [h] at hkey
  cases hkey with
  | save => exact ⟨rfl, rfl⟩

theorem ordered_editKey (hP : P.Lawful) {s : Tui} {i : ListInput} {e : Editor}
    (hscreen : s.screen = .edit i e) (ev : SessionEvent ν) (get : CallEnv ν) :
    Ordered Tui.db (Orders P user t) s (.edit ev get) (s.editKey P user t i e ev get).world.db := by
  -- what follows the key is at most a reload
  have hdb : (s.editKey P user t i e ev get).world.db
      = (sessionStep P user t ⟨e, true, s.world⟩ ev).1.world.db := by
    rw [Tui.editKey]
    split
    · rfl
    · rw [db_reload]
  rw [hdb, sessionStep, if_pos rfl]
  rcases hiter : e.iterate ev.inp with e' | e' | e'
  · exact Or.inl rfl
  · exact Or.inl rfl
  · obtain ⟨hbuf, hid⟩ := save_of_iterate hiter
    rcases db_netSave hP ev.env e' s.world with hsame | ⟨b64, hopens, hsaved⟩
    · exact Or.inl hsame
    · refine Or.inr ⟨ev.env.server, user, e'.saveCommand t ev.env.server.now b64, ?_, hsaved⟩
      rw [hbuf] at hopens
      rw [Editor.saveCommand, hid]
      split
      · next hpos => exact .update hscreen hiter hpos hopens
      · next hpos => exact .post hscreen hiter hpos hopens

/-- **What an event does to the database**: nothing, or a command that was
ordered. -/
theorem ordered_step (hP : P.Lawful) (s : Tui) (ev : TuiEvent ν) :
    Ordered Tui.db (Orders P user t) s ev (tuiStep P user t s ev).1.world.db := by
  cases ev with
  | other r => exact Or.inr ⟨_, _, _, .other r, congrArg Prod.fst (serve_eq s.world.db r)⟩
  | list k =>
      rw [tuiStep.eq_def]
      rcases hscreen : s.screen with - | v | ⟨i, e⟩ | -
      · exact ordered_listKey hP hscreen k
      all_goals exact Or.inl rfl
  | view i =>
      rw [tuiStep.eq_def]
      rcases hscreen : s.screen with - | v | ⟨i, e⟩ | -
      all_goals exact Or.inl rfl
  | edit ev get =>
      rw [tuiStep.eq_def]
      rcases hscreen : s.screen with - | v | ⟨i, e⟩ | -
      · exact Or.inl rfl
      · exact Or.inl rfl
      · exact ordered_editKey hP hscreen ev get
      · exact Or.inl rfl

/-! ### Rows -/

theorem byOrders_tui (hP : P.Lawful) (user : Bytes) (t : Int64) :
    ByOrders (tuiStep P user t) Tui.db (Orders P user t) :=
  fun s ev => ordered_step hP s ev

theorem seq_le_tuiStep (hP : P.Lawful) (s : Tui) (ev : TuiEvent ν) :
    s.world.db.entries.seq ≤ (tuiStep P user t s ev).1.world.db.entries.seq :=
  (ordered_step hP s ev).seq_le

/-- **Rows go, change and appear by hand only.**  Over every run of the
program, with other sessions writing what they like:

* a row goes only by an order to delete it, given about the entries of its
  owner: at the keys, that is D on the entry that is selected and drawn,
  with Y;
* a row keeps its owner and its timestamp, and has other data only by an
  order to store that data under its id: at the keys, a save of the editor
  that is open on it, sealing its text;
* a row appears only by an order to post it, with the data it appears with:
  at the keys, the first save of a new entry, under the date given to the
  program if there is one. -/
theorem rows_change_by_hand {P : Proto ν} (hP : P.Lawful) (user : Bytes) (t : Int64) (s : Tui)
    (run : List (TuiEvent ν)) (j : ℕ) :
    RowHistory (ChangedIn (tuiStep P user t) Tui.db (Orders P user t) s run j) j
      (s.db.entries.lookup j) ((final (tuiStep P user t) s run).db.entries.lookup j) :=
  rows_by_orders (byOrders_tui hP user t) s run j

theorem rows_change_by_hand_delete :
    let s : Tui := ⟨hiList, .list, ⟨hiDb, []⟩⟩
    let yes : ListKey Unit :=
      ⟨⟨24, 100, false, false, 121, false, none⟩, ⟨24, 80, by decide, by decide⟩, hiEnv, hiEnv⟩
    ∃ (d : Entry) (id : Int32), id.toNatClampNeg = 1 ∧
      ChangedIn (tuiStep taggingProto (lit "alice") 0) Tui.db
        (Orders taggingProto (lit "alice") 0) s [.list yes] 1 (some d) none (lit "alice")
        (.delete id) := by
  intro s yes
  exact (rows_change_by_hand taggingProto_lawful (lit "alice") 0 s [.list yes] 1).gone
    ⟨lit "alice", 7, lit "c2VhbGVkhi"⟩ (by decide) (by decide)

/-! ### The list on the screen -/

/-- Every row of the user splits, so that a GET is read to its end. -/
def Loads (P : Proto ν) (user : Bytes) (db : Db) : Prop :=
  ∀ l ∈ db.view user, (l.split P).isSome = true

/-- The entries are those a GET would return. -/
def Fetched (P : Proto ν) (user : Bytes) (db : Db) (es : List DiaryEntry) : Prop :=
  ∃ arr : List DiaryEntry,
    ((db.view user).take maxEntries).map (EntryLine.split P) = arr.map some ∧
      es = sortNewestFirst arr

theorem fetched_iff (hP : P.Lawful) {get : CallEnv ν} (hget : get.Allocates) {db : Db}
    (hids : db.entries.seq < 2 ^ 31) {es : List DiaryEntry} :
    Fetched P user db es ↔ (netGetEntries P user get ⟨db, []⟩).2 = some es :=
  (netGetEntries_eq_some_iff hP hget hids).symm

theorem Fetched.length_eq {db : Db} {es : List DiaryEntry} (h : Fetched P user db es) :
    es.length = ((db.view user).take maxEntries).length := by
  obtain ⟨arr, harr, rfl⟩ := h
  rw [(sortNewestFirst_perm arr).length_eq, ← List.length_map (EntryLine.split P), harr,
    List.length_map]

/-- A GET on a connection in step, when every row splits. -/
theorem exists_netGetEntries (hP : P.Lawful) {get : CallEnv ν} (hget : get.Allocates) {w : World}
    (hw : w.unread = []) (hids : w.db.entries.seq < 2 ^ 31) (hloads : Loads P user w.db) :
    ∃ es, netGetEntries P user get w = (w, some es) ∧ Fetched P user w.db es := by
  obtain ⟨arr, harr⟩ := exists_map_eq_map_some (l := (w.db.view user).take maxEntries)
    (f := EntryLine.split P) fun l hl => hloads l (List.mem_of_mem_take hl)
  obtain ⟨db, unread⟩ := w
  obtain rfl : unread = [] := hw
  exact ⟨_, netGetEntries_of_split hP hget hids harr, arr, harr, rfl⟩

/-- What each screen owes to the list behind it: the editor, once open on an
entry, leaves as many rows as there were. -/
def TuiScreen.Fits (P : Proto ν) (user : Bytes) (db : Db) (l : ListScreen) : TuiScreen → Prop
  | .list | .view _ => Fetched P user db l.entries
  | .edit i e =>
      l.running = true ∧
        ((i.ch = 110 ∨ i.ch = 78) ∨
          (i.ch = 101 ∨ i.ch = 69) ∧ 0 < l.count ∧ 0 < e.entryId.toInt ∧
            l.entries.length = ((db.view user).take maxEntries).length)
  | .outside => False

/-- What the run keeps. -/
structure TuiInv (P : Proto ν) (user : Bytes) (s : Tui) : Prop where
  unread : s.world.unread = []
  loads : Loads P user s.world.db
  selected : ListInv s.list
  screen : s.screen.Fits P user s.world.db s.list

/-- Only the rows of the user count. -/
theorem TuiInv.congr {l : ListScreen} {screen : TuiScreen} {w w' : World}
    (h : TuiInv P user ⟨l, screen, w⟩) (hunread : w'.unread = w.unread)
    (hview : w'.db.view user = w.db.view user) : TuiInv P user ⟨l, screen, w'⟩ where
  unread := hunread.trans h.unread
  loads m hm := h.loads m (by rw [← hview]; exact hm)
  selected := h.selected
  screen := by
    have hscreen := h.screen
    cases screen with
    | list | view =>
        obtain ⟨arr, harr, hes⟩ := hscreen
        exact ⟨arr, by rw [hview]; exact harr, hes⟩
    | edit i e =>
        show _ ∧ (_ ∨ _ ∧ _ ∧ _ ∧ _ = ((w'.db.view user).take maxEntries).length)
        rw [hview]
        exact hscreen
    | outside => exact hscreen

/-- A key that loads the list. -/
def Reloads (s : ListScreen) (i : ListInput) : Prop :=
  s.running = true ∧
    (i.Refreshes ∨ (i.ch = 110 ∨ i.ch = 78) ∨ (i.ch = 101 ∨ i.ch = 69) ∧ 0 < s.count ∨
      (i.ch = 100 ∨ i.ch = 68) ∧ 0 < s.count ∧ i.Confirmed)

instance (s : ListScreen) (i : ListInput) : Decidable (Reloads s i) :=
  inferInstanceAs (Decidable (_ ∧ (_ ∨ _ ∨ _ ∧ _ ∨ _ ∧ _ ∧ _)))

@[simp] theorem entries_clamp (s : ListScreen) : s.clamp.entries = s.entries := by
  rw [ListScreen.clamp]
  split <;> rfl

@[simp] theorem entries_reloadEntries (fetched : Option (List DiaryEntry)) (s : ListScreen) :
    (reloadEntries fetched s).entries = fetched.getD [] := by
  cases fetched <;> rfl

theorem entries_of_reloads {s : ListScreen} {i : ListInput} (h : Reloads s i) :
    (listStep s i).1.entries = i.fetched.getD [] := by
  obtain ⟨hrun, hr | hn | ⟨he, hc⟩ | ⟨hd, hc, hconf⟩⟩ := h
  · rw [step_refresh hrun hr]
    simp only
    split
    · exact (entries_clamp _).trans (entries_reloadEntries _ _)
    · exact (entries_clamp _).trans (entries_reloadEntries _ _)
  · rw [step_new hrun hn]
    exact entries_reloadEntries _ _
  · rw [step_edit hrun he hc]
    exact entries_reloadEntries _ _
  · rw [step_delete hrun hd hc hconf]
    exact (entries_clamp _).trans (entries_reloadEntries _ _)

/-- `reload_entries`, at the end of an iteration that calls it. -/
theorem tuiInv_reload (hP : P.Lawful) {get : CallEnv ν} (hget : get.Allocates) {s : Tui}
    (hunread : s.world.unread = []) (hloads : Loads P user s.world.db)
    (hids : s.world.db.entries.seq < 2 ^ 31) (hsel : ListInv s.list) {i : ListInput}
    (hkey : Reloads s.list i)
    (hkeep : i.ch = 101 ∨ i.ch = 69 →
      s.list.entries.length = ((s.world.db.view user).take maxEntries).length) :
    TuiInv P user (s.reload P user get i) := by
  obtain ⟨es, hes, hfetched⟩ := exists_netGetEntries hP hget hunread hids hloads
  have hentries := entries_of_reloads (i := { i with fetched := some es }) hkey
  rw [Tui.reload, hes]
  refine ⟨hunread, hloads, (inv_step hsel ?_).1, ?_⟩
  · -- the list after an edit is as long as before
    intro hrun he hc es' hes'
    obtain rfl : es = es' := Option.some.inj hes'
    have hlen := hfetched.length_eq
    rw [← hkeep he] at hlen
    rw [hlen]
    rcases hsel.inList with h0 | hlt
    · omega
    · exact Or.inr hlt.2
  · show Fetched P user s.world.db _
    rw [hentries]
    exact hfetched

/-- A save leaves rows that split, and with an UPDATE as many as there
were. -/
theorem loads_of_saveEffect {e : Editor} {db : Db} (hids : db.entries.seq < 2 ^ 31)
    (h : Loads P user db) {r : World × Int32} (hr : SaveEffect P user e db r) :
    r.1.unread = [] ∧ Loads P user r.1.db ∧
      (0 < e.entryId.toInt → (r.1.db.view user).length = (db.view user).length) := by
  cases hr with
  | failed => exact ⟨rfl, h, fun _ => rfl⟩
  | @updated row b64 hid hrow howner hdata hopens =>
      -- the row has other data, and that splits
      have hview : Db.view user _ = if user = user then _ else _ :=
        view_modify hids e.entryId b64
      rw [if_pos rfl] at hview
      refine ⟨rfl, fun l hl => ?_, fun _ => ?_⟩
      · rw [hview] at hl
        obtain ⟨m, hm, rfl⟩ := List.mem_map.mp hl
        rw [EntryLine.withData]
        split
        · exact isSome_split_of_sealed hdata
        · exact h m hm
      · rw [hview, List.length_map]
  | @posted ts b64 hid hdata hopens =>
      -- one row more, the last
      have hview := view_insert user db ⟨user, ts, b64⟩
      rw [if_pos rfl] at hview
      refine ⟨rfl, fun l hl => ?_, fun hpos => absurd hpos hid⟩
      rw [hview] at hl
      rcases List.mem_append.mp hl with hl | hl
      · exact h l hl
      · rw [List.mem_singleton.mp hl]
        exact isSome_split_of_sealed hdata

theorem loads_of_delete (hP : P.Lawful) (env : CallEnv ν) (id : Int32) {w : World}
    (hw : w.unread = []) (hids : w.db.entries.seq < 2 ^ 31) (h : Loads P user w.db) :
    (netDeleteEntry P user env id w).1.unread = [] ∧
      (netDeleteEntry P user env id w).1.db.entries.seq = w.db.entries.seq ∧
      Loads P user (netDeleteEntry P user env id w).1.db := by
  rw [netDeleteEntry_eq hP id hw]
  rcases storageDeleteEntry_cases env.server.done user id w.db with ⟨e, -, -, -, hdel⟩ | hdel
  · rw [hdel]
    refine ⟨rfl, rfl, fun l hl => ?_⟩
    rw [view_remove hids, if_pos rfl] at hl
    exact h l (List.mem_of_mem_filter hl)
  · rw [hdel]
    exact ⟨rfl, rfl, h⟩

/-- What the run is about: lists are loaded with enough memory, and nobody
else writes the user's rows. -/
def SoleWriter (user : Bytes) : TuiEvent ν → Prop
  | .list k => k.get.Allocates
  | .view _ => True
  | .edit _ get => get.Allocates
  | .other r => r.user ≠ user

theorem tuiInv_listKey (hP : P.Lawful) {list : ListScreen} {world : World}
    (h : TuiInv P user ⟨list, .list, world⟩) {k : ListKey ν} (hget : k.get.Allocates)
    (hids : world.db.entries.seq < 2 ^ 31) :
    TuiInv P user (Tui.listKey P user k ⟨list, .list, world⟩) := by
  obtain ⟨hunread, hloads, hsel, hfetched⟩ := h
  have hlen : list.entries.length = ((world.db.view user).take maxEntries).length :=
    Fetched.length_eq hfetched
  rw [Tui.listKey]
  cases listStep_cases list k.inp with
  | idle hentries hidle =>
      -- such a key is no E on an entry
      have hkeep : EditKeepsRow list k.inp := by
        intro hrun he hc
        rw [step_edit hrun he hc] at hidle
        rcases hidle with ⟨hact, -⟩ | ⟨hact, -⟩ | hact | ⟨hact, -⟩ <;> cases hact
      obtain ⟨hsel', hreads⟩ := inv_step hsel hkeep
      have hfetched' : Fetched P user world.db (listStep list k.inp).1.entries := by
        rw [hentries]
        exact hfetched
      rcases hidle with ⟨hact, hnot⟩ | ⟨hact, hnot⟩ | hact | ⟨hact, hnot⟩
      · simp only [hact, if_neg hnot]
        exact ⟨hunread, hloads, hsel', hfetched'⟩
      · simp only [hact, if_neg hnot]
        exact ⟨hunread, hloads, hsel', hfetched'⟩
      all_goals
        rw [hact] at hreads
        obtain ⟨e, he⟩ := Option.isSome_iff_exists.mp hreads
        rw [he] at hact
      · simp only [hact]
        exact ⟨hunread, hloads, hsel', hfetched'⟩
      · simp only [hact, if_neg hnot]
        exact ⟨hunread, hloads, hsel', hfetched'⟩
  | refresh hrun hkey =>
      have hact : (listStep list k.inp).2 = .none := by rw [step_refresh hrun hkey]
      simp only [hact, if_pos (And.intro hrun hkey)]
      exact tuiInv_reload hP hget hunread hloads hids hsel ⟨hrun, Or.inl hkey⟩ fun _ => hlen
  | new hrun hkey =>
      have hact : (listStep list k.inp).2 = .new := by rw [step_new hrun hkey]
      simp only [hact]
      exact ⟨hunread, hloads, hsel, hrun, Or.inl hkey⟩
  | edit hrun hkey hc =>
      have hact : (listStep list k.inp).2 = .edit list.current := by rw [step_edit hrun hkey hc]
      -- the editor opens on a row of the database, with its id
      obtain ⟨e, he⟩ := Option.isSome_iff_exists.mp (hsel.inList.isSome_current hc)
      rw [he] at hact
      simp only [hact]
      have hpos : 0 < e.id.toInt :=
        id_pos_of_fetched hP hget hids ((fetched_iff hP hget hids).mp hfetched) (current_mem he)
      exact ⟨hunread, hloads, hsel, hrun, Or.inr ⟨hkey, hc, hpos, hlen⟩⟩
  | delete hrun hkey hc hconf =>
      have hact : (listStep list k.inp).2 = .delete list.current := by
        rw [step_delete hrun hkey hc hconf]
      obtain ⟨e, he⟩ := Option.isSome_iff_exists.mp (hsel.inList.isSome_current hc)
      rw [he] at hact
      simp only [hact, if_pos hconf]
      obtain ⟨hunread', hseq, hloads'⟩ := loads_of_delete hP k.del e.id hunread hids hloads
      refine tuiInv_reload (s := ⟨list, .list, _⟩) hP hget hunread' hloads' ?_ hsel ?_ ?_
      · exact lt_of_eq_of_lt hseq hids
      · exact ⟨hrun, Or.inr (Or.inr (Or.inr ⟨hkey, hc, hconf⟩))⟩
      · -- the key is D, not E
        intro hedit
        change k.inp.ch = 101 ∨ k.inp.ch = 69 at hedit
        omega

/-- A key in the editor. -/
theorem tuiInv_editKey (hP : P.Lawful) {list : ListScreen} {i : ListInput} {e : Editor}
    {world : World} (h : TuiInv P user ⟨list, .edit i e, world⟩) (ev : SessionEvent ν)
    {get : CallEnv ν} (hget : get.Allocates) (hids : world.db.entries.seq < 2 ^ 31) :
    TuiInv P user (Tui.editKey P user t i e ev get ⟨list, .edit i e, world⟩) := by
  obtain ⟨hunread, hloads, hsel, hrun, hkey⟩ := h
  rw [Tui.editKey, sessionStep, if_pos rfl]
  have heffect := iterate_effect e ev.inp
  generalize e.iterate ev.inp = o at heffect
  -- leaving the editor, for whichever reason, loads the list again
  have hreload : TuiInv P user (Tui.reload P user get i ⟨list, .edit i e, world⟩) := by
    refine tuiInv_reload hP hget hunread hloads hids hsel ⟨hrun, ?_⟩ ?_
    · rcases hkey with hn | ⟨he, hc, -, -⟩
      · exact Or.inr (Or.inl hn)
      · exact Or.inr (Or.inr (Or.inl ⟨he, hc⟩))
    · intro hedit
      rcases hkey with hn | ⟨-, -, -, hlen⟩
      · omega
      · exact hlen
  cases heffect with
  | look | edit | warn => exact ⟨hunread, hloads, hsel, hrun, hkey⟩
  | leave | noMemory => exact hreload
  | @save viewTop status hesc hdue =>
      -- a save keeps the number of rows, if the entry has an id
      obtain ⟨hunread', hloads', hsame⟩ :=
        loads_of_saveEffect hids hloads (netSave_effect (t := t) hP ev.env
          { e with viewTop := viewTop, status := status } hunread)
      refine ⟨hunread', hloads', hsel, hrun, hkey.imp id ?_⟩
      rintro ⟨he, hc, hpos, hlen⟩
      refine ⟨he, hc, ?_, ?_⟩
      · show 0 < (Editor.finishSave _ _).entryId.toInt
        rw [finishSave_entryId, if_neg fun hnew => absurd hpos (not_lt.mpr hnew.2)]
        exact hpos
      · have htake : ∀ v : List EntryLine, (v.take maxEntries).length = min maxEntries v.length :=
          fun v => List.length_take
        refine hlen.trans ?_
        rw [htake, ← hsame hpos]
        exact (htake _).symm

theorem tuiInv_step (hP : P.Lawful) {s : Tui} (h : TuiInv P user s) {ev : TuiEvent ν}
    (hev : SoleWriter user ev) (hids : (tuiStep P user t s ev).1.world.db.entries.seq < 2 ^ 31) :
    TuiInv P user (tuiStep P user t s ev).1 := by
  have hids₀ := lt_of_le_of_lt (seq_le_tuiStep hP s ev) hids
  obtain ⟨list, screen, world⟩ := s
  cases ev with
  | list k =>
      cases screen with
      | list => exact tuiInv_listKey hP h hev hids₀
      | view | edit | outside => exact h
  | view i =>
      cases screen with
      | view v =>
          -- the viewer touches neither the list nor the connection
          obtain ⟨hunread, hloads, hsel, hfetched⟩ := h
          refine ⟨hunread, hloads, hsel, ?_⟩
          rw [tuiStep.eq_def]
          simp only
          by_cases hv : (viewStep v i).1.running = true
          · rw [if_pos hv]
            exact hfetched
          · rw [if_neg hv]
            exact hfetched
      | list | edit | outside => exact h
  | edit ev get =>
      cases screen with
      | edit i e => exact tuiInv_editKey hP h ev hev hids₀
      | list | view | outside => exact h
  | other r => exact h.congr rfl (view_serve_of_ne hev hids)

theorem tuiInv_opened (hP : P.Lawful) {get : CallEnv ν} (hget : get.Allocates) {db : Db}
    (hids : db.entries.seq < 2 ^ 31) (hloads : Loads P user db) :
    TuiInv P user (Tui.opened P user get db) := by
  obtain ⟨es, hes, hfetched⟩ := exists_netGetEntries hP hget (w := ⟨db, []⟩) rfl hids hloads
  have hopened := listInv_opened (some es)
  rw [Tui.opened, hes]
  exact ⟨rfl, hloads, hopened, hfetched⟩

/-- **Run lemma.** -/
theorem tuiInv_run (hP : P.Lawful) {get : CallEnv ν} (hget : get.Allocates) {db : Db}
    (hloads : Loads P user db) {run : List (TuiEvent ν)} (hrun : ∀ ev ∈ run, SoleWriter user ev)
    (hids : (final (tuiStep P user t) (Tui.opened P user get db) run).world.db.entries.seq
      < 2 ^ 31) :
    TuiInv P user (final (tuiStep P user t) (Tui.opened P user get db) run) := by
  have hB : ∀ (s : Tui) ev, (tuiStep P user t s ev).1.world.db.entries.seq < 2 ^ 31 →
      s.world.db.entries.seq < 2 ^ 31 :=
    fun s ev => lt_of_le_of_lt (seq_le_tuiStep hP s ev)
  have hids₀ : (Tui.opened P user get db).world.db.entries.seq < 2 ^ 31 :=
    of_final (B := fun s : Tui => s.world.db.entries.seq < 2 ^ 31) hB run hids
  rw [Tui.opened, db_netGetEntries] at hids₀
  have hopened : TuiInv P user (Tui.opened P user get db) := tuiInv_opened hP hget hids₀ hloads
  exact throughout_invariant_until (I := TuiInv P user)
    (B := fun s : Tui => s.world.db.entries.seq < 2 ^ 31) hB
    (fun s ev hend h hev => tuiInv_step hP h hev hend) hopened run (throughout_of_inputs hrun) hids

/-- **The screen shows the database.**  In every run of the program over a
database whose rows of the user split, with other users at the server as
well, nobody else writing the user's rows and memory for the lists: the
program never reads outside its list and nothing is left unread, and at
every key of the list or the viewer the list is the one a GET would fetch
just then, the selected row, if there is one, being on the screen. -/
theorem screen_shows_database {P : Proto ν} (hP : P.Lawful) (user : Bytes) (t : Int64)
    (get : CallEnv ν) (hget : get.Allocates) (db : Db) (hloads : Loads P user db)
    (run : List (TuiEvent ν)) (hrun : ∀ ev ∈ run, SoleWriter user ev)
    (hids : (final (tuiStep P user t) (Tui.opened P user get db) run).world.db.entries.seq
      < 2 ^ 31) :
    let s := final (tuiStep P user t) (Tui.opened P user get db) run
    s.screen ≠ .outside ∧ s.world.unread = [] ∧
      (s.screen.editing = false →
        (∀ env : CallEnv ν, env.Allocates →
          (netGetEntries P user env s.world).2 = some s.list.entries) ∧
        (s.list.entries ≠ [] → s.list.current.isSome = true ∧
          ∀ rows : ℤ, 1 ≤ rows - 3 → s.list.selected ∈ s.list.drawn rows)) := by
  intro s
  have hinv : TuiInv P user s := tuiInv_run hP hget hloads hrun hids
  have hids' : s.world.db.entries.seq < 2 ^ 31 := hids
  obtain ⟨hunread, -, hsel, hscreen⟩ := hinv
  refine ⟨fun hout => ?_, hunread, fun hnoedit => ⟨fun env henv => ?_, fun hne => ?_⟩⟩
  · rw [hout] at hscreen
    exact hscreen
  · -- the list and the viewer alone hold the list that was fetched
    have hfetched : Fetched P user s.world.db s.list.entries := by
      rcases hscr : s.screen with - | v | ⟨i, e⟩ | -
      · rw [hscr] at hscreen
        exact hscreen
      · rw [hscr] at hscreen
        exact hscreen
      · rw [hscr] at hnoedit
        cases hnoedit
      · rw [hscr] at hscreen
        exact hscreen.elim
    rw [show s.world = ⟨s.world.db, []⟩ by rw [← hunread]]
    exact (fetched_iff hP henv hids').mp hfetched
  · have hc : 0 < s.list.count := Int.natCast_pos.mpr (List.length_pos_of_ne_nil hne)
    obtain ⟨e, he⟩ := Option.isSome_iff_exists.mp (hsel.inList.isSome_current hc)
    exact ⟨by rw [he]; rfl, fun rows hrows => selected_drawn he hrows⟩

/-- A note is written and saved in the list of one entry, while bob posts. -/
theorem screen_shows_database_note :
    let key (ch : ℤ) : TuiEvent Unit :=
      .list ⟨⟨24, ch, false, false, 0, false, none⟩, ⟨24, 80, by decide, by decide⟩, hiEnv, hiEnv⟩
    let type (ch : ℤ) : TuiEvent Unit := .edit (hiEvent ch) hiEnv
    let bob : TuiEvent Unit := .other ⟨lit "bob", ⟨8, true, true, []⟩, lit "POST eW8="⟩
    let run := [key 110, type 121, bob, type 19, type 27]
    let s := final (tuiStep taggingProto (lit "alice") 0)
      (Tui.opened taggingProto (lit "alice") hiEnv hiDb) run
    (netGetEntries taggingProto (lit "alice") hiEnv s.world).2 = some s.list.entries := by
  intro key type bob run
  have hloads : Loads taggingProto (lit "alice") hiDb := by
    show ∀ l ∈ [_], _
    decide
  have hrun : ∀ ev ∈ run, SoleWriter (lit "alice") ev := by
    intro ev hev
    simp only [run, List.mem_cons, List.not_mem_nil, or_false] at hev
    rcases hev with rfl | rfl | rfl | rfl | rfl
    · exact hiEnv_allocates
    · exact hiEnv_allocates
    · show lit "bob" ≠ lit "alice"
      decide
    · exact hiEnv_allocates
    · exact hiEnv_allocates
  have hshows := screen_shows_database taggingProto_lawful (lit "alice") 0 hiEnv hiEnv_allocates
    hiDb hloads run hrun (by decide +kernel)
  exact (hshows.2.2 (by decide +kernel)).1 hiEnv hiEnv_allocates

end Diary
