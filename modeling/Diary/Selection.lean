/-
Diary/Selection.lean

client/ui.c, `screen_list`: the row selected after the keys N and E, once
the session they open is over and the list is loaded again.

A session leaves the rows of its user where they are, with their ids and
timestamps, but for a row it creates at their end (`RowsInv`).  The list is
the sort of these pairs (`map_pair_of_fetched`): after E it has the same
pairs in the same places, and `selected` stays.  After N the new row is the
newest and comes first, while `selected` is the last row; so the new entry
is the selected one only when it is alone (`selection_follows_iff`).
-/
import Diary.CanonicalOrder
import Diary.ListScreen
import Diary.Session

namespace Diary

open CString Machine

variable {ν : Type*}

/-! ### The keys that open a session -/

/-- The call of `screen_editor` in an act, over the database the list was
loaded from. -/
def openedBy (db : Db) : ListAct → Option Session
  | .new => some (Session.opened 0 none db)
  | .edit (some e) => some (Session.opened e.id (some e.text) db)
  | .none | .view _ | .edit none | .delete _ | .quit => none

/-- The iteration in which `reload_entries` finds the connection as the
session left it. -/
def ListInput.reload (P : Proto ν) (user : Bytes) (get : CallEnv ν) (w : World)
    (i : ListInput) : ListInput :=
  { i with fetched := (netGetEntries P user get w).2 }

/-- `entries[selected]` is the entry under an id. -/
def ListScreen.Selects (s : ListScreen) (id : Int32) : Prop :=
  ∃ e, s.current = some e ∧ e.id = id

/-- The rows of `v'` that `v` has not are no older than the rows of `v`. -/
def CreatedNewest (v v' : List EntryLine) : Prop :=
  ∀ l ∈ v', l.id ∉ v.map EntryLine.id → ∀ m ∈ v, m.ts.toInt ≤ l.ts.toInt

instance (v v' : List EntryLine) : Decidable (CreatedNewest v v') :=
  inferInstanceAs (Decidable (∀ l ∈ v', l.id ∉ v.map EntryLine.id → ∀ m ∈ v, _))

theorem current_lastRow (s : ListScreen) :
    ListScreen.current { s with selected := s.lastRow } = s.entries.getLast? := by
  have hlen : s.count = s.entries.length := rfl
  rw [List.getLast?_eq_getElem?]
  by_cases h : 0 < s.count
  · have hlast : s.lastRow = s.count - 1 := if_pos h
    rw [ListScreen.current, if_neg (show ¬ s.lastRow < 0 by omega)]
    show s.entries[s.lastRow.toNat]? = _
    rw [show s.lastRow.toNat = s.entries.length - 1 by omega]
  · have hlast : s.lastRow = 0 := if_neg h
    rw [ListScreen.current, if_neg (show ¬ s.lastRow < 0 by omega)]
    show s.entries[s.lastRow.toNat]? = _
    rw [show s.lastRow.toNat = s.entries.length - 1 by omega]

theorem selects_iff {s : ListScreen} {id : Int32} :
    s.Selects id ↔
      0 ≤ s.selected ∧ ∃ p, (s.entries.map DiaryEntry.pair)[s.selected.toNat]? = some p ∧
        p.1 = id := by
  rw [ListScreen.Selects, ListScreen.current]
  by_cases h : s.selected < 0
  · rw [if_pos h]
    refine iff_of_false ?_ fun hsel => absurd h (not_lt.mpr hsel.1)
    rintro ⟨e, he, -⟩
    cases he
  · rw [if_neg h, List.getElem?_map]
    constructor
    · rintro ⟨e, he, rfl⟩
      exact ⟨not_lt.mp h, e.pair, by rw [he]; rfl, rfl⟩
    · rintro ⟨-, p, hp, rfl⟩
      obtain ⟨e, he, rfl⟩ := Option.map_eq_some_iff.mp hp
      exact ⟨e, he, rfl⟩

/-- The key N, with what the reload returns left open. -/
theorem step_new {s : ListScreen} {i : ListInput} (hrun : s.running = true)
    (hkey : i.ch = 110 ∨ i.ch = 78) :
    listStep s i
      = let s' := reloadEntries i.fetched { s.frame i.rows with status := .none }
        ({ s' with selected := s'.lastRow }, .new) := by
  rw [listStep, if_pos hrun]
  rcases hkey with hkey | hkey <;>
    simp only [ListScreen.iterate, ListScreen.command, hkey, keyUp, keyDown, keyMouse,
      keyEnter] <;> rfl

/-- No other key opens a session. -/
theorem openedBy_of_other_key {s : ListScreen} {i : ListInput} (db : Db)
    (hn : ¬ (i.ch = 110 ∨ i.ch = 78)) (he : ¬ (i.ch = 101 ∨ i.ch = 69) ∨ ¬ 0 < s.count) :
    openedBy db (listStep s i).2 = none := by
  -- below the navigation keys: no N, and no E on an entry
  have hcommand : ∀ s' : ListScreen, s'.count = s.count → openedBy db (s'.command i).2 = none := by
    intro s' hcount
    rw [ListScreen.command, hcount, if_neg hn]
    split
    · split <;> rfl
    split
    · next hkey =>
        rw [if_neg (he.resolve_left (not_not.mpr hkey))]
        rfl
    split
    · split
      · split <;> rfl
      · rfl
    split <;> rfl
  rw [listStep]
  split
  · rw [ListScreen.iterate]
    simp only
    split
    · rfl
    split
    · rfl
    split
    · rfl
    split
    · split
      · rfl
      · split <;> rfl
    · exact hcommand _ rfl
  · rfl

/-! ### What a session leaves -/

/-- What the list is sorted by. -/
def EntryLine.pair (l : EntryLine) : Int32 × Int64 := (l.id, l.ts)

/-- A row as it was, or with data of our client. -/
def EntryLine.Rewritten (l l' : EntryLine) : Prop := l'.pair = l.pair ∧ (l' = l ∨ l'.Sealed)

/-- The rows of `v`, in their places. -/
def Keeps (v v' : List EntryLine) : Prop := List.Forall₂ EntryLine.Rewritten v v'

theorem Keeps.refl (v : List EntryLine) : Keeps v v :=
  List.forall₂_same.mpr fun _ _ => ⟨rfl, Or.inl rfl⟩

theorem Keeps.map_pair {v v' : List EntryLine} (h : Keeps v v') :
    v'.map EntryLine.pair = v.map EntryLine.pair := by
  induction h with
  | nil => rfl
  | cons hrow _ ih => rw [List.map_cons, List.map_cons, hrow.1, ih]

theorem Keeps.withData {v v' : List EntryLine} (h : Keeps v v') (id : Int32) {data : Bytes}
    (hdata : data ≠ [] ∧ (32 : UInt8) ∉ data) : Keeps v (v'.map (EntryLine.withData id data)) := by
  refine List.forall₂_map_right_iff.mpr (h.imp fun l l' hrow => ?_)
  rw [EntryLine.withData]
  split
  · exact ⟨hrow.1, Or.inr hdata⟩
  · exact hrow

theorem Keeps.concat {v v' : List EntryLine} (h : Keeps v v') (l : EntryLine) :
    Keeps (v ++ [l]) (v' ++ [l]) :=
  List.rel_append h (Keeps.refl [l])

/-- A row is one of `v`, perhaps rewritten. -/
theorem Keeps.exists_mem {v v' : List EntryLine} (h : Keeps v v') {l' : EntryLine}
    (hl' : l' ∈ v') : ∃ l ∈ v, l.Rewritten l' := by
  induction h with
  | nil => cases hl'
  | cons hrow _ ih =>
      rcases List.mem_cons.mp hl' with rfl | hl'
      · exact ⟨_, List.mem_cons_self, hrow⟩
      · obtain ⟨l, hl, hrow'⟩ := ih hl'
        exact ⟨l, List.mem_cons_of_mem _ hl, hrow'⟩

variable (P : Proto ν) (user : Bytes) (db₀ : Db) (k : Int32)

/-- What a session opened on entry `k` of `db₀` has done to the rows of its
user: nothing but to rewrite some, while it is on `k`, and to add one once
it is on that. -/
structure RowsInv (s : Session) : Prop where
  unread : s.world.unread = []
  rows : s.editor.entryId = k ∧ s.world.db.entries.seq = db₀.entries.seq ∧
      Keeps (db₀.view user) (s.world.db.view user) ∨
    k = 0 ∧ s.world.db.entries.seq = db₀.entries.seq + 1 ∧
      ∃ l : EntryLine, l.id = s.editor.entryId ∧ l.id.toInt = (db₀.entries.seq + 1 : ℕ) ∧
        l.Sealed ∧ Keeps (db₀.view user ++ [l]) (s.world.db.view user)

variable {P user db₀ k} {t : Int64}

theorem rowsInv_save (hk : 0 ≤ k.toInt) (hids : db₀.entries.seq + 1 < 2 ^ 31) {s : Session}
    (h : RowsInv user db₀ k s) {r : World × Int32} {e : Editor}
    (he : e.entryId = s.editor.entryId) (hr : SaveEffect P user e s.world.db r) :
    RowsInv user db₀ k ⟨e.finishSave r.2, s.running, r.1⟩ := by
  have hseq : s.world.db.entries.seq < 2 ^ 31 := by
    rcases h.rows with ⟨-, hseq, -⟩ | ⟨-, hseq, -⟩ <;> omega
  cases hr with
  | failed =>
      have hid : (e.finishSave (-1)).entryId = s.editor.entryId := by
        rw [finishSave_entryId, if_neg fun hnew => absurd hnew.1 (by decide), he]
      refine ⟨rfl, ?_⟩
      simp only [hid]
      exact h.rows
  | @updated row b64 hpos hrow howner hdata hunseal =>
      have hid : (e.finishSave e.entryId).entryId = s.editor.entryId := by
        rw [finishSave_entryId, if_neg (by omega), he]
      refine ⟨rfl, ?_⟩
      simp only [hid, AutoTable.seq_modify, view_modify hseq, if_true]
      refine h.rows.imp ?_ ?_
      · rintro ⟨hentry, hsame, hkeeps⟩
        exact ⟨hentry, hsame, hkeeps.withData _ hdata⟩
      · rintro ⟨hk0, hsame, l, hl, hval, hsealed, hkeeps⟩
        exact ⟨hk0, hsame, l, hl, hval, hsealed, hkeeps.withData _ hdata⟩
  | @posted ts b64 hpos hdata hunseal =>
      rcases h.rows with ⟨hentry, hsame, hkeeps⟩ | ⟨-, -, l, hl, hval, -⟩
      · -- the session was new, and is on the row it created
        have hk0 : k = 0 := by
          apply Int32.toInt_inj.mp
          rw [he, hentry] at hpos
          show k.toInt = 0
          omega
        have hval := toInt_rowidToInt hids
        rw [hsame, if_neg (show ¬ (rowidToInt (db₀.entries.seq + 1)).toInt < 0 by omega)]
        have hid : (e.finishSave (rowidToInt (db₀.entries.seq + 1))).entryId
            = rowidToInt (db₀.entries.seq + 1) := by
          rw [finishSave_entryId, if_pos ⟨by omega, by omega⟩]
        refine ⟨rfl, Or.inr ⟨hk0, ?_, ⟨_, ts, b64⟩, hid.symm, hval, hdata, ?_⟩⟩
        · show s.world.db.entries.seq + 1 = _
          rw [hsame]
        · rw [view_insert, if_pos rfl, hsame]
          exact hkeeps.concat _
      · rw [he, ← hl] at hpos
        omega

/-- **Step lemma**, for the rows. -/
theorem rowsInv_step (hP : P.Lawful) (hk : 0 ≤ k.toInt) (hids : db₀.entries.seq + 1 < 2 ^ 31)
    {s : Session} (h : RowsInv user db₀ k s) (ev : SessionEvent ν) :
    RowsInv user db₀ k (sessionStep P user t s ev).1 := by
  rw [sessionStep]
  split
  · have hkey := iterate_effect s.editor ev.inp
    generalize s.editor.iterate ev.inp = o at hkey
    cases hkey with
    | look | edit | warn | leave | noMemory => exact ⟨h.unread, h.rows⟩
    | save hesc hdue => exact rowsInv_save hk hids h rfl (netSave_effect hP ev.env _ h.unread)
  · exact h

theorem rowsInv_final (hP : P.Lawful) (hk : 0 ≤ k.toInt) (hids : db₀.entries.seq + 1 < 2 ^ 31)
    (text : Option Bytes) (run : List (SessionEvent ν)) :
    RowsInv user db₀ k (final (sessionStep P user t) (Session.opened k text db₀) run) :=
  final_invariant (I := RowsInv user db₀ k) (fun _ ev h => rowsInv_step hP hk hids h ev)
    ⟨rfl, Or.inl ⟨rfl, rfl, Keeps.refl _⟩⟩ run

/-- The editor is on the id a save returned. -/
theorem SaveEffect.entryId_finishSave {e : Editor} {db : Db} {r : World × Int32}
    (h : SaveEffect P user e db r) (hmade : 0 < r.2.toInt) :
    (e.finishSave r.2).entryId = r.2 := by
  rw [finishSave_entryId]
  cases h with
  | failed => exact absurd hmade (by decide : ¬ 0 < (-1 : Int32).toInt)
  | updated hid => exact if_neg fun hnew => absurd hid (not_lt.mpr hnew.2)
  | posted hid => exact if_pos ⟨hmade, not_lt.mp hid⟩

theorem entryId_of_made (hP : P.Lawful) {s : Session} (hw : s.world.unread = [])
    {ev : SessionEvent ν} {made : SaveMade} (h : (sessionStep P user t s ev).2 = some made)
    (hmade : 0 < made.newId.toInt) :
    (sessionStep P user t s ev).1.editor.entryId = made.newId := by
  unfold sessionStep at h ⊢
  split at h
  · next hrun =>
      have hkey := iterate_effect s.editor ev.inp
      rw [if_pos hrun]
      generalize s.editor.iterate ev.inp = o at hkey h ⊢
      cases hkey with
      | look | edit | warn | leave | noMemory => cases h
      | @save viewTop status hesc hdue =>
          obtain rfl := Option.some.inj h
          exact (netSave_effect hP ev.env _ hw).entryId_finishSave hmade
  · cases h

theorem entryId_of_saved (hP : P.Lawful) (hk : 0 ≤ k.toInt)
    (hids : db₀.entries.seq + 1 < 2 ^ 31) (text : Option Bytes) {run : List (SessionEvent ν)}
    {p : SessionEvent ν × Option SaveMade} {made : SaveMade}
    (hp : p ∈ trace (sessionStep P user t) (Session.opened k text db₀) run)
    (hsave : p.2 = some made) (hmade : 0 < made.newId.toInt) :
    (final (sessionStep P user t) (Session.opened k text db₀) run).editor.entryId
      = made.newId := by
  obtain ⟨js, ev, ks, rfl, rfl⟩ := mem_trace_iff (sessionStep P user t) |>.mp hp
  have hinv : RowsInv user db₀ k (final (sessionStep P user t) (Session.opened k text db₀) js) :=
    rowsInv_final hP hk hids text js
  have hid := entryId_of_made hP hinv.unread hsave hmade
  rw [final_append, final_cons, entryId_final (by rw [hid]; exact hmade) ks, hid]

/-! ### The list of some rows -/

theorem pair_of_split {l : EntryLine} {e : DiaryEntry} (h : l.split P = some e) :
    e.pair = l.pair := by
  obtain ⟨f, -, rfl⟩ := Option.map_eq_some_iff.mp h
  rfl

theorem map_pair_of_split {rows : List EntryLine} {arr : List DiaryEntry}
    (h : rows.map (EntryLine.split P) = arr.map some) :
    arr.map DiaryEntry.pair = rows.map EntryLine.pair := by
  induction rows generalizing arr with
  | nil =>
      obtain rfl : arr = [] := by simpa using h.symm
      rfl
  | cons l rows ih =>
      cases arr with
      | nil => cases h
      | cons e arr =>
          obtain ⟨he, hrest⟩ := List.cons.inj h
          rw [List.map_cons, List.map_cons, pair_of_split he, ih hrest]

/-- **The list is the sort of the ids and timestamps of the rows.** -/
theorem map_pair_of_fetched (hP : P.Lawful) {env : CallEnv ν} (henv : env.Allocates) {db : Db}
    (hids : db.entries.seq < 2 ^ 31) {es : List DiaryEntry}
    (hes : (netGetEntries P user env ⟨db, []⟩).2 = some es) :
    es.map DiaryEntry.pair
      = (((db.view user).take maxEntries).map EntryLine.pair).mergeSort newestFirst := by
  obtain ⟨arr, harr, rfl⟩ := (netGetEntries_eq_some_iff hP henv hids).mp hes
  have hpairs := map_pair_of_split harr
  have hpos : ∀ e ∈ arr, 0 < e.id.toInt := by
    intro e he
    have hmem := List.mem_map_of_mem (f := DiaryEntry.pair) he
    rw [hpairs] at hmem
    obtain ⟨l, hl, heq⟩ := List.mem_map.mp hmem
    have hid := (view_id_bounds hids (List.mem_of_mem_take hl)).1
    rwa [show l.id = e.id from congrArg Prod.fst heq] at hid
  rw [map_pair_sortNewestFirst hpos, hpairs]

theorem isSome_split_of_sealed {l : EntryLine} (h : l.Sealed) : (l.split P).isSome = true := by
  rw [split_of_no_space h.1 h.2]
  rfl

/-- Rows that all split are shown as some list. -/
theorem exists_fetched_iff (hP : P.Lawful) {env : CallEnv ν} (henv : env.Allocates) {db : Db}
    (hids : db.entries.seq < 2 ^ 31) :
    (∃ es, (netGetEntries P user env ⟨db, []⟩).2 = some es) ↔
      ∀ l ∈ (db.view user).take maxEntries, (l.split P).isSome = true := by
  simp only [netGetEntries_eq_some_iff hP henv hids]
  constructor
  · rintro ⟨-, arr, harr, -⟩ l hl
    have hmem := List.mem_map_of_mem (f := EntryLine.split P) hl
    rw [harr] at hmem
    obtain ⟨e, -, he⟩ := List.mem_map.mp hmem
    rw [← he]
    rfl
  · intro hall
    obtain ⟨arr, harr⟩ := exists_map_eq_map_some hall
    exact ⟨_, arr, harr, rfl⟩

/-- The list can still be loaded after rows are rewritten, and a sealed one
added. -/
theorem isSome_split_of_keeps {v v' new : List EntryLine} (h : Keeps (v ++ new) v')
    (hnew : ∀ l ∈ new, l.Sealed) {n : ℕ}
    (hall : ∀ l ∈ v.take n, (l.split P).isSome = true) :
    ∀ l ∈ v'.take n, (l.split P).isSome = true := by
  intro l' hl'
  have htake : Keeps ((v ++ new).take n) (v'.take n) := List.forall₂_take n h
  obtain ⟨l, hl, -, hsame⟩ := htake.exists_mem hl'
  rcases hsame with rfl | hsealed
  · rw [List.take_append] at hl
    rcases List.mem_append.mp hl with hl | hl
    · exact hall _ hl
    · exact isSome_split_of_sealed (hnew _ (List.mem_of_mem_take hl))
  · exact isSome_split_of_sealed hsealed

/-! ### The selected entry -/

/-- The last row of the list is the row added last iff that is alone: it is
the newest, and the newest comes first. -/
theorem getLast_is_new_iff {v v' : List EntryLine} {l : EntryLine} (h : Keeps (v ++ [l]) v')
    (hid : ∀ m ∈ v, m.id.toInt < l.id.toInt) (hts : ∀ m ∈ v, m.ts.toInt ≤ l.ts.toInt)
    {es : List DiaryEntry}
    (hes : es.map DiaryEntry.pair
      = ((v'.take maxEntries).map EntryLine.pair).mergeSort newestFirst) :
    (∃ e, es.getLast? = some e ∧ e.id = l.id) ↔ v = [] := by
  rw [List.map_take, h.map_pair, ← List.map_take] at hes
  constructor
  · rintro ⟨e, he, heid⟩
    by_contra hne
    obtain ⟨m, w, rfl⟩ := List.exists_cons_of_ne_nil hne
    have hsorted := List.pairwise_mergeSort newestFirst_trans newestFirst_total
      (((m :: w ++ [l]).take maxEntries).map EntryLine.pair)
    rw [← hes, List.pairwise_map] at hsorted
    have hperm := List.mergeSort_perm (((m :: w ++ [l]).take maxEntries).map EntryLine.pair)
      newestFirst
    rw [← hes] at hperm
    -- the first of the old rows is shown, so not after the last entry
    obtain ⟨d, hd, hdm⟩ : ∃ d ∈ es, d.pair = m.pair := by
      apply List.mem_map.mp
      exact hperm.mem_iff.mpr (List.mem_cons_self)
    have hlast : newestFirst d.pair e.pair = true := by
      obtain ⟨ys, rfl⟩ := List.getLast?_eq_some_iff.mp he
      rcases List.mem_append.mp hd with hd | hd
      · exact (List.pairwise_append.mp hsorted).2.2 d hd e List.mem_cons_self
      · rw [List.mem_singleton.mp hd]
        simpa using newestFirst_total e.pair e.pair
    -- and the last entry is the new row
    have hel : e.pair = l.pair := by
      have hmem := hperm.mem_iff.mp (List.mem_map_of_mem (List.mem_of_getLast? he))
      obtain ⟨l', hl', hpair⟩ := List.mem_map.mp hmem
      rcases List.mem_append.mp (List.mem_of_mem_take hl') with hold | hnew
      · have hlt := hid l' hold
        rw [show l'.id = e.id from congrArg Prod.fst hpair, heid] at hlt
        exact absurd hlt (lt_irrefl _)
      · rw [← hpair, List.mem_singleton.mp hnew]
    rw [hdm, hel, newestFirst_iff] at hlast
    have hidm := hid m List.mem_cons_self
    have htsm := hts m List.mem_cons_self
    simp only [EntryLine.pair] at hlast
    omega
  · rintro rfl
    have hes' : es.map DiaryEntry.pair = [l.pair] := by
      rw [hes]
      exact List.mergeSort_singleton _
    obtain ⟨e, rfl, he⟩ := List.map_eq_singleton_iff.mp hes'
    exact ⟨e, rfl, congrArg Prod.fst he⟩

/-- A list whose ids and timestamps are where they were selects what it
selected. -/
theorem selects_reload_iff {s s' : ListScreen} (hsel : s'.selected = s.selected)
    (hpairs : s'.entries.map DiaryEntry.pair = s.entries.map DiaryEntry.pair) (id : Int32) :
    s'.Selects id ↔ s.Selects id := by
  rw [selects_iff, selects_iff, hsel, hpairs]

/-- The list after a session is loaded if the one before it was. -/
theorem exists_reloaded (hP : P.Lawful) {load get : CallEnv ν} (hload : load.Allocates)
    (hget : get.Allocates) (hids : db₀.entries.seq + 1 < 2 ^ 31) {es₀ : List DiaryEntry}
    (hlist : (netGetEntries P user load ⟨db₀, []⟩).2 = some es₀) {s : Session}
    (hinv : RowsInv user db₀ k s) :
    ∃ es, (netGetEntries P user get s.world).2 = some es ∧
      es.map DiaryEntry.pair
        = (((s.world.db.view user).take maxEntries).map EntryLine.pair).mergeSort newestFirst := by
  have hids₀ : db₀.entries.seq < 2 ^ 31 := lt_of_le_of_lt (Nat.le_succ _) hids
  have hids' : s.world.db.entries.seq < 2 ^ 31 := by
    rcases hinv.rows with ⟨-, hseq, -⟩ | ⟨-, hseq, -⟩ <;> omega
  have hall := (exists_fetched_iff hP hload hids₀).mp ⟨es₀, hlist⟩
  have hall' : ∀ l ∈ (s.world.db.view user).take maxEntries, (l.split P).isSome = true := by
    rcases hinv.rows with ⟨-, -, hkeeps⟩ | ⟨-, -, l, -, -, hsealed, hkeeps⟩
    · rw [← List.append_nil (db₀.view user)] at hkeeps
      exact isSome_split_of_keeps hkeeps (fun l hl => by cases hl) hall
    · refine isSome_split_of_keeps hkeeps (fun m hm => ?_) hall
      rw [List.mem_singleton.mp hm]
      exact hsealed
  obtain ⟨es, hes⟩ := (exists_fetched_iff hP hget hids').mpr hall'
  have hworld : s.world = ⟨s.world.db, []⟩ := by rw [← hinv.unread]
  exact ⟨es, by rw [hworld]; exact hes, map_pair_of_fetched hP hget hids' hes⟩

/-- The key E keeps the edited entry selected. -/
theorem selects_after_edit (hP : P.Lawful) {load get : CallEnv ν} (hload : load.Allocates)
    (hget : get.Allocates) {db : Db} (hids : db.entries.seq + 1 < 2 ^ 31) {s : ListScreen}
    (hlist : (netGetEntries P user load ⟨db, []⟩).2 = some s.entries) {i : ListInput}
    (hrun : s.running = true) (hkey : i.ch = 101 ∨ i.ch = 69) (hc : 0 < s.count) {e : DiaryEntry}
    (he : s.current = some e) {s' : Session} (hinv : RowsInv user db e.id s') (hid : e.id ≠ 0) :
    (listStep s (i.reload P user get s'.world)).1.Selects e.id := by
  have hids₀ : db.entries.seq < 2 ^ 31 := lt_of_le_of_lt (Nat.le_succ _) hids
  obtain ⟨es, hes, hpairs⟩ := exists_reloaded hP hload hget hids hlist hinv
  rcases hinv.rows with ⟨-, -, hkeeps⟩ | ⟨hzero, -⟩
  · rw [List.map_take, hkeeps.map_pair, ← List.map_take,
      ← map_pair_of_fetched hP hload hids₀ hlist] at hpairs
    have hstep := step_edit (i := i.reload P user get s'.world) hrun hkey hc
    rw [hstep, selects_reload_iff (s := s)]
    · exact ⟨e, he, rfl⟩
    · rw [reloadEntries_selected]
      rfl
    · simp only [ListInput.reload, hes]
      exact hpairs
  · exact absurd hzero hid

/-- The key N selects the new entry iff there was no other. -/
theorem selects_after_new_iff (hP : P.Lawful) {load get : CallEnv ν} (hload : load.Allocates)
    (hget : get.Allocates) {db : Db} (hids : db.entries.seq + 1 < 2 ^ 31) {s : ListScreen}
    (hlist : (netGetEntries P user load ⟨db, []⟩).2 = some s.entries) {i : ListInput}
    (hrun : s.running = true) (hkey : i.ch = 110 ∨ i.ch = 78) {s' : Session}
    (hinv : RowsInv user db 0 s') (hpos : 0 < s'.editor.entryId.toInt)
    (hnewest : CreatedNewest (db.view user) (s'.world.db.view user)) :
    (listStep s (i.reload P user get s'.world)).1.Selects s'.editor.entryId ↔
      s.entries = [] := by
  have hids₀ : db.entries.seq < 2 ^ 31 := lt_of_le_of_lt (Nat.le_succ _) hids
  obtain ⟨es, hes, hpairs⟩ := exists_reloaded hP hload hget hids hlist hinv
  rcases hinv.rows with ⟨hzero, -⟩ | ⟨-, -, l, hl, hval, -, hkeeps⟩
  · rw [hzero] at hpos
    exact absurd hpos (lt_irrefl _)
  -- the new row has the largest id and, with the hypothesis, the newest timestamp
  have hid : ∀ m ∈ db.view user, m.id.toInt < l.id.toInt := by
    intro m hm
    have hle := (view_id_bounds hids₀ hm).2
    omega
  have hts : ∀ m ∈ db.view user, m.ts.toInt ≤ l.ts.toInt := by
    have hmem : l.pair ∈ (s'.world.db.view user).map EntryLine.pair := by
      rw [hkeeps.map_pair]
      simp
    obtain ⟨l', hl', hpair⟩ := List.mem_map.mp hmem
    have hid' : l'.id = l.id := congrArg Prod.fst hpair
    rw [← show l'.ts = l.ts from congrArg Prod.snd hpair]
    apply hnewest l' hl'
    rw [hid', List.mem_map]
    rintro ⟨m, hm, heq⟩
    have hlt := hid m hm
    rw [heq] at hlt
    exact lt_irrefl _ hlt
  -- an empty list is an empty table, even if the list is cut
  have hempty : s.entries = [] ↔ db.view user = [] := by
    have hlen := congrArg List.length (map_pair_of_fetched hP hload hids₀ hlist)
    simp only [List.length_map, List.length_mergeSort, List.length_take, maxEntries] at hlen
    rw [← List.length_eq_zero_iff, ← List.length_eq_zero_iff]
    omega
  -- the key selects the last of the list, and the new row comes first
  have hstep := step_new (i := i.reload P user get s'.world) hrun hkey
  rw [hstep, hempty, ← hl, ← getLast_is_new_iff hkeeps hid hts hpairs, ListScreen.Selects]
  simp only [ListInput.reload, hes, current_lastRow]
  rfl

theorem id_pos_of_fetched (hP : P.Lawful) {load : CallEnv ν} (hload : load.Allocates) {db : Db}
    (hids : db.entries.seq < 2 ^ 31) {es : List DiaryEntry}
    (hlist : (netGetEntries P user load ⟨db, []⟩).2 = some es) {e : DiaryEntry} (he : e ∈ es) :
    0 < e.id.toInt := by
  have hmem := List.mem_map_of_mem (f := DiaryEntry.pair) he
  rw [map_pair_of_fetched hP hload hids hlist, List.mem_mergeSort] at hmem
  obtain ⟨l, hl, hpair⟩ := List.mem_map.mp hmem
  rw [← show l.id = e.id from congrArg Prod.fst hpair]
  exact (view_id_bounds hids (List.mem_of_mem_take hl)).1

theorem current_mem {s : ListScreen} {e : DiaryEntry} (h : s.current = some e) :
    e ∈ s.entries := by
  rw [ListScreen.current] at h
  split at h
  · cases h
  · exact List.mem_of_getElem? h

/-- **The selection follows the entry written** exactly after E, and after N
in an empty list.  The list is the one loaded from the database before; the
session is any run from the editor that the key opens, one save of which
succeeded; nobody else writes; a row the session creates is not older than
the others; and the list is loaded again. -/
theorem selection_follows_iff {P : Proto ν} (hP : P.Lawful) (user : Bytes) (t : Int64)
    (load get : CallEnv ν) (hload : load.Allocates) (hget : get.Allocates) (db : Db)
    (hids : db.entries.seq + 1 < 2 ^ 31) (s : ListScreen) (i : ListInput)
    (hlist : (netGetEntries P user load ⟨db, []⟩).2 = some s.entries) (s₀ : Session)
    (hopen : openedBy db (listStep s i).2 = some s₀) (run : List (SessionEvent ν))
    (p : SessionEvent ν × Option SaveMade) (made : SaveMade)
    (hp : p ∈ trace (sessionStep P user t) s₀ run) (hsave : p.2 = some made)
    (hmade : 0 < made.newId.toInt)
    (hnewest : CreatedNewest (db.view user)
      ((final (sessionStep P user t) s₀ run).world.db.view user)) :
    (listStep s
        (i.reload P user get (final (sessionStep P user t) s₀ run).world)).1.Selects made.newId ↔
      (i.ch = 101 ∨ i.ch = 69) ∨ s.entries = [] := by
  have hids₀ : db.entries.seq < 2 ^ 31 := lt_of_le_of_lt (Nat.le_succ _) hids
  have hrun : s.running = true := by
    by_contra hstop
    rw [listStep, if_neg hstop] at hopen
    cases hopen
  by_cases hn : i.ch = 110 ∨ i.ch = 78
  · -- N
    rw [step_new hrun hn] at hopen
    obtain rfl : Session.opened 0 none db = s₀ := Option.some.inj hopen
    have hid := entryId_of_saved hP (le_refl _) hids none hp hsave hmade
    have hinv : RowsInv user db 0 (final (sessionStep P user t) (Session.opened 0 none db) run) :=
      rowsInv_final hP (le_refl _) hids none run
    have hiff := selects_after_new_iff hP hload hget hids hlist hrun hn hinv
      (by rw [hid]; exact hmade) hnewest
    rw [hid] at hiff
    rw [hiff]
    exact (or_iff_right (by omega)).symm
  · by_cases he : (i.ch = 101 ∨ i.ch = 69) ∧ 0 < s.count
    · -- E
      rw [step_edit hrun he.1 he.2] at hopen
      rcases hcur : s.current with - | e
      · rw [hcur] at hopen
        cases hopen
      rw [hcur] at hopen
      obtain rfl : Session.opened e.id (some e.text) db = s₀ := Option.some.inj hopen
      have hpos := id_pos_of_fetched hP hload hids₀ hlist (current_mem hcur)
      have hid := entryId_of_saved hP hpos.le hids (some e.text) hp hsave hmade
      have hinv : RowsInv user db e.id
          (final (sessionStep P user t) (Session.opened e.id (some e.text) db) run) :=
        rowsInv_final hP hpos.le hids (some e.text) run
      have hne : e.id ≠ 0 := by
        rintro heq
        rw [heq] at hpos
        exact lt_irrefl _ hpos
      have hopened : (final (sessionStep P user t) (Session.opened e.id (some e.text) db)
          run).editor.entryId = e.id :=
        entryId_final hpos run
      rw [← hid, hopened]
      exact iff_of_true (selects_after_edit hP hload hget hids hlist hrun he.1 he.2 hcur hinv hne)
        (Or.inl he.1)
    · rw [openedBy_of_other_key db hn (by tauto)] at hopen
      cases hopen

/-! One entry of alice, loaded, and the two keys on it. -/

def hiDb : Db :=
  final serve Db.fresh [⟨lit "alice", ⟨7, true, true, []⟩, lit "POST c2VhbGVkhi"⟩]

def hiEnv : CallEnv Unit := ⟨(), ⟨9, true, true, []⟩, true⟩

def hiList : ListScreen := ListScreen.opened (some [⟨1, 7, lit "hi"⟩])

def hiEvent (ch : ℤ) : SessionEvent Unit := ⟨⟨24, 80, ch, .other, true⟩, hiEnv⟩

theorem hiEnv_allocates : hiEnv.Allocates := ⟨rfl, by simp [hiEnv], rfl⟩

theorem hiList_loaded :
    (netGetEntries taggingProto (lit "alice") hiEnv ⟨hiDb, []⟩).2 = some hiList.entries := by
  refine (netGetEntries_eq_some_iff taggingProto_lawful hiEnv_allocates (by decide)).mpr
    ⟨[⟨1, 7, lit "hi"⟩], by decide, ?_⟩
  exact (List.mergeSort_singleton _).symm

theorem selection_follows_edit :
    let i : ListInput := ⟨24, 101, false, false, 0, false, none⟩
    let run := [hiEvent 121, hiEvent 19, hiEvent 27]
    let s' := final (sessionStep taggingProto (lit "alice") 0)
      (Session.opened 1 (some (lit "hi")) hiDb) run
    s'.running = false ∧
      (listStep hiList (i.reload taggingProto (lit "alice") hiEnv s'.world)).1.Selects 1 := by
  intro i run s'
  obtain ⟨made, hsave, hid⟩ := Option.map_eq_some_iff.mp (by decide :
    (sessionStep taggingProto (lit "alice") 0 (final (sessionStep taggingProto (lit "alice") 0)
      (Session.opened 1 (some (lit "hi")) hiDb) [hiEvent 121]) (hiEvent 19)).2.map SaveMade.newId
      = some 1)
  have hfollows := selection_follows_iff taggingProto_lawful (lit "alice") 0 hiEnv hiEnv
    hiEnv_allocates hiEnv_allocates hiDb (by decide) hiList i hiList_loaded
    (Session.opened 1 (some (lit "hi")) hiDb) rfl run _ made
    ((mem_trace_iff _).mpr ⟨[hiEvent 121], hiEvent 19, [hiEvent 27], rfl, rfl⟩) hsave
    (by rw [hid]; decide) (by decide)
  rw [hid] at hfollows
  exact ⟨by decide, hfollows.mpr (Or.inl (Or.inl rfl))⟩

/-- N in a list of one entry: the new entry is shown first, and the old one,
in the last row, is selected. -/
theorem new_entry_not_selected :
    let i : ListInput := ⟨24, 110, false, false, 0, false, none⟩
    let typed := [hiEvent 121, hiEvent 111]
    let s₀ := Session.opened 0 none hiDb
    let step := sessionStep taggingProto (lit "alice") 0
    let s' := final step s₀ (typed ++ [hiEvent 19, hiEvent 27])
    (netGetEntries taggingProto (lit "alice") hiEnv ⟨hiDb, []⟩).2 = some hiList.entries ∧
      openedBy hiDb (listStep hiList i).2 = some s₀ ∧
      (step (final step s₀ typed) (hiEvent 19)).2.map SaveMade.newId = some 2 ∧
      s'.running = false ∧
      CreatedNewest (hiDb.view (lit "alice")) (s'.world.db.view (lit "alice")) ∧
      ¬ (listStep hiList (i.reload taggingProto (lit "alice") hiEnv s'.world)).1.Selects 2 := by
  intro i typed s₀ step s'
  have hnewest : CreatedNewest (hiDb.view (lit "alice")) (s'.world.db.view (lit "alice")) := by
    decide
  refine ⟨hiList_loaded, rfl, by decide, by decide, hnewest, ?_⟩
  have hinv : RowsInv (lit "alice") hiDb 0 s' :=
    rowsInv_final taggingProto_lawful (by decide) (by decide) none _
  have hiff := selects_after_new_iff taggingProto_lawful hiEnv_allocates hiEnv_allocates
    (by decide) hiList_loaded (i := i) rfl (Or.inl rfl) hinv (by decide) hnewest
  rw [show s'.editor.entryId = 2 by decide] at hiff
  rw [hiff]
  exact List.cons_ne_nil _ _

end Diary
