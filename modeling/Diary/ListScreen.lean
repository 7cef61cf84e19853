/-
Diary/ListScreen.lean

client/ui.c, `screen_list`: the list of entries, the selected row and the
rows drawn.

One iteration reads the height of the terminal, a key, the mouse buttons
when the key is a mouse event, the answer to "Confirm delete", and what the
network calls it makes return (`ListInput`).  The entries of a reload are
whatever the server holds by then, so `fetched` is any list.

Every branch that reloads puts the selection back into the list, but for
the one of the key E.  So the selected row is a row of the list at the top
of every iteration exactly as long as each reload after an edit returns no
entry at all, or still has the selected row (`selected_in_list_iff`).
-/
import Diary.Net
import Diary.Editor

namespace Diary

open CString Machine

/-! ### The state of the screen -/

/-- `status_msg`. -/
inductive ListStatus
  | none
  | fetchError
  | deleted
  | deleteError
  | reloaded
deriving DecidableEq

/-- The text at the bottom of the screen. -/
def ListStatus.text : ListStatus → Bytes
  | .none => lit "[N]ew  [E]dit  [Enter]Read  [D]elete  [R]eload  [Q]uit"
  | .fetchError => lit "Error fetching entries."
  | .deleted => lit "Entry deleted."
  | .deleteError => lit "Error deleting entry."
  | .reloaded => lit "Reloaded."

/-- The variables of `screen_list`. -/
structure ListScreen where
  entries : List DiaryEntry
  selected : ℤ
  scroll : ℤ
  status : ListStatus
  running : Bool
deriving DecidableEq

/-- `count`. -/
def ListScreen.count (s : ListScreen) : ℤ := s.entries.length

/-- `entries[selected]`; `none` is an access outside the array. -/
def ListScreen.current (s : ListScreen) : Option DiaryEntry :=
  if s.selected < 0 then none else s.entries[s.selected.toNat]?

/-- What one iteration reads. -/
structure ListInput where
  rows : ℤ
  /-- `getch` -/
  ch : ℤ
  /-- the buttons of the mouse event; neither if `getmouse` fails -/
  button4 : Bool
  button5 : Bool
  /-- `getch` after "Confirm delete" -/
  conf : ℤ
  /-- `net_delete_entry` returns 0 -/
  deleted : Bool
  /-- the result of `net_get_entries` -/
  fetched : Option (List DiaryEntry)

/-- What an iteration does besides; the entry is the one it reads at
`selected`. -/
inductive ListAct
  | none
  | view (e : Option DiaryEntry)
  | new
  | edit (e : Option DiaryEntry)
  | delete (e : Option DiaryEntry)
  | quit
deriving DecidableEq

/-- The entry an act reads is in the list. -/
def ListAct.InList : ListAct → Prop
  | .none | .new | .quit => True
  | .view e | .edit e | .delete e => e.isSome = true

/-! ### Drawing -/

/-- `scroll` after the three corrections at the top of an iteration. -/
def adjustScroll (selected listRows scroll : ℤ) : ℤ :=
  let scroll := if selected < scroll then selected else scroll
  let scroll := if scroll + listRows ≤ selected then selected - listRows + 1 else scroll
  if scroll < 0 then 0 else scroll

/-- The state in which an iteration draws. -/
def ListScreen.frame (rows : ℤ) (s : ListScreen) : ListScreen :=
  { s with scroll := adjustScroll s.selected (rows - 3) s.scroll }

/-- The indices of the rows drawn. -/
def ListScreen.drawn (rows : ℤ) (s : ListScreen) : List ℤ :=
  ((List.range (rows - 3).toNat).map fun i : ℕ => (i : ℤ) + (s.frame rows).scroll).takeWhile
    (· < s.count)

/-! ### The loop -/

/-- `reload_entries`. -/
def reloadEntries (fetched : Option (List DiaryEntry)) (s : ListScreen) : ListScreen :=
  match fetched with
  | some entries => { s with entries := entries }
  | none => { s with entries := [], status := .fetchError }

/-- `count > 0 ? count - 1 : 0`. -/
def ListScreen.lastRow (s : ListScreen) : ℤ := if 0 < s.count then s.count - 1 else 0

/-- `if (selected >= count) selected = count > 0 ? count - 1 : 0;`. -/
def ListScreen.clamp (s : ListScreen) : ListScreen :=
  if s.count ≤ s.selected then { s with selected := s.lastRow } else s

/-- The branches of a key that is no navigation. -/
def ListScreen.command (i : ListInput) (s : ListScreen) : ListScreen × ListAct :=
  if i.ch = 10 ∨ i.ch = keyEnter then
    if 0 < s.count then (s, .view s.current) else (s, .none)
  else if i.ch = 110 ∨ i.ch = 78 then
    let s := reloadEntries i.fetched s
    ({ s with selected := s.lastRow }, .new)
  else if i.ch = 101 ∨ i.ch = 69 then
    if 0 < s.count then (reloadEntries i.fetched s, .edit s.current) else (s, .none)
  else if i.ch = 100 ∨ i.ch = 68 then
    if 0 < s.count then
      if i.conf = 121 ∨ i.conf = 89 then
        let s' := { s with status := if i.deleted then .deleted else .deleteError }
        ((reloadEntries i.fetched s').clamp, .delete s.current)
      else (s, .delete s.current)
    else (s, .none)
  else if i.ch = 114 ∨ i.ch = 82 then
    let s := (reloadEntries i.fetched s).clamp
    (if s.status = .none then { s with status := .reloaded } else s, .none)
  else (s, .none)

/-- One iteration of `screen_list`: the status is shown and cleared, and the
key decides. -/
def ListScreen.iterate (i : ListInput) (s : ListScreen) : ListScreen × ListAct :=
  let s := { s.frame i.rows with status := .none }
  if i.ch = 113 ∨ i.ch = 81 then ({ s with running := false }, .quit)
  else if (i.ch = keyUp ∨ i.ch = 107) ∧ 0 < s.selected then
    ({ s with selected := s.selected - 1 }, .none)
  else if (i.ch = keyDown ∨ i.ch = 106) ∧ s.selected < s.count - 1 then
    ({ s with selected := s.selected + 1 }, .none)
  else if i.ch = keyMouse then
    if i.button4 = true ∧ 0 < s.selected then ({ s with selected := s.selected - 1 }, .none)
    else if i.button5 = true ∧ s.selected < s.count - 1 then
      ({ s with selected := s.selected + 1 }, .none)
    else (s, .none)
  else s.command i

/-- The loop; a key pressed after it has ended is not read. -/
def listStep (s : ListScreen) (i : ListInput) : ListScreen × ListAct :=
  if s.running then s.iterate i else (s, .none)

/-- `screen_list` before its loop. -/
def ListScreen.opened (fetched : Option (List DiaryEntry)) : ListScreen :=
  reloadEntries fetched
    { entries := [], selected := 0, scroll := 0, status := .none, running := true }

/-! ### The selected row -/

/-- There is no entry, or the selected row is one. -/
def ListScreen.InList (s : ListScreen) : Prop :=
  s.count = 0 ∨ 0 ≤ s.selected ∧ s.selected < s.count

/-- What the loop keeps: the selection is in the list, and never negative. -/
structure ListInv (s : ListScreen) : Prop where
  nonneg : 0 ≤ s.selected
  inList : s.InList

/-- One iteration is sound: whatever it reads at `selected` is an entry, the
selected row is drawn when the screen has a row for it and the list has one,
every row drawn is an entry, and the next iteration starts with the
selection in the list. -/
structure Sound (s : ListScreen) (i : ListInput) : Prop where
  reads : (listStep s i).2.InList
  drawn : 1 ≤ i.rows - 3 → s.count ≠ 0 → s.selected ∈ s.drawn i.rows
  rows : ∀ idx ∈ s.drawn i.rows, 0 ≤ idx ∧ idx < s.count
  next : (listStep s i).1.InList

/-- The reload after an edit returns no entry, or still has the selected
row. -/
def EditKeepsRow (s : ListScreen) (i : ListInput) : Prop :=
  s.running = true → i.ch = 101 ∨ i.ch = 69 → 0 < s.count →
    ∀ entries, i.fetched = some entries →
      entries = [] ∨ s.selected < (entries.length : ℤ)

/-! ### Drawing shows the selected row -/

theorem adjustScroll_nonneg (selected listRows scroll : ℤ) :
    0 ≤ adjustScroll selected listRows scroll := by
  simp only [adjustScroll]
  split <;> omega

theorem adjustScroll_shows {selected listRows : ℤ} (hsel : 0 ≤ selected) (hrows : 1 ≤ listRows)
    (scroll : ℤ) :
    adjustScroll selected listRows scroll ≤ selected ∧
      selected < adjustScroll selected listRows scroll + listRows := by
  simp only [adjustScroll]
  split <;> split <;> split <;> omega

/-- What holds of an element, and of the ones before it, is not where the
prefix stops. -/
theorem mem_takeWhile_of_pairwise {α : Type*} {p : α → Bool} {l : List α} {a : α}
    (hl : l.Pairwise fun a b => p b = true → p a = true) (ha : a ∈ l) (hp : p a = true) :
    a ∈ l.takeWhile p := by
  induction l with
  | nil => exact ha
  | cons b l ih =>
      obtain ⟨hb, hl⟩ := List.pairwise_cons.mp hl
      rcases List.mem_cons.mp ha with rfl | hmem
      · simp [hp]
      · rw [List.takeWhile_cons_of_pos (hb a hmem hp)]
        exact List.mem_cons_of_mem _ (ih hl hmem)

theorem mem_drawn_iff {rows : ℤ} {s : ListScreen} {idx : ℤ} :
    idx ∈ s.drawn rows ↔
      (s.frame rows).scroll ≤ idx ∧ idx < (s.frame rows).scroll + (rows - 3) ∧ idx < s.count := by
  constructor
  · intro h
    have hlt : idx < s.count := by simpa using List.mem_takeWhile_imp h
    obtain ⟨n, hn, rfl⟩ := List.mem_map.mp (List.takeWhile_subset _ h)
    have hn' := List.mem_range.mp hn
    omega
  · rintro ⟨hge, hlt, hcount⟩
    refine mem_takeWhile_of_pairwise ?_ ?_ (by simpa using hcount)
    · refine List.pairwise_map.mpr (List.pairwise_lt_range.imp fun {m n} hmn => ?_)
      simp only [decide_eq_true_eq]
      omega
    · refine List.mem_map.mpr ⟨(idx - (s.frame rows).scroll).toNat, List.mem_range.mpr ?_, ?_⟩
      · omega
      · omega

/-! ### The selection after each branch -/

theorem ListScreen.InList.isSome_current {s : ListScreen} (h : s.InList) (hc : 0 < s.count) :
    s.current.isSome = true := by
  rcases h with h | ⟨hge, hlt⟩
  · omega
  · rw [ListScreen.current, if_neg (by omega)]
    have hlen : s.selected.toNat < s.entries.length := by
      simp only [ListScreen.count] at hlt
      omega
    simp [hlen]

theorem listInv_lastRow (s : ListScreen) : ListInv { s with selected := s.lastRow } := by
  have hcount : 0 ≤ s.count := Int.natCast_nonneg _
  by_cases h : 0 < s.count
  · have hlast : s.lastRow = s.count - 1 := if_pos h
    exact ⟨by show 0 ≤ s.lastRow; omega, Or.inr ⟨by show 0 ≤ s.lastRow; omega, by
      show s.lastRow < s.count; omega⟩⟩
  · have hlast : s.lastRow = 0 := if_neg h
    exact ⟨le_of_eq hlast.symm, Or.inl (by show s.count = 0; omega)⟩

theorem listInv_clamp {s : ListScreen} (h : 0 ≤ s.selected) : ListInv s.clamp := by
  rw [ListScreen.clamp]
  split
  · exact listInv_lastRow s
  · next hlt => exact ⟨h, Or.inr ⟨h, not_le.mp hlt⟩⟩

theorem listInv_up {s : ListScreen} (h : ListInv s) (hpos : 0 < s.selected) :
    ListInv { s with selected := s.selected - 1 } := by
  refine ⟨by show 0 ≤ s.selected - 1; omega, ?_⟩
  rcases h.inList with hzero | ⟨-, hlt⟩
  · exact Or.inl hzero
  · exact Or.inr ⟨by show 0 ≤ s.selected - 1; omega, by show s.selected - 1 < s.count; omega⟩

theorem listInv_down {s : ListScreen} (h : ListInv s) (hlt : s.selected < s.count - 1) :
    ListInv { s with selected := s.selected + 1 } := by
  have hge : 0 ≤ s.selected + 1 := by
    have := h.nonneg
    omega
  exact ⟨hge, Or.inr ⟨hge, by show s.selected + 1 < s.count; omega⟩⟩

@[simp] theorem reloadEntries_selected (fetched : Option (List DiaryEntry)) (s : ListScreen) :
    (reloadEntries fetched s).selected = s.selected := by
  cases fetched <;> rfl

/-- A reload keeps the selection in the list if it returns nothing, or
enough. -/
theorem inList_reload_iff {fetched : Option (List DiaryEntry)} {s : ListScreen}
    (h : 0 ≤ s.selected) :
    (reloadEntries fetched s).InList ↔
      ∀ entries, fetched = some entries → entries = [] ∨ s.selected < (entries.length : ℤ) := by
  cases fetched with
  | none => exact iff_of_true (Or.inl rfl) fun _ hnone => by cases hnone
  | some entries =>
      simp only [reloadEntries, ListScreen.InList, ListScreen.count, Option.some.injEq,
        forall_eq', Nat.cast_eq_zero, List.length_eq_zero_iff, h, true_and]

/-! ### One iteration -/

/-- The key E edits the selected entry, if there is one, and reloads. -/
theorem step_edit {s : ListScreen} {i : ListInput} (hrun : s.running = true)
    (hkey : i.ch = 101 ∨ i.ch = 69) (hc : 0 < s.count) :
    listStep s i
      = (reloadEntries i.fetched { s.frame i.rows with status := .none }, .edit s.current) := by
  have hc' : 0 < { s.frame i.rows with status := .none }.count := hc
  rw [listStep, if_pos hrun]
  rcases hkey with hkey | hkey <;>
    simp only [ListScreen.iterate, ListScreen.command, hkey, hc', keyUp, keyDown, keyMouse,
      keyEnter] <;> rfl

theorem inv_command {s : ListScreen} (h : ListInv s) {i : ListInput}
    (hkeep : i.ch = 101 ∨ i.ch = 69 → 0 < s.count → (reloadEntries i.fetched s).InList) :
    ListInv (s.command i).1 ∧ (s.command i).2.InList := by
  have hreload : 0 ≤ (reloadEntries i.fetched s).selected := by
    rw [reloadEntries_selected]
    exact h.nonneg
  rw [ListScreen.command]
  split
  · -- Enter
    split
    · next hc => exact ⟨h, h.inList.isSome_current hc⟩
    · exact ⟨h, trivial⟩
  split
  · -- N
    exact ⟨listInv_lastRow _, trivial⟩
  split
  · -- E, the only branch that relies on `hkeep`
    next hkey =>
    split
    · next hc => exact ⟨⟨hreload, hkeep hkey hc⟩, h.inList.isSome_current hc⟩
    · exact ⟨h, trivial⟩
  split
  · -- D
    split
    · next hc =>
      have hsome := h.inList.isSome_current hc
      split
      · refine ⟨listInv_clamp ?_, hsome⟩
        rw [reloadEntries_selected]
        exact h.nonneg
      · exact ⟨h, hsome⟩
    · exact ⟨h, trivial⟩
  split
  · -- R
    have hclamp := listInv_clamp hreload
    simp only
    split
    · exact ⟨⟨hclamp.nonneg, hclamp.inList⟩, trivial⟩
    · exact ⟨hclamp, trivial⟩
  · exact ⟨h, trivial⟩

theorem inv_iterate {s : ListScreen} (h : ListInv s) {i : ListInput}
    (hkeep : i.ch = 101 ∨ i.ch = 69 → 0 < s.count →
      (reloadEntries i.fetched { s.frame i.rows with status := .none }).InList) :
    ListInv (s.iterate i).1 ∧ (s.iterate i).2.InList := by
  have hframe : ListInv { s.frame i.rows with status := .none } := ⟨h.nonneg, h.inList⟩
  rw [ListScreen.iterate]
  simp only
  split
  · exact ⟨⟨h.nonneg, h.inList⟩, trivial⟩
  split
  · next hk => exact ⟨listInv_up hframe hk.2, trivial⟩
  split
  · next hk => exact ⟨listInv_down hframe hk.2, trivial⟩
  split
  · -- the wheel
    split
    · next hb => exact ⟨listInv_up hframe hb.2, trivial⟩
    split
    · next hb => exact ⟨listInv_down hframe hb.2, trivial⟩
    · exact ⟨hframe, trivial⟩
  · exact inv_command hframe hkeep

theorem edit_keeps_iff {s : ListScreen} (h : ListInv s) (i : ListInput) :
    (reloadEntries i.fetched { s.frame i.rows with status := .none }).InList ↔
      ∀ entries, i.fetched = some entries →
        entries = [] ∨ s.selected < (entries.length : ℤ) :=
  inList_reload_iff (s := { s.frame i.rows with status := .none }) h.nonneg

theorem inv_step {s : ListScreen} (h : ListInv s) {i : ListInput} (hkeep : EditKeepsRow s i) :
    ListInv (listStep s i).1 ∧ (listStep s i).2.InList := by
  rw [listStep]
  split
  · next hrun =>
    exact inv_iterate h fun hkey hc => (edit_keeps_iff h i).mpr (hkeep hrun hkey hc)
  · exact ⟨h, trivial⟩

/-- **One iteration** is sound exactly when an edit keeps the row. -/
theorem sound_iff_step {s : ListScreen} (h : ListInv s) (i : ListInput) :
    Sound s i ↔ EditKeepsRow s i := by
  constructor
  · intro hsound hrun hkey hc
    have hnext := hsound.next
    rw [step_edit hrun hkey hc] at hnext
    exact (edit_keeps_iff h i).mp hnext
  · intro hkeep
    obtain ⟨hinv, hreads⟩ := inv_step h hkeep
    have hscroll : 0 ≤ (s.frame i.rows).scroll := adjustScroll_nonneg _ _ _
    refine ⟨hreads, ?_, ?_, hinv.inList⟩
    · intro hrows hc
      have hshows := adjustScroll_shows h.nonneg hrows s.scroll
      refine mem_drawn_iff.mpr ⟨hshows.1, hshows.2, ?_⟩
      rcases h.inList with h0 | hlt
      · exact absurd h0 hc
      · exact hlt.2
    · intro idx hidx
      obtain ⟨hge, -, hlt⟩ := mem_drawn_iff.mp hidx
      exact ⟨le_trans hscroll hge, hlt⟩

/-! ### Whole runs -/

theorem listInv_opened (fetched : Option (List DiaryEntry)) :
    ListInv (ListScreen.opened fetched) := by
  have hsel : (ListScreen.opened fetched).selected = 0 := reloadEntries_selected _ _
  refine ⟨le_of_eq hsel.symm, ?_⟩
  rw [ListScreen.opened, inList_reload_iff (le_refl _)]
  rintro entries -
  rcases entries with - | ⟨e, es⟩
  · exact Or.inl rfl
  · exact Or.inr (by simp)

/-- **The list screen never indexes outside the list** exactly in the runs
in which every reload after an edit keeps the selected row, or returns
nothing. -/
theorem selected_in_list_iff (fetched : Option (List DiaryEntry)) (run : List ListInput) :
    (ListScreen.opened fetched).InList ∧
      (Throughout listStep Sound (ListScreen.opened fetched) run ↔
        Throughout listStep EditKeepsRow (ListScreen.opened fetched) run) :=
  ⟨(listInv_opened fetched).inList,
    throughout_congr (I := ListInv) (fun _ i h => sound_iff_step h i)
      (fun _ i h hsound => (inv_step h ((sound_iff_step h i).mp hsound)).1)
      (listInv_opened fetched) run⟩

/-- Two entries, the second selected and edited, while another session
deletes one: the next Enter reads `entries[1]` of a list of one. -/
theorem edit_leaves_selection_behind :
    let e (id : Int32) : DiaryEntry := ⟨id, 5, lit "text"⟩
    let press (ch : ℤ) (fetched : List DiaryEntry) : ListInput :=
      ⟨24, ch, false, false, 0, false, some fetched⟩
    let s₀ := ListScreen.opened (some [e 2, e 1])
    let run := [press 106 [], press 101 [e 2]]
    (final listStep s₀ run).selected = 1 ∧ (final listStep s₀ run).count = 1 ∧
      (listStep (final listStep s₀ run) (press 10 [])).2 = .view none ∧
      ¬ Throughout listStep Sound s₀ run := by
  intro e press s₀ run
  refine ⟨by decide, by decide, by decide, ?_⟩
  rintro ⟨-, hsound, -⟩
  have hnext : (final listStep s₀ run).InList := hsound.next
  exact absurd hnext (by rintro (h | ⟨-, h⟩) <;> exact absurd h (by decide))

end Diary
