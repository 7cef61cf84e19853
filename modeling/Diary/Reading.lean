/-
Diary/Reading.lean

Reading an entry in the terminal client: the list, the key that opens the
viewer, and the frames of the viewer, in runs of the whole program.

The viewer gets a pointer into the list and lays the text out in every frame.
While it is open the list is not loaded again, so the entry it shows is the
one selected, and that one is a row of the database
(`viewer_shows_stored`).
-/
import Diary.EditorScreen
import Diary.Tui

namespace Diary

open CString CodeText Machine Wrap

variable {ν : Type*}

/-! ### The key that opens the viewer -/

/-- Only ENTER opens the viewer, on the entry that is and stays selected. -/
theorem listStep_view {s : ListScreen} {i : ListInput} {x : Option DiaryEntry}
    (h : (listStep s i).2 = .view x) : x = s.current ∧ (listStep s i).1.current = s.current := by
  revert h
  rw [listStep]
  split
  swap
  · intro h
    cases h
  simp only [ListScreen.iterate]
  split
  · intro h
    cases h
  split
  · intro h
    cases h
  split
  · intro h
    cases h
  split
  · -- the wheel
    split
    · intro h
      cases h
    split
    · intro h
      cases h
    · intro h
      cases h
  simp only [ListScreen.command]
  split
  · -- ENTER
    split
    · intro h
      exact ⟨(ListAct.view.inj h).symm, rfl⟩
    · intro h
      cases h
  split
  · intro h
    cases h
  split
  · split
    · intro h
      cases h
    · intro h
      cases h
  split
  · split
    · split
      · intro h
        cases h
      · intro h
        cases h
    · intro h
      cases h
  split
  · intro h
    cases h
  · intro h
    cases h

/-! ### What the viewer shows -/

/-- A frame of the viewer writes the rows in view. -/
theorem calls_frame {v : Viewer} {cs : List Char} (htext : v.text = encode String.utf8EncodeChar cs)
    (htop : 0 ≤ v.viewTop) (i : ViewInput) :
    (v.frame i).glyphs.map (fun g => (g.vrow - v.viewTop + 1, g.vcol, g.bytes))
      = placesOf String.utf8EncodeChar 1
        (((wrapped i.size.cols cs).drop v.viewTop.toNat).take (i.size.rows - 2).toNat) := by
  have hcalls := calls_draw i.size v.viewTop.toNat cs
  rw [Int.toNat_of_nonneg htop, ← htext] at hcalls
  exact hcalls

/-- The viewer is on the entry that is selected, and not above its first row. -/
def Tui.Reading (s : Tui) : Prop :=
  ∀ v, s.screen = .view v → 0 ≤ v.viewTop ∧ ∃ e, s.list.current = some e ∧ v.text = e.text

theorem reading_of_no_view {s : Tui} (h : ∀ v, s.screen ≠ .view v) : s.Reading :=
  fun v hv => absurd hv (h v)

theorem reading_reload (P : Proto ν) (user : Bytes) (get : CallEnv ν) (i : ListInput) (s : Tui) :
    (s.reload P user get i).Reading := by
  apply reading_of_no_view
  intro v hv
  cases hv

variable {P : Proto ν} {user : Bytes} {t : Int64}

theorem reading_listKey {s : Tui} (hlist : s.screen = .list) (k : ListKey ν) :
    (s.listKey P user k).Reading := by
  have hstay : Tui.Reading { s with list := (listStep s.list k.inp).1 } := by
    apply reading_of_no_view
    intro v hv
    rw [show s.screen = .view v from hv] at hlist
    cases hlist
  rw [Tui.listKey]
  split
  · exact reading_of_no_view fun v hv => by cases hv
  · exact reading_of_no_view fun v hv => by cases hv
  · exact reading_of_no_view fun v hv => by cases hv
  · -- the viewer opens
    next e hact =>
      obtain ⟨hcurrent, hstays⟩ := listStep_view hact
      intro v hv
      obtain rfl := TuiScreen.view.inj hv
      exact ⟨le_rfl, e, hstays.trans hcurrent.symm, rfl⟩
  · exact reading_of_no_view fun v hv => by cases hv
  · exact reading_of_no_view fun v hv => by cases hv
  · split
    · exact reading_reload P user k.get _ _
    · exact hstay
  · split
    · exact reading_reload P user k.get k.inp s
    · exact hstay
  · split
    · exact reading_reload P user k.get k.inp s
    · exact hstay

/-- A key of the viewer keeps the text, and the view on it. -/
theorem viewStep_text {v : Viewer} (htop : 0 ≤ v.viewTop) (i : ViewInput) :
    (viewStep v i).1.text = v.text ∧ 0 ≤ (viewStep v i).1.viewTop := by
  rw [viewStep]
  split
  · rcases key_cases { v with rows := i.size.rows, cols := i.size.cols } i with h | ⟨top, h, hle⟩
    · rw [h]
      exact ⟨rfl, htop⟩
    · rw [h]
      exact ⟨rfl, (hle htop).1⟩
  · exact ⟨rfl, htop⟩

/-- **Step lemma.** -/
theorem reading_step {s : Tui} (h : s.Reading) (ev : TuiEvent ν) :
    (tuiStep P user t s ev).1.Reading := by
  obtain ⟨list, screen, world⟩ := s
  cases ev with
  | list k =>
      cases screen with
      | list => exact reading_listKey rfl k
      | view | edit | outside => exact h
  | view i =>
      cases screen with
      | view v =>
          -- neither the list nor the selection changes behind the viewer
          obtain ⟨htop, e, he, htext⟩ := h v rfl
          obtain ⟨hkeep, htop'⟩ := viewStep_text htop i
          intro v' hv'
          change (if (viewStep v i).1.running then TuiScreen.view (viewStep v i).1 else .list)
            = .view v' at hv'
          split at hv'
          · obtain rfl := TuiScreen.view.inj hv'
            exact ⟨htop', e, he, hkeep.trans htext⟩
          · cases hv'
      | list | edit | outside => exact h
  | edit ev get =>
      cases screen with
      | edit i e =>
          show (Tui.editKey P user t i e ev get ⟨list, .edit i e, world⟩).Reading
          rw [Tui.editKey]
          simp only
          split
          · exact reading_of_no_view fun v hv => by cases hv
          · exact reading_reload P user get i _
      | list | view | outside => exact h
  | other r => exact h

/-- **Reading shows what is stored.**  In every run of the program as in
`screen_shows_database`, when the viewer is open the selected entry is one of
the user's rows, as the client splits and opens it, and in every frame, at any
size of at least 3 rows and 2 columns, the calls in the text area write
exactly the rows of its text from the top of the view on, one column for each
character. -/
theorem viewer_shows_stored {P : Proto ν} (hP : P.Lawful) (user : Bytes) (t : Int64)
    (get : CallEnv ν) (hget : get.Allocates) (db : Db) (hloads : Loads P user db)
    (run : List (TuiEvent ν)) (hrun : ∀ ev ∈ run, SoleWriter user ev)
    (hids : (final (tuiStep P user t) (Tui.opened P user get db) run).world.db.entries.seq
      < 2 ^ 31) {v : Viewer}
    (hview : (final (tuiStep P user t) (Tui.opened P user get db) run).screen = .view v) :
    let s := final (tuiStep P user t) (Tui.opened P user get db) run
    ∃ e, s.list.current = some e ∧ (∃ l ∈ s.db.view user, l.split P = some e) ∧
      ∀ (cs : List Char) (i : ViewInput), e.text = encode String.utf8EncodeChar cs →
        (v.frame i).glyphs.map (fun g => (g.vrow - v.viewTop + 1, g.vcol, g.bytes))
          = placesOf String.utf8EncodeChar 1
            (((wrapped i.size.cols cs).drop v.viewTop.toNat).take (i.size.rows - 2).toNat) := by
  intro s
  have hopened : (Tui.opened P user get db).Reading :=
    reading_of_no_view fun v hv => by cases hv
  have hreading : s.Reading :=
    final_invariant (I := Tui.Reading) (fun _ ev h => reading_step h ev) hopened run
  obtain ⟨htop, e, he, htext⟩ := hreading v hview
  have hinv : TuiInv P user s := tuiInv_run hP hget hloads hrun hids
  have hfetched := hinv.screen
  rw [show s.screen = .view v from hview] at hfetched
  obtain ⟨arr, harr, hes⟩ := hfetched
  refine ⟨e, he, ?_, fun cs i hcs => calls_frame (htext.trans hcs) htop i⟩
  -- the entry came from a row
  have hmem : e ∈ arr := by
    have hmem := current_mem he
    rw [hes] at hmem
    exact (sortNewestFirst_perm arr).mem_iff.mp hmem
  have hsome : some e ∈ arr.map some := List.mem_map_of_mem hmem
  rw [← harr] at hsome
  obtain ⟨l, hl, hsplit⟩ := List.mem_map.mp hsome
  exact ⟨l, List.mem_of_mem_take hl, hsplit⟩

/-- ENTER on the list of one entry. -/
theorem viewer_shows_stored_hi :
    let enter : TuiEvent Unit :=
      .list ⟨⟨24, 10, false, false, 0, false, none⟩, ⟨24, 80, by decide, by decide⟩, hiEnv, hiEnv⟩
    let s := final (tuiStep taggingProto (lit "alice") 0)
      (Tui.opened taggingProto (lit "alice") hiEnv hiDb) [enter]
    ∃ v e, s.screen = .view v ∧ s.list.current = some e ∧
      ∃ l ∈ s.db.view (lit "alice"), l.split taggingProto = some e := by
  intro enter s
  have hloads : Loads taggingProto (lit "alice") hiDb := by
    show ∀ l ∈ [_], _
    decide
  have hrun : ∀ ev ∈ [enter], SoleWriter (lit "alice") ev := by
    intro ev hev
    obtain rfl := List.mem_singleton.mp hev
    exact hiEnv_allocates
  have hopen : (match s.screen with | .view _ => true | _ => false) = true := by decide +kernel
  rcases hscreen : s.screen with - | v | ⟨i, e⟩ | -
  · rw [hscreen] at hopen
    cases hopen
  · obtain ⟨e, he, hl, -⟩ := viewer_shows_stored taggingProto_lawful (lit "alice") 0 hiEnv
      hiEnv_allocates hiDb hloads [enter] hrun (by decide +kernel) hscreen
    exact ⟨v, e, rfl, he, hl⟩
  · rw [hscreen] at hopen
    cases hopen
  · rw [hscreen] at hopen
    cases hopen

end Diary
