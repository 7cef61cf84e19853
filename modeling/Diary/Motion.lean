/-
Diary/Motion.lean

The keys of `screen_editor` that move the cursor by the layout of the text:
HOME, END, UP and DOWN.  Each looks a visual position up with `vpos_to_idx`
(`Editor.target`).

Where the position has no index, `vpos_to_idx` falls back to the last index
of the row.  That is right for a column beyond the row, and wrong for
column 0 of a row that a soft wrap began: there the search passes the first
index, at column 1.  `motionLands_iff` says that this is the one case in
which a key does not land where it should.
-/
import Diary.Layout

namespace Diary

open CString Wrap

/-! ### Visual rows -/

/-- A boundary on the visual row `r`. -/
def OnVrow (buf : Bytes) (cols r : ℤ) (i : ℕ) : Prop :=
  Boundary buf i ∧ (getVpos buf i cols).1 = r

def FirstOfVrow (buf : Bytes) (cols r : ℤ) (i : ℕ) : Prop :=
  OnVrow buf cols r i ∧ ∀ k, OnVrow buf cols r k → i ≤ k

def LastOfVrow (buf : Bytes) (cols r : ℤ) (i : ℕ) : Prop :=
  OnVrow buf cols r i ∧ ∀ k, OnVrow buf cols r k → k ≤ i

/-- The boundary of the row with the greatest column up to `c`, or the first
of the row if there is none. -/
def NearestOnVrow (buf : Bytes) (cols r c : ℤ) (i : ℕ) : Prop :=
  (OnVrow buf cols r i ∧ (getVpos buf i cols).2 ≤ c ∧
      ∀ k, OnVrow buf cols r k → (getVpos buf k cols).2 ≤ c →
        (getVpos buf k cols).2 ≤ (getVpos buf i cols).2) ∨
    (FirstOfVrow buf cols r i ∧ ∀ k, OnVrow buf cols r k → c < (getVpos buf k cols).2)

/-- A soft wrap began the row, which has more than one boundary. -/
def WrappedRow (buf : Bytes) (cols r : ℤ) : Prop :=
  (∀ i, Boundary buf i → getVpos buf i cols ≠ (r, 0)) ∧
    ∃ i j, i ≠ j ∧ OnVrow buf cols r i ∧ OnVrow buf cols r j

theorem onVrow_iff {buf : Bytes} {cols r : ℤ} {i : ℕ} :
    OnVrow buf cols r i ↔ (byteRule cols).OnRow buf r i := by
  rw [OnVrow, boundary_iff cols, getVpos_eq]
  rfl

theorem firstOfVrow_iff {buf : Bytes} {cols r : ℤ} {i : ℕ} :
    FirstOfVrow buf cols r i ↔ (byteRule cols).First buf r i := by
  simp only [FirstOfVrow, Rule.First, onVrow_iff]

theorem lastOfVrow_iff {buf : Bytes} {cols r : ℤ} {i : ℕ} :
    LastOfVrow buf cols r i ↔ (byteRule cols).Last buf r i := by
  simp only [LastOfVrow, Rule.Last, onVrow_iff]

theorem nearestOnVrow_iff {buf : Bytes} {cols r c : ℤ} {i : ℕ} :
    NearestOnVrow buf cols r c i ↔ (byteRule cols).Nearest buf r c i := by
  simp only [NearestOnVrow, Rule.Nearest, onVrow_iff, firstOfVrow_iff, getVpos_eq]

theorem not_wrappedRow_iff {buf : Bytes} {cols r : ℤ} :
    ¬ WrappedRow buf cols r ↔
      ((byteRule cols).Wrapped buf r → (byteRule cols).Single buf r) := by
  have hwrapped : (∀ i, Boundary buf i → getVpos buf i cols ≠ (r, 0)) ↔
      (byteRule cols).Wrapped buf r := by
    simp only [Rule.Wrapped, boundary_iff cols, getVpos_eq]
  have hsingle : (∃ i j, i ≠ j ∧ OnVrow buf cols r i ∧ OnVrow buf cols r j) ↔
      ¬ (byteRule cols).Single buf r := by
    simp only [Rule.Single, onVrow_iff, not_forall]
    constructor
    · rintro ⟨i, j, hne, hi, hj⟩
      exact ⟨i, j, hi, hj, hne⟩
    · rintro ⟨i, j, hi, hj, hne⟩
      exact ⟨i, j, hne, hi, hj⟩
  rw [WrappedRow, hwrapped, hsingle, not_and, not_not]

/-- **When `vpos_to_idx` finds the nearest boundary.**  On a row that exists,
unless it looks for column 0 of a wrapped row. -/
theorem nearestOnVrow_vposToIdx_iff {buf : Bytes} {cols r c : ℤ} (hrow : ∃ i, OnVrow buf cols r i)
    (hc : 0 ≤ c) :
    NearestOnVrow buf cols r c (vposToIdx buf cols r c) ↔ (c = 0 → ¬ WrappedRow buf cols r) := by
  obtain ⟨i, hi⟩ := hrow
  rw [nearestOnVrow_iff, not_wrappedRow_iff, vposToIdx_eq]
  exact nearest_scan_iff (onVrow_iff.mp hi) hc

/-! ### The keys -/

/-- The visual position a key looks up. -/
def Editor.target (e : Editor) (inp : EditorInput) : ℤ × ℤ :=
  if inp.ch = keyHome then (e.curVrow inp.cols, 0)
  else if inp.ch = keyEnd then (e.curVrow inp.cols, inp.cols)
  else if inp.ch = keyUp then (e.curVrow inp.cols - 1, e.curVcol inp.cols)
  else (e.curVrow inp.cols + 1, e.curVcol inp.cols)

/-- Where the keys should move the cursor. -/
structure Lands (e : Editor) (inp : EditorInput) (cursor : ℕ) : Prop where
  home : inp.ch = keyHome → FirstOfVrow e.buf inp.cols (e.curVrow inp.cols) cursor
  last : inp.ch = keyEnd → LastOfVrow e.buf inp.cols (e.curVrow inp.cols) cursor
  up : inp.ch = keyUp → 0 < e.curVrow inp.cols →
    NearestOnVrow e.buf inp.cols (e.curVrow inp.cols - 1) (e.curVcol inp.cols) cursor
  down : inp.ch = keyDown → (∃ i, OnVrow e.buf inp.cols (e.curVrow inp.cols + 1) i) →
    NearestOnVrow e.buf inp.cols (e.curVrow inp.cols + 1) (e.curVcol inp.cols) cursor
  bottom : inp.ch = keyDown → (¬ ∃ i, OnVrow e.buf inp.cols (e.curVrow inp.cols + 1) i) →
    cursor = e.buf.length

/-- The iteration of a key moves the cursor where it should. -/
def MotionLands (e : Editor) (inp : EditorInput) : Prop :=
  ∃ e', e.iterate inp = .continue e' ∧ Lands e inp e'.cursor

/-- Where a key moves the cursor: UP on the first row does nothing, else the
target is looked up. -/
def Editor.moved (e : Editor) (inp : EditorInput) : ℕ :=
  if inp.ch = keyUp ∧ ¬ 0 < e.curVrow inp.cols then e.cursor
  else vposToIdx e.buf inp.cols (e.target inp).1 (e.target inp).2

theorem moved_eq {e : Editor} {inp : EditorInput} (h : inp.ch ≠ keyUp) :
    e.moved inp = vposToIdx e.buf inp.cols (e.target inp).1 (e.target inp).2 :=
  if_neg fun hup => h hup.1

theorem iterate_motion {inp : EditorInput} (h : inp.ch ∈ CharEvent.move.keys) (e : Editor) :
    ∃ e', e.iterate inp = .continue e' ∧ e'.cursor = e.moved inp := by
  have hsession : ∀ ch ∈ CharEvent.move.keys, ch ∉ sessionKeys := by decide
  have hch : inp.ch = keyUp ∨ inp.ch = keyDown ∨ inp.ch = keyHome ∨ inp.ch = keyEnd := by
    simpa [CharEvent.keys] using h
  rw [iterate_eq_navigationKey (hsession _ h)]
  rcases hch with hch | hch | hch | hch
  · -- UP, which stays in the first row
    by_cases hrow : 0 < e.curVrow inp.cols
    · refine ⟨(e.frame inp.rows inp.cols).goTo inp.cols (e.curVrow inp.cols - 1)
        (e.curVcol inp.cols), ?_, ?_⟩
      · rw [Editor.navigationKey, if_pos hch]
        exact congrArg Outcome.continue (if_pos hrow)
      · rw [Editor.moved, if_neg fun h => h.2 hrow, Editor.target, hch]
        rfl
    · refine ⟨e.frame inp.rows inp.cols, ?_, ?_⟩
      · rw [Editor.navigationKey, if_pos hch]
        exact congrArg Outcome.continue (if_neg hrow)
      · rw [Editor.moved, if_pos ⟨hch, hrow⟩]
        rfl
  · -- DOWN
    refine ⟨(e.frame inp.rows inp.cols).goTo inp.cols (e.curVrow inp.cols + 1)
      (e.curVcol inp.cols), ?_, ?_⟩
    · rw [Editor.navigationKey, hch]
      rfl
    · rw [Editor.moved, Editor.target, hch]
      rfl
  · -- HOME
    refine ⟨(e.frame inp.rows inp.cols).goTo inp.cols (e.curVrow inp.cols) 0, ?_, ?_⟩
    · rw [Editor.navigationKey, hch]
      rfl
    · rw [Editor.moved, Editor.target, hch]
      rfl
  · -- END aims past the last column
    refine ⟨(e.frame inp.rows inp.cols).goTo inp.cols (e.curVrow inp.cols) inp.cols, ?_, ?_⟩
    · rw [Editor.navigationKey, hch]
      rfl
    · rw [Editor.moved, Editor.target, hch]
      rfl

theorem motionLands_iff_lands {inp : EditorInput} (h : inp.ch ∈ CharEvent.move.keys)
    (e : Editor) :
    MotionLands e inp ↔ Lands e inp (e.moved inp) := by
  obtain ⟨e', hiter, hcursor⟩ := iterate_motion h e
  rw [← hcursor]
  constructor
  · rintro ⟨e'', hiter', hlands⟩
    obtain rfl : e' = e'' := by
      rw [hiter] at hiter'
      exact Outcome.continue.inj hiter'
    exact hlands
  · exact fun hlands => ⟨e', hiter, hlands⟩

/-- No row is above the first one. -/
theorem not_onVrow_of_neg {buf : Bytes} {cols r : ℤ} (hr : r < 0) (i : ℕ) :
    ¬ OnVrow buf cols r i := by
  rintro ⟨-, hrow⟩
  rw [getVpos_eq] at hrow
  have hle := row_le (byteRule cols) buf (Nat.zero_le i)
  rw [pos_zero, hrow] at hle
  exact absurd hr (not_lt.mpr hle)

theorem not_wrappedRow_of_no_row {buf : Bytes} {cols r : ℤ} (h : ∀ i, ¬ OnVrow buf cols r i) :
    ¬ WrappedRow buf cols r := by
  rintro ⟨-, i, -, -, hi, -⟩
  exact h i hi

theorem curVcol_nonneg (e : Editor) (cols : ℤ) : 0 ≤ e.curVcol cols := by
  rw [Editor.curVcol, getVpos_eq]
  exact column_nonneg _ _ _

/-! What `Lands` says of each key. -/

section Lands

variable {e : Editor} {inp : EditorInput} {cursor : ℕ}

theorem lands_up_iff (h : inp.ch = keyUp) : Lands e inp cursor ↔ (0 < e.curVrow inp.cols →
    NearestOnVrow e.buf inp.cols (e.curVrow inp.cols - 1) (e.curVcol inp.cols) cursor) := by
  constructor
  · exact fun hlands => hlands.up h
  · intro hup
    constructor
    · exact fun hhome => absurd (h.symm.trans hhome) (by decide)
    · exact fun hend => absurd (h.symm.trans hend) (by decide)
    · exact fun _ => hup
    · exact fun hdown => absurd (h.symm.trans hdown) (by decide)
    · exact fun hdown => absurd (h.symm.trans hdown) (by decide)

theorem lands_down_iff (h : inp.ch = keyDown) : Lands e inp cursor ↔
    ((∃ i, OnVrow e.buf inp.cols (e.curVrow inp.cols + 1) i) →
      NearestOnVrow e.buf inp.cols (e.curVrow inp.cols + 1) (e.curVcol inp.cols) cursor) ∧
    ((¬ ∃ i, OnVrow e.buf inp.cols (e.curVrow inp.cols + 1) i) → cursor = e.buf.length) := by
  constructor
  · exact fun hlands => ⟨hlands.down h, hlands.bottom h⟩
  · rintro ⟨hdown, hbottom⟩
    constructor
    · exact fun hhome => absurd (h.symm.trans hhome) (by decide)
    · exact fun hend => absurd (h.symm.trans hend) (by decide)
    · exact fun hup => absurd (h.symm.trans hup) (by decide)
    · exact fun _ => hdown
    · exact fun _ => hbottom

theorem lands_home_iff (h : inp.ch = keyHome) :
    Lands e inp cursor ↔ FirstOfVrow e.buf inp.cols (e.curVrow inp.cols) cursor := by
  constructor
  · exact fun hlands => hlands.home h
  · intro hhome
    constructor
    · exact fun _ => hhome
    · exact fun hend => absurd (h.symm.trans hend) (by decide)
    · exact fun hup => absurd (h.symm.trans hup) (by decide)
    · exact fun hdown => absurd (h.symm.trans hdown) (by decide)
    · exact fun hdown => absurd (h.symm.trans hdown) (by decide)

theorem lands_end_iff (h : inp.ch = keyEnd) :
    Lands e inp cursor ↔ LastOfVrow e.buf inp.cols (e.curVrow inp.cols) cursor := by
  constructor
  · exact fun hlands => hlands.last h
  · intro hend
    constructor
    · exact fun hhome => absurd (h.symm.trans hhome) (by decide)
    · exact fun _ => hend
    · exact fun hup => absurd (h.symm.trans hup) (by decide)
    · exact fun hdown => absurd (h.symm.trans hdown) (by decide)
    · exact fun hdown => absurd (h.symm.trans hdown) (by decide)

end Lands

/-- Rows up to the last one exist. -/
theorem exists_onVrow_of_le {buf : Bytes} {cols r : ℤ} {i : ℕ} (hi : OnVrow buf cols r i)
    {q : ℤ} (h0 : 0 ≤ q) (hq : q < r) : ∃ j, OnVrow buf cols q j := by
  obtain ⟨hstart, hrow⟩ := onVrow_iff.mp hi
  obtain ⟨m, -, -, -, -, hm, hmr, -⟩ := exists_row_end (R := byteRule cols) (s := buf) (r := q)
    (Nat.zero_le i) (by rw [pos_zero]; exact h0) (by rw [hrow]; exact hq)
  exact ⟨m, onVrow_iff.mpr ⟨hm, hmr⟩⟩

theorem forall_row_iff {a c : ℤ} {Q : ℤ → Prop} :
    (∀ r, (a, c) = (r, 0) → Q r) ↔ (c = 0 → Q a) := by
  constructor
  · rintro h rfl
    exact h a rfl
  · rintro h r heq
    obtain ⟨rfl, hzero⟩ := Prod.mk.inj heq
    exact h hzero

/-! One lemma for each key, on a cursor between two characters. -/

section Keys

variable {e : Editor} {inp : EditorInput}

theorem lands_moved_up_iff (hkey : inp.ch = keyUp) (hcursor : Boundary e.buf e.cursor) :
    Lands e inp (e.moved inp) ↔ ∀ r, e.target inp = (r, 0) → ¬ WrappedRow e.buf inp.cols r := by
  have htarget : e.target inp = (e.curVrow inp.cols - 1, e.curVcol inp.cols) := by
    rw [Editor.target, hkey]
    rfl
  rw [lands_up_iff hkey, Editor.moved, htarget, forall_row_iff]
  by_cases hrow : 0 < e.curVrow inp.cols
  · have habove : ∃ i, OnVrow e.buf inp.cols (e.curVrow inp.cols - 1) i :=
      exists_onVrow_of_le ⟨hcursor, rfl⟩ (Int.sub_nonneg_of_le hrow) (sub_one_lt _)
    rw [if_neg fun h => h.2 hrow, nearestOnVrow_vposToIdx_iff habove (curVcol_nonneg e inp.cols)]
    exact imp_iff_right hrow
  · refine iff_of_true (fun h => absurd h hrow) fun _ => ?_
    exact not_wrappedRow_of_no_row (not_onVrow_of_neg (by omega))

theorem lands_moved_down_iff (hkey : inp.ch = keyDown) :
    Lands e inp (e.moved inp) ↔ ∀ r, e.target inp = (r, 0) → ¬ WrappedRow e.buf inp.cols r := by
  have hne : inp.ch ≠ keyUp := by
    rw [hkey]
    decide
  have htarget : e.target inp = (e.curVrow inp.cols + 1, e.curVcol inp.cols) := by
    rw [Editor.target, hkey]
    rfl
  rw [lands_down_iff hkey, moved_eq hne, htarget, forall_row_iff]
  by_cases hbelow : ∃ i, OnVrow e.buf inp.cols (e.curVrow inp.cols + 1) i
  · rw [nearestOnVrow_vposToIdx_iff hbelow (curVcol_nonneg e inp.cols)]
    constructor
    · exact fun h => h.1 hbelow
    · exact fun h => ⟨fun _ => h, fun hnone => absurd hbelow hnone⟩
  · have hnone := not_exists.mp hbelow
    refine iff_of_true ⟨fun h => absurd h hbelow, fun _ => ?_⟩ fun _ => ?_
    · rw [vposToIdx_eq]
      exact scan_of_no_row fun k hk => hnone k (onVrow_iff.mpr hk)
    · exact not_wrappedRow_of_no_row hnone

theorem lands_moved_home_iff (hkey : inp.ch = keyHome) (hcursor : Boundary e.buf e.cursor) :
    Lands e inp (e.moved inp) ↔ ∀ r, e.target inp = (r, 0) → ¬ WrappedRow e.buf inp.cols r := by
  have hne : inp.ch ≠ keyUp := by
    rw [hkey]
    decide
  have htarget : e.target inp = (e.curVrow inp.cols, 0) := by
    rw [Editor.target, hkey]
    rfl
  have hcur : OnVrow e.buf inp.cols (e.curVrow inp.cols) e.cursor := ⟨hcursor, rfl⟩
  rw [lands_home_iff hkey, moved_eq hne, htarget, forall_row_iff, firstOfVrow_iff,
    ← nearest_zero_iff, ← nearestOnVrow_iff]
  exact nearestOnVrow_vposToIdx_iff ⟨e.cursor, hcur⟩ (le_refl 0)

theorem lands_moved_end (hkey : inp.ch = keyEnd) (hcols : 2 ≤ inp.cols)
    (hcursor : Boundary e.buf e.cursor) : Lands e inp (e.moved inp) := by
  have hne : inp.ch ≠ keyUp := by
    rw [hkey]
    decide
  have htarget : e.target inp = (e.curVrow inp.cols, inp.cols) := by
    rw [Editor.target, hkey]
    rfl
  have hcur : OnVrow e.buf inp.cols (e.curVrow inp.cols) e.cursor := ⟨hcursor, rfl⟩
  rw [lands_end_iff hkey, moved_eq hne, htarget, lastOfVrow_iff, vposToIdx_eq]
  -- no column of the text is beyond `cols - 1`
  apply last_scan_of_width_lt _ _ (onVrow_iff.mp hcur)
  · simp only [byteRule]
    omega
  · simp only [byteRule]
    omega

end Keys

/-- **When a motion key lands where it should.**  On every buffer, for every
cursor between two characters and every number of columns from 2 on: exactly
if it does not look for column 0 of a row that a soft wrap began and that
has more than one index. -/
theorem motionLands_iff (e : Editor) (inp : EditorInput) (hcols : 2 ≤ inp.cols)
    (hcursor : Boundary e.buf e.cursor) (hch : inp.ch ∈ CharEvent.move.keys) :
    MotionLands e inp ↔ ∀ r, e.target inp = (r, 0) → ¬ WrappedRow e.buf inp.cols r := by
  rw [motionLands_iff_lands hch]
  have hkeys : inp.ch = keyUp ∨ inp.ch = keyDown ∨ inp.ch = keyHome ∨ inp.ch = keyEnd := by
    simpa [CharEvent.keys] using hch
  rcases hkeys with hkey | hkey | hkey | hkey
  · exact lands_moved_up_iff hkey hcursor
  · exact lands_moved_down_iff hkey
  · exact lands_moved_home_iff hkey hcursor
  · refine iff_of_true (lands_moved_end hkey hcols hcursor) fun r heq => ?_
    have hzero : inp.cols = 0 := by
      rw [Editor.target, hkey] at heq
      exact congrArg Prod.snd heq
    omega

/-- An editor on `hist`, three columns wide, with the cursor at the end: its
last two characters are on a row that a soft wrap began. -/
def wrappedHist : Editor := Editor.opened 7 (some (lit "hist"))

/-- UP goes from the end of the text to the end of the row above. -/
theorem motionLands_up : MotionLands wrappedHist ⟨24, 3, keyUp, .other, true⟩ := by
  refine (motionLands_iff wrappedHist _ (by decide) (Or.inl (by decide)) (by decide)).mpr ?_
  intro r h
  have hcol : (wrappedHist.target ⟨24, 3, keyUp, .other, true⟩).2 = 0 := congrArg Prod.snd h
  exact absurd hcol (by decide)

/-- HOME stays where it is, at the end of the row. -/
theorem not_motionLands_home : ¬ MotionLands wrappedHist ⟨24, 3, keyHome, .other, true⟩ := by
  rintro ⟨e', hiter, hlands⟩
  have hcursor : e'.cursor = 4 := by
    rw [← Outcome.continue.inj hiter]
    decide
  -- the `t` is on the row too, and comes first
  have hrow : OnVrow wrappedHist.buf 3 (wrappedHist.curVrow 3) 3 :=
    ⟨Or.inr ⟨116, by decide, by decide⟩, by decide⟩
  have hle := (hlands.home rfl).2 3 hrow
  omega

end Diary
