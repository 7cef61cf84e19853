/-
Diary/ViewScreen.lean

client/ui.c, `screen_view`: the viewer of an entry.

It counts the rows of the text once, when it opens, and reads the size of
the terminal in every iteration.  The branches that scroll down compare with
the rows counted, the draw loop lays the text out anew.  As long as the two
agree the view stays on the text and can reach its end
(`viewer_sound_of_steady`), and the status line numbers the rows in view
(`showsVrow_iff_indicator`); once the terminal was resized they need not.
`viewer_sound_iff` says of which runs every frame is as it should be.
-/
import Diary.Layout

namespace Diary

open CString CodeText Machine

/-! ### The state of the viewer -/

/-- A terminal with room for a row of text and for a character beside the
wrap. -/
structure TermSize where
  rows : ℤ
  cols : ℤ
  rows_ge : 3 ≤ rows
  cols_ge : 2 ≤ cols

/-- The variables of `screen_view`; `rows` and `cols` are those of the last
call of `getmaxyx`. -/
structure Viewer where
  text : Bytes
  totalVrows : ℤ
  viewTop : ℤ
  rows : ℤ
  cols : ℤ
  running : Bool

/-- `screen_view` before its loop. -/
def Viewer.opened (text : Bytes) (size : TermSize) : Viewer :=
  { text := text
    totalVrows := Diary.totalVrows text size.cols
    viewTop := 0
    rows := size.rows
    cols := size.cols
    running := true }

/-- What one iteration reads. -/
structure ViewInput where
  size : TermSize
  /-- `wgetch` -/
  ch : ℤ
  wheel : Wheel

/-! ### Drawing -/

/-- The screen has a line for a visual row. -/
def showsVrow (viewTop rows vrow : ℤ) : Bool :=
  let wr := vrow - viewTop + 1
  1 ≤ wr && wr < rows - 1

/-- What an iteration draws: the characters, and the numbers of the status
line. -/
structure ViewFrame where
  glyphs : List Glyph
  first : ℤ
  last : ℤ
  total : ℤ
deriving DecidableEq

def Viewer.frame (s : Viewer) (i : ViewInput) : ViewFrame :=
  let textRows := i.size.rows - 2
  { glyphs := (screenViewDraw s.text i.size.cols).1.filter fun g =>
      showsVrow s.viewTop i.size.rows g.vrow
    first := s.viewTop + 1
    last := if s.viewTop + textRows < s.totalVrows then s.viewTop + textRows else s.totalVrows
    total := s.totalVrows }

/-! ### The loop -/

def Viewer.scroll (s : Viewer) (textRows : ℤ) : Wheel → Viewer
  | .up =>
      let top := s.viewTop - scrollLines
      { s with viewTop := if top < 0 then 0 else top }
  | .down =>
      let top := s.viewTop + scrollLines
      let top := if s.totalVrows < top + textRows then s.totalVrows - textRows else top
      { s with viewTop := if top < 0 then 0 else top }
  | .other => s

/-- The branches on the key. -/
def Viewer.key (s : Viewer) (i : ViewInput) : Viewer :=
  let textRows := i.size.rows - 2
  if i.ch = 113 ∨ i.ch = 81 ∨ i.ch = 27 then { s with running := false }
  else if (i.ch = keyDown ∨ i.ch = 106) ∧ s.viewTop + textRows < s.totalVrows then
    { s with viewTop := s.viewTop + 1 }
  else if (i.ch = keyUp ∨ i.ch = 107) ∧ 0 < s.viewTop then { s with viewTop := s.viewTop - 1 }
  else if i.ch = keyMouse then s.scroll textRows i.wheel
  else s

/-- One iteration: the frame it draws, and what the key makes of the state.
The loop has ended once it does not run. -/
def viewStep (s : Viewer) (i : ViewInput) : Viewer × Option ViewFrame :=
  if s.running then
    ({ s with rows := i.size.rows, cols := i.size.cols }.key i, some (s.frame i))
  else (s, none)

/-! ### What a frame should be -/

/-- The rows the draw loop lays the text out in. -/
def Viewer.vrows (s : Viewer) (cols : ℤ) : ℤ := (screenViewDraw s.text cols).2.1 + 1

/-- KEY_DOWN, at the size of an iteration. -/
def ViewInput.down (i : ViewInput) : ViewInput := { i with ch := keyDown }

/-- The frame of an iteration is on the text, and pressing KEY_DOWN often
enough comes to a frame with the last row. -/
structure OnText (s : Viewer) (i : ViewInput) : Prop where
  nonneg : 0 ≤ s.viewTop
  le_last : s.viewTop ≤ max 0 (s.vrows i.size.cols - (i.size.rows - 2))
  reaches : ∃ n, showsVrow (final viewStep s (List.replicate n i.down)).viewTop i.size.rows
    (s.vrows i.size.cols - 1) = true

def FrameSound (s : Viewer) (i : ViewInput) : Prop := s.running = true → OnText s i

/-- The terminal has the size of the last iteration, at which the text has
the rows counted at the opening. -/
def Steady (s : Viewer) (i : ViewInput) : Prop :=
  i.size.rows = s.rows ∧ i.size.cols = s.cols ∧ s.vrows i.size.cols = s.totalVrows

/-- At the size of an iteration the text has no more rows than were counted,
or the last one is in view; and if the size is another one, or the count, the
view is not past the last row. -/
def SizeFits (s : Viewer) (i : ViewInput) : Prop :=
  s.running = true →
    (s.vrows i.size.cols ≤ s.totalVrows ∨
      s.vrows i.size.cols ≤ s.viewTop + (i.size.rows - 2)) ∧
    (¬ Steady s i → s.viewTop ≤ max 0 (s.vrows i.size.cols - (i.size.rows - 2)))

/-! ### One iteration -/

theorem showsVrow_iff {viewTop rows vrow : ℤ} :
    showsVrow viewTop rows vrow = true ↔ viewTop ≤ vrow ∧ vrow < viewTop + (rows - 2) := by
  simp only [showsVrow, Bool.and_eq_true, decide_eq_true_eq]
  omega

theorem totalVrows_pos (text : Bytes) (cols : ℤ) : 1 ≤ totalVrows text cols := by
  have hrow := Wrap.row_le (byteRule cols) text (Nat.zero_le text.length)
  rw [totalVrows_eq, getVpos_eq]
  exact Int.add_le_add_right hrow 1

/-- A text is drawn in as many rows as are counted at the same width. -/
theorem vrows_eq {s : Viewer} {cs : List Char} (h : s.text = encode String.utf8EncodeChar cs)
    (cols : ℤ) : s.vrows cols = totalVrows s.text cols := by
  rw [Viewer.vrows, h]
  exact drawLoop_rows cs cols

/-- Everything a key can do: the loop ends, or the view moves. -/
theorem key_cases (s : Viewer) (i : ViewInput) :
    s.key i = { s with running := false } ∨
      ∃ top, s.key i = { s with viewTop := top } ∧
        (0 ≤ s.viewTop → 0 ≤ top ∧ top ≤ max s.viewTop (s.totalVrows - (i.size.rows - 2))) := by
  simp only [Viewer.key]
  split
  · exact Or.inl rfl
  refine Or.inr ?_
  split
  · next hdown => exact ⟨_, rfl, fun h => by omega⟩
  split
  · next hup => exact ⟨_, rfl, fun h => by omega⟩
  split
  · cases i.wheel with
    | up =>
        refine ⟨_, rfl, fun h => ?_⟩
        simp only [scrollLines]
        omega
    | down =>
        refine ⟨_, rfl, fun h => ?_⟩
        simp only [scrollLines]
        omega
    | other => exact ⟨s.viewTop, rfl, fun h => by omega⟩
  · exact ⟨s.viewTop, rfl, fun h => by omega⟩

/-- What an iteration does to the fields besides. -/
theorem viewStep_fields (s : Viewer) (i : ViewInput) :
    (viewStep s i).1.totalVrows = s.totalVrows ∧
      (viewStep s i).1.rows = (if s.running = true then i.size.rows else s.rows) ∧
      (viewStep s i).1.cols = (if s.running = true then i.size.cols else s.cols) := by
  rw [viewStep]
  split
  · rcases key_cases { s with rows := i.size.rows, cols := i.size.cols } i with h | ⟨top, h, -⟩
    · rw [h]
      exact ⟨rfl, rfl, rfl⟩
    · rw [h]
      exact ⟨rfl, rfl, rfl⟩
  · exact ⟨rfl, rfl, rfl⟩

/-- What holds of the viewer of a text at the top of every iteration. -/
structure ViewInv (cs : List Char) (s : Viewer) : Prop where
  text_eq : s.text = encode String.utf8EncodeChar cs
  nonneg : 0 ≤ s.viewTop
  top_le : s.vrows s.cols = s.totalVrows → s.viewTop ≤ max 0 (s.totalVrows - (s.rows - 2))

theorem viewInv_opened (cs : List Char) (size : TermSize) :
    ViewInv cs (Viewer.opened (encode String.utf8EncodeChar cs) size) where
  text_eq := rfl
  nonneg := le_refl _
  top_le := fun _ => le_max_left _ _

/-- **Step lemma.**  An iteration whose frame is not past the last row keeps
the invariant. -/
theorem viewInv_step {cs : List Char} {s : Viewer} {i : ViewInput} (h : ViewInv cs s)
    (hle : s.running = true → s.viewTop ≤ max 0 (s.vrows i.size.cols - (i.size.rows - 2))) :
    ViewInv cs (viewStep s i).1 := by
  rw [viewStep]
  split
  · next hrun =>
    have htop := hle hrun
    rcases key_cases { s with rows := i.size.rows, cols := i.size.cols } i with
      hkey | ⟨top, hkey, hb⟩
    · rw [hkey]
      refine ⟨h.text_eq, h.nonneg, fun heq => ?_⟩
      rw [← heq]
      exact htop
    · obtain ⟨hlow, hhigh⟩ := hb h.nonneg
      rw [hkey]
      refine ⟨h.text_eq, hlow, fun heq => ?_⟩
      replace heq : s.vrows i.size.cols = s.totalVrows := heq
      show top ≤ max 0 (s.totalVrows - (i.size.rows - 2))
      rw [heq] at htop
      simp only at hhigh
      omega
  · exact h

/-! ### KEY_DOWN again and again -/

theorem viewStep_down {s : Viewer} (hrun : s.running = true) (i : ViewInput) :
    (viewStep s i.down).1
      = { s with
          rows := i.size.rows
          cols := i.size.cols
          viewTop := if s.viewTop + (i.size.rows - 2) < s.totalVrows then s.viewTop + 1
            else s.viewTop } := by
  rw [viewStep, if_pos hrun]
  show Viewer.key _ i.down = _
  simp only [Viewer.key, ViewInput.down, keyDown, true_or, true_and]
  by_cases hmore : s.viewTop + (i.size.rows - 2) < s.totalVrows
  · rw [if_neg (by decide), if_pos hmore, if_pos hmore]
  · rw [if_neg (by decide), if_neg hmore, if_neg hmore]
    rfl

/-- Pressed `n` times, the view has gone down as many rows, if so many are
left of those counted. -/
theorem viewTop_down {s : Viewer} (hrun : s.running = true) (i : ViewInput) (n : ℕ)
    (hn : n = 0 ∨ s.viewTop + n ≤ s.totalVrows - (i.size.rows - 2)) :
    (final viewStep s (List.replicate n i.down)).viewTop = s.viewTop + n := by
  induction n generalizing s with
  | zero => simp
  | succ n ih =>
      replace hn := hn.resolve_left n.succ_ne_zero
      push_cast at hn
      have hmore : s.viewTop + (i.size.rows - 2) < s.totalVrows := by omega
      have hrest := ih (s := { s with
        rows := i.size.rows, cols := i.size.cols, viewTop := s.viewTop + 1 }) hrun
      rw [List.replicate_succ, final_cons, viewStep_down hrun, if_pos hmore, hrest]
      · push_cast
        ring
      · right
        show s.viewTop + 1 + (n : ℤ) ≤ s.totalVrows - (i.size.rows - 2)
        omega

/-- However often it is pressed, it does not pass the rows counted. -/
theorem viewTop_down_le {s : Viewer} (hrun : s.running = true) (i : ViewInput) (n : ℕ) :
    (final viewStep s (List.replicate n i.down)).viewTop
      ≤ max s.viewTop (s.totalVrows - (i.size.rows - 2)) := by
  induction n generalizing s with
  | zero => exact le_max_left _ _
  | succ n ih =>
      have hrest := ih (s := (viewStep s i.down).1) (by rw [viewStep_down hrun]; exact hrun)
      rw [List.replicate_succ, final_cons]
      refine hrest.trans ?_
      rw [viewStep_down hrun]
      simp only
      omega

/-- **When a frame is as it should be.** -/
theorem onText_iff {cs : List Char} {s : Viewer} (h : ViewInv cs s) (hrun : s.running = true)
    (i : ViewInput) :
    OnText s i ↔ s.viewTop ≤ max 0 (s.vrows i.size.cols - (i.size.rows - 2)) ∧
      (s.vrows i.size.cols ≤ s.totalVrows ∨
        s.vrows i.size.cols ≤ s.viewTop + (i.size.rows - 2)) := by
  have hrows := i.size.rows_ge
  have hpos : 1 ≤ s.vrows i.size.cols := by
    rw [vrows_eq h.text_eq]
    exact totalVrows_pos _ _
  have hnonneg := h.nonneg
  constructor
  · rintro ⟨-, hle, n, hshows⟩
    refine ⟨hle, ?_⟩
    have hbound := viewTop_down_le hrun i n
    rw [showsVrow_iff] at hshows
    omega
  · rintro ⟨hle, hfits⟩
    refine ⟨hnonneg, hle, ?_⟩
    by_cases hview : s.vrows i.size.cols ≤ s.viewTop + (i.size.rows - 2)
    · -- the last row is in view
      refine ⟨0, ?_⟩
      rw [showsVrow_iff, List.replicate_zero, final_nil]
      omega
    · -- as many times as there are rows below the view
      obtain ⟨n, hn⟩ := Int.eq_ofNat_of_zero_le
        (show 0 ≤ s.vrows i.size.cols - (i.size.rows - 2) - s.viewTop by omega)
      refine ⟨n, ?_⟩
      rw [showsVrow_iff, viewTop_down hrun i n (Or.inr (by omega))]
      omega

/-- The numbers of the status line are those of the rows in view, as long as
the text has as many rows as were counted. -/
theorem showsVrow_iff_indicator {s : Viewer} {i : ViewInput}
    (hcount : s.vrows i.size.cols = s.totalVrows) {vrow : ℤ} (hrow : vrow < s.vrows i.size.cols) :
    showsVrow s.viewTop i.size.rows vrow = true ↔
      (s.frame i).first ≤ vrow + 1 ∧ vrow + 1 ≤ (s.frame i).last := by
  rw [showsVrow_iff]
  simp only [Viewer.frame]
  omega

theorem frameSound_iff {cs : List Char} {s : Viewer} (h : ViewInv cs s) (i : ViewInput) :
    FrameSound s i ↔ SizeFits s i := by
  refine forall_congr' fun hrun => ?_
  rw [onText_iff h hrun]
  constructor
  · exact fun ⟨hle, hfits⟩ => ⟨hfits, fun _ => hle⟩
  · rintro ⟨hfits, hle⟩
    refine ⟨?_, hfits⟩
    by_cases hsteady : Steady s i
    · obtain ⟨hrows, hcols, hcount⟩ := hsteady
      have htop := h.top_le (by rw [← hcols]; exact hcount)
      rwa [hcount, hrows]
    · exact hle hsteady

theorem viewInv_of_frameSound {cs : List Char} {s : Viewer} {i : ViewInput} (h : ViewInv cs s)
    (hsound : FrameSound s i) : ViewInv cs (viewStep s i).1 :=
  viewInv_step h fun hrun => (hsound hrun).le_last

/-! ### Runs -/

/-- **When the viewer can always reach the whole entry.**  For every text,
every size of the terminal at the opening and every sequence of keys, wheel
events and sizes.  Where the size has changed, `SizeFits` asks for the bound of
`FrameSound` itself; that nothing is asked for as long as it has not is
`viewer_sound_of_steady`. -/
theorem viewer_sound_iff (cs : List Char) (size : TermSize) (inputs : List ViewInput) :
    Throughout viewStep FrameSound (Viewer.opened (encode String.utf8EncodeChar cs) size) inputs ↔
      Throughout viewStep SizeFits (Viewer.opened (encode String.utf8EncodeChar cs) size)
        inputs := by
  apply throughout_congr (I := ViewInv cs)
  · exact fun s i h => frameSound_iff h i
  · exact fun s i h hsound => viewInv_of_frameSound h hsound
  · exact viewInv_opened cs size

/-- A terminal that has become narrower: the text, counted as one row, is laid
out in four, and KEY_DOWN does not leave the first. -/
theorem viewer_not_sound_narrower :
    ¬ Throughout viewStep FrameSound
      (Viewer.opened (encode String.utf8EncodeChar "abcdefgh".toList)
        ⟨24, 80, by decide, by decide⟩)
      [⟨⟨3, 3, by decide, by decide⟩, keyErr, .other⟩] := by
  rintro ⟨hframe, -⟩
  obtain ⟨-, -, n, hshows⟩ := hframe rfl
  set s := Viewer.opened (encode String.utf8EncodeChar "abcdefgh".toList)
    ⟨24, 80, by decide, by decide⟩ with hs
  have hrows : s.vrows 3 = 4 := by decide
  have hcount : s.totalVrows = 1 := by decide
  have hbound := viewTop_down_le (s := s) rfl ⟨⟨3, 3, by decide, by decide⟩, keyErr, .other⟩ n
  rw [showsVrow_iff, hrows] at hshows
  rw [hcount] at hbound
  have htop : s.viewTop = 0 := rfl
  simp only at hshows hbound
  omega

/-- **A viewer whose terminal keeps its size can reach the whole entry.** -/
theorem viewer_sound_of_steady (cs : List Char) (size : TermSize) (inputs : List ViewInput)
    (hsize : ∀ i ∈ inputs, i.size = size) :
    Throughout viewStep FrameSound (Viewer.opened (encode String.utf8EncodeChar cs) size)
      inputs := by
  -- the size of the last iteration and the rows counted stay what they were
  have hrun : ∀ s : Viewer, ViewInv cs s → s.rows = size.rows → s.cols = size.cols →
      s.totalVrows = totalVrows (encode String.utf8EncodeChar cs) size.cols →
      Throughout viewStep FrameSound s inputs := by
    induction inputs with
    | nil => exact fun _ _ _ _ _ => trivial
    | cons i inputs ih =>
        intro s h hrows hcols hcount
        have hi : i.size = size := hsize i List.mem_cons_self
        have hvrows : s.vrows i.size.cols = s.totalVrows := by
          rw [vrows_eq h.text_eq, h.text_eq, hi, hcount]
        have hsteady : Steady s i := ⟨by rw [hi, hrows], by rw [hi, hcols], hvrows⟩
        have hsound : FrameSound s i := by
          rw [frameSound_iff h]
          exact fun _ => ⟨Or.inl hvrows.le, fun hnot => absurd hsteady hnot⟩
        have hnext := viewInv_of_frameSound h hsound
        obtain ⟨hcount', hrows', hcols'⟩ := viewStep_fields s i
        refine ⟨hsound, ih (fun j hj => hsize j (List.mem_cons_of_mem i hj)) _ hnext ?_ ?_ ?_⟩
        · rw [hrows', hi, hrows, ite_self]
        · rw [hcols', hi, hcols, ite_self]
        · rw [hcount', hcount]
  exact hrun _ (viewInv_opened cs size) rfl rfl rfl

end Diary
