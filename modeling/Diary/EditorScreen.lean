/-
Diary/EditorScreen.lean

What client/ui.c, `screen_editor`, asks of the terminal, over sessions
against the server.

A frame is the text of the header, the calls that write the text area, the
bar and the cursor.  The draw loop wraps the text as it goes; what it writes
are the rows of the wrapped text from `view_top` on (`calls_draw`), with the
cursor behind the text before it (`showsText_draw`).  The calls count one
column for each character; what the terminal makes of wide ones is in
WideCharacters.

`editor_screen_simulates` follows a session by characters: every frame has
the text of the editor of characters and its cursor, and as long as the
header has no star, that text is what the server stores.
-/
import Diary.CharEditor
import Diary.Dates
import Diary.Rows
import Diary.Session
import Diary.ViewScreen

namespace Diary

open CString CodeText Machine Wrap

variable {ν : Type*}

/-! ### Frames -/

/-- What an iteration draws: the arguments of its calls. -/
structure EditorFrame where
  /-- `hdr` -/
  header : Bytes
  /-- `mvwaddnstr`: row and column on the screen, and the bytes -/
  calls : List (ℤ × ℤ × Bytes)
  bar : Bytes
  /-- `wmove` -/
  cursor : ℤ × ℤ

/-- The bar at the bottom. -/
def Status.bar (s : Status) : Bytes :=
  if s.text = [] then snprintf 256 (lit "[Ctrl+S/F2] save  [ESC] exit")
  else snprintf 256 (s.text ++ lit "  |  [Ctrl+S/F2] save  [ESC] exit")

/-- The frame an iteration draws; `none` where `format_ts` has no date. -/
def Editor.draw (zone : Int64 → Int32) (timestamp : Int64) (e : Editor) (rows cols : ℤ) :
    Option EditorFrame := do
  -- the view follows the cursor before anything is drawn
  let top := (e.frame rows cols).viewTop
  let header ← editorHeader zone e.entryId timestamp (e.dirty ≠ 0)
  some
    { header := header
      calls := ((screenEditorDraw e.buf cols).1.filter fun g => showsVrow top rows g.vrow).map
        fun g => (g.vrow - top + 1, g.vcol, g.bytes)
      bar := e.status.bar
      cursor := (e.curVrow cols - top + 1, e.curVcol cols) }

/-! ### What a frame should be -/

/-- The rows of a text at `cols` columns. -/
def wrapped (cols : ℤ) (cs : List Char) : List (List Char) :=
  rows (cols - 1).toNat (fun c => c == '\n') cs

/-- The frame has a text and a cursor in it: one call for each character of as
many rows as there is room for, from the row `top` on, at its row and behind
as many columns as there are characters before it in the row. -/
structure ShowsText (size : TermSize) (z : Zipper Char) (top : ℕ) (f : EditorFrame) : Prop where
  calls : f.calls = placesOf String.utf8EncodeChar 1
    (((wrapped size.cols z.toList).drop top).take (size.rows - 2).toNat)
  /-- the cursor is behind the text before it -/
  cursor : ∃ above before behind below,
    wrapped size.cols z.left.reverse = above ++ [before] ∧
      wrapped size.cols z.toList = above ++ (before ++ behind) :: below ∧
      f.cursor = ((above.length : ℤ) - top + 1, (before.length : ℤ))
  /-- and inside the text area -/
  visible : 1 ≤ f.cursor.1 ∧ f.cursor.1 < size.rows - 1 ∧ 0 ≤ f.cursor.2 ∧ f.cursor.2 < size.cols

/-- Of all views that show the cursor, the one from `top` on is the nearest to
the one before it. -/
def NearestView (size : TermSize) (viewTop : ℤ) (top : ℕ) (f : EditorFrame) : Prop :=
  ∀ t : ℤ, 0 ≤ t → t ≤ f.cursor.1 + top - 1 → f.cursor.1 + top - 1 < t + (size.rows - 2) →
    |(top : ℤ) - viewTop| ≤ |t - viewTop|

/-- The text of the header has no star. -/
def EditorFrame.Clean (f : EditorFrame) : Prop := (42 : UInt8) ∉ f.header

/-! ### Drawing rows -/

theorem charRule_skip (cols : ℤ) (c : Char) : (charRule cols).skip c = false := rfl

variable {cols : ℤ}

theorem width_eq (hcols : 2 ≤ cols) : (charRule cols).width = ((cols - 1).toNat : ℤ) := by
  rw [charRule_width, Int.toNat_of_nonneg (by omega)]

theorem width_pos (hcols : 2 ≤ cols) : 0 < (cols - 1).toNat := by omega

/-- The draw loop fills row after row. -/
theorem map_glyphs (hcols : 2 ≤ cols) (cs : List Char) (i : ℕ) (r : ℤ) (c : ℕ) :
    (glyphs cols cs i (r, (c : ℤ))).map (fun g => (g.vrow, g.vcol, g.bytes))
      = placesFrom String.utf8EncodeChar r c (fill (cols - 1).toNat (charRule cols).brk c cs) := by
  induction cs generalizing i r c with
  | nil => rfl
  | cons x cs ih =>
      by_cases hx : x = '\n'
      · -- a line break is not drawn, it only ends the row
        have hbrk : (charRule cols).brk x = true := by rw [hx]; rfl
        have hadvance : (charRule cols).advance (r, (c : ℤ)) x = (r + 1, ((0 : ℕ) : ℤ)) := by
          simp [Rule.advance, charRule_skip, hbrk]
        rw [glyphs, if_pos hx, hadvance, ih, fill_cons_break hbrk, placesFrom_nil_cons]
      have hbrk : (charRule cols).brk x = false := by simpa [charRule] using hx
      rw [glyphs, if_neg hx, advance_eq_drawnAt hx, List.map_cons]
      by_cases hfull : (cols - 1).toNat ≤ c
      · -- the character does not fit, and opens the next row
        have hat : drawnAt cols (r, (c : ℤ)) = (r + 1, 0) := by
          rw [drawnAt, if_pos]
          show cols - 1 ≤ (c : ℤ)
          omega
        rw [hat, fill_cons_full hbrk hfull, placesFrom_nil_cons, placesFrom_push]
        exact congrArg _ (ih _ (r + 1) 1)
      · have hat : drawnAt cols (r, (c : ℤ)) = (r, (c : ℤ)) := by
          rw [drawnAt, if_neg]
          show ¬ cols - 1 ≤ (c : ℤ)
          omega
        rw [hat, fill_cons hbrk (not_le.mp hfull), placesFrom_push]
        exact congrArg _ (ih _ r (c + 1))

/-- The loop on a whole text draws its rows. -/
theorem map_screenEditorDraw (hcols : 2 ≤ cols) (cs : List Char) :
    (screenEditorDraw (encode String.utf8EncodeChar cs) cols).1.map
        (fun g => (g.vrow, g.vcol, g.bytes))
      = placesOf String.utf8EncodeChar 0 (wrapped cols cs) := by
  have hglyphs := map_glyphs hcols cs 0 0 0
  rw [Nat.cast_zero] at hglyphs
  rw [screenEditorDraw, drawLoop_encode, hglyphs, fill_zero (width_pos hcols), placesFrom_zero]
  rfl

/-- **The calls in the text area** write the rows in view. -/
theorem calls_draw (size : TermSize) (top : ℕ) (cs : List Char) :
    ((screenEditorDraw (encode String.utf8EncodeChar cs) size.cols).1.filter fun g =>
        showsVrow top size.rows g.vrow).map (fun g => (g.vrow - (top : ℤ) + 1, g.vcol, g.bytes))
      = placesOf String.utf8EncodeChar 1
        (((wrapped size.cols cs).drop top).take (size.rows - 2).toNat) := by
  have hrows := size.rows_ge
  have hn : ((size.rows - 2).toNat : ℤ) = size.rows - 2 := Int.toNat_of_nonneg (by omega)
  have hfilter := filter_placesOf String.utf8EncodeChar 0 top (size.rows - 2).toNat
    (wrapped size.cols cs) (Int.natCast_nonneg top)
  rw [Int.sub_zero, Int.toNat_natCast, hn, ← map_screenEditorDraw size.cols_ge,
    List.filter_map] at hfilter
  have hshift := map_placesOf String.utf8EncodeChar top (1 - top)
    (((wrapped size.cols cs).drop top).take (size.rows - 2).toNat)
  rw [← hfilter, List.map_map, show (top : ℤ) + (1 - top) = 1 by ring] at hshift
  rw [← hshift]
  congr 1
  · funext g
    show (g.vrow - top + 1, g.vcol, g.bytes) = (g.vrow + (1 - top), g.vcol, g.bytes)
    rw [show g.vrow - top + 1 = g.vrow + (1 - top) by ring]
  · apply List.filter_congr
    intro g _
    rw [Bool.eq_iff_iff, showsVrow_iff]
    simp

/-! ### The view and the cursor -/

/-- The top of the view of a frame: the row of the cursor is in it, and no
other view that shows it is nearer. -/
theorem viewTop_frame (e : Editor) (rows cols : ℤ) (hrows : 3 ≤ rows)
    (hrow : 0 ≤ e.curVrow cols) :
    let top := (e.frame rows cols).viewTop
    0 ≤ top ∧ top ≤ e.curVrow cols ∧ e.curVrow cols < top + (rows - 2) ∧
      ∀ t : ℤ, 0 ≤ t → t ≤ e.curVrow cols → e.curVrow cols < t + (rows - 2) →
        |top - e.viewTop| ≤ |t - e.viewTop| := by
  simp only [Editor.frame]
  generalize e.curVrow cols = vr at hrow ⊢
  generalize e.viewTop = old
  refine ⟨?_, ?_, ?_, fun t h0 hle hlt => ?_⟩
  · split <;> omega
  · split <;> split <;> split <;> omega
  · split <;> split <;> split <;> omega
  · have hle₁ := le_abs_self (t - old)
    have hle₂ := neg_abs_le (t - old)
    generalize |t - old| = d at hle₁ hle₂
    rw [abs_le]
    split <;> split <;> split <;> omega

/-- The cursor of a text is behind the rows of what is before it. -/
theorem getVpos_shows {buf : Bytes} {cursor : ℕ} {z : Zipper Char}
    (h : Shows String.utf8EncodeChar buf cursor z) (hcols : 2 ≤ cols) :
    ∃ above before behind below, wrapped cols z.left.reverse = above ++ [before] ∧
      wrapped cols z.toList = above ++ (before ++ behind) :: below ∧
      getVpos buf cursor cols = ((above.length : ℤ), (before.length : ℤ)) := by
  have hvpos := getVpos_encode cols z.left.reverse z.right
  rw [encode_append, ← h.buf_eq, ← h.index_eq, pos_length] at hvpos
  obtain ⟨above, before, hfill, hpos⟩ := exists_foldl_advance (charRule_skip cols)
    (width_eq hcols) (width_pos hcols) z.left.reverse 0 (Nat.zero_le _)
  obtain ⟨behind, below, hcut⟩ := upToCut_fill z.left.reverse z.right 0 above before hfill
  rw [fill_zero (width_pos hcols)] at hfill hcut
  rw [Nat.cast_zero, ite_self, zero_add, zero_add] at hpos
  exact ⟨above, before, behind, below, hfill, hcut, hvpos.trans hpos⟩

theorem curVcol_lt (e : Editor) (hcols : 2 ≤ cols) : e.curVcol cols < cols := by
  have hwidth : 1 ≤ (byteRule cols).width := by
    show 1 ≤ cols - 1
    omega
  have hcolumn : e.curVcol cols ≤ cols - 1 := by
    rw [Editor.curVcol, getVpos_eq]
    exact (column_bounds hwidth e.buf e.cursor).2
  omega

/-- **A frame** of an editor that holds a text has the text and the cursor. -/
theorem showsText_draw {zone : Int64 → Int32} {timestamp : Int64} {e : Editor} {z : Zipper Char}
    (h : Shows String.utf8EncodeChar e.buf e.cursor z) (size : TermSize) {f : EditorFrame}
    (hf : e.draw zone timestamp size.rows size.cols = some f) :
    ∃ top : ℕ, ShowsText size z top f ∧ NearestView size e.viewTop top f := by
  obtain ⟨header, -, hf⟩ := Option.bind_eq_some_iff.mp hf
  obtain rfl := Option.some.inj hf
  obtain ⟨above, before, behind, below, hleft, hall, hvpos⟩ := getVpos_shows h size.cols_ge
  have hvrow : e.curVrow size.cols = above.length := congrArg Prod.fst hvpos
  have hvcol : e.curVcol size.cols = before.length := congrArg Prod.snd hvpos
  have hcol := curVcol_lt e size.cols_ge
  -- the view is moved to the cursor
  obtain ⟨h0, hle, hlt, hnear⟩ := viewTop_frame e size.rows size.cols size.rows_ge
    (by rw [hvrow]; exact Int.natCast_nonneg _)
  obtain ⟨top, htop⟩ := Int.eq_ofNat_of_zero_le h0
  rw [htop] at hle hlt hnear
  refine ⟨top, ⟨?_, ⟨above, before, behind, below, hleft, hall, ?_⟩, ?_⟩, ?_⟩
  · show (((screenEditorDraw e.buf size.cols).1.filter _).map _) = _
    rw [htop, h.buf_eq, ← encode_append]
    exact calls_draw size top z.toList
  · show (e.curVrow size.cols - _ + 1, e.curVcol size.cols) = _
    rw [htop, hvrow, hvcol]
  · show 1 ≤ e.curVrow size.cols - _ + 1 ∧ e.curVrow size.cols - _ + 1 < size.rows - 1 ∧
      0 ≤ e.curVcol size.cols ∧ e.curVcol size.cols < size.cols
    rw [htop]
    exact ⟨by omega, by omega, by rw [hvcol]; exact Int.natCast_nonneg _, hcol⟩
  · intro t ht0 htle htlt
    have hrow : e.curVrow size.cols - (e.frame size.rows size.cols).viewTop + 1 + top - 1
        = e.curVrow size.cols := by
      rw [htop]
      ring
    change t ≤ e.curVrow size.cols - (e.frame size.rows size.cols).viewTop + 1 + top - 1 at htle
    change e.curVrow size.cols - (e.frame size.rows size.cols).viewTop + 1 + top - 1
      < t + (size.rows - 2) at htlt
    rw [hrow] at htle htlt
    exact hnear t ht0 htle htlt

/-! ### The header -/

theorem length_formatTs {zone : Int64 → Int32} {ts : Int64} {date : Bytes}
    (h : formatTs zone ts = some date) : date.length < 32 := by
  obtain ⟨tm, -, hdate⟩ := Option.bind_eq_some_iff.mp h
  rw [strftime] at hdate
  split at hdate
  · next hlt => rwa [← Option.some.inj hdate]
  · cases hdate

/-- A text that is not saved has a star in the header. -/
theorem star_of_dirty {zone : Int64 → Int32} {timestamp : Int64} {e : Editor} {rows cols : ℤ}
    {f : EditorFrame} (hf : e.draw zone timestamp rows cols = some f) (hclean : f.Clean) :
    e.dirty = 0 := by
  by_contra hdirty
  obtain ⟨header, hheader, hf⟩ := Option.bind_eq_some_iff.mp hf
  obtain rfl := Option.some.inj hf
  rw [decide_eq_true hdirty] at hheader
  obtain ⟨date, hdate, hheader⟩ := Option.bind_eq_some_iff.mp hheader
  have hlen := length_formatTs hdate
  have hid := length_dec_int_le_eleven e.entryId
  have hstar : (42 : UInt8) ∈ lit " *" := by decide
  apply hclean
  show (42 : UInt8) ∈ header
  rw [← Option.some.inj hheader]
  split
  · -- the header is far shorter than its array, so the star is not cut off
    rw [snprintf_eq_self]
    · exact List.mem_append_left _ (List.mem_append_right _ hstar)
    · simp only [List.length_append, if_true]
      have h1 : (lit " Entry #").length = 8 := rfl
      have h2 : (lit " - ").length = 3 := rfl
      have h3 : (lit " *").length = 2 := rfl
      have h4 : (lit " ").length = 1 := rfl
      omega
  · rw [snprintf_eq_self]
    · exact List.mem_append_left _ (List.mem_append_right _ hstar)
    · simp only [List.length_append, if_true]
      have h1 : (lit " New entry - ").length = 13 := rfl
      have h3 : (lit " *").length = 2 := rfl
      have h4 : (lit " ").length = 1 := rfl
      omega

/-! ### Sessions by characters -/

/-- A complete event of a session: the inputs it arrives in, with timeouts
anywhere. -/
structure SessionDelivery (ν : Type*) where
  event : CharEvent
  inputs : List (SessionEvent ν)
  arrives : event.ArrivesAs ((inputs.map fun ev => ev.inp.ch).filter fun ch => ch ≠ keyErr)

def sessionDeliver (P : Proto ν) (user : Bytes) (t : Int64) (s : Session)
    (d : SessionDelivery ν) : Session := final (sessionStep P user t) s d.inputs

/-- The editor of a session, while its loop runs. -/
def Session.loop (s : Session) : Option Editor := if s.running then some s.editor else none

/-- What a frame says: the text and the cursor, and without a star that the
text is stored, or that nothing was written yet. -/
structure Sees (P : Proto ν) (user : Bytes) (s : Session) (z : Zipper Char) (size : TermSize)
    (f : EditorFrame) : Prop where
  shown : ∃ top : ℕ, ShowsText size z top f ∧ NearestView size s.editor.viewTop top f
  stored : f.Clean → 0 < s.editor.entryId.toInt →
    Stores P user s.world.db s.editor.entryId (encode String.utf8EncodeChar z.toList)
  blank : f.Clean → ¬ 0 < s.editor.entryId.toInt → z.toList = []

/-- As long as nothing is marked as changed, a new entry is empty. -/
def Session.Blank (s : Session) : Prop :=
  s.editor.dirty = 0 → ¬ 0 < s.editor.entryId.toInt → s.editor.buf = []

/-- What a session has done, by characters. -/
structure ScreenInv (P : Proto ν) (user : Bytes) (db₀ : Db) (k : Int32) (s : Session)
    (z : Zipper Char) : Prop where
  session : SessionInv P user db₀ k s
  blank : s.Blank
  text : Represents s.loop z

variable {P : Proto ν} {user : Bytes} {t : Int64} {db₀ : Db} {k : Int32} {s : Session}
  {z : Zipper Char}

/-- An event of a session is one of the loop, with the id the save returned. -/
theorem loop_sessionStep (P : Proto ν) (user : Bytes) (t : Int64) (s : Session)
    (ev : SessionEvent ν) :
    ∃ newId, (sessionStep P user t s ev).1.loop = loopStep s.loop ⟨ev.inp, newId⟩ := by
  rw [sessionStep, Session.loop, Session.loop]
  split
  · next hrun =>
      simp only [loopStep]
      rcases s.editor.iterate ev.inp with e | e | e
      · exact ⟨0, if_pos hrun⟩
      · exact ⟨0, rfl⟩
      · exact ⟨_, if_pos hrun⟩
  · exact ⟨0, rfl⟩

theorem loop_final (P : Proto ν) (user : Bytes) (t : Int64) (s : Session)
    (run : List (SessionEvent ν)) :
    ∃ evs : List EditorEvent, evs.map EditorEvent.inp = run.map SessionEvent.inp ∧
      (final (sessionStep P user t) s run).loop = evs.foldl loopStep s.loop := by
  induction run generalizing s with
  | nil => exact ⟨[], rfl, rfl⟩
  | cons ev run ih =>
      obtain ⟨newId, hstep⟩ := loop_sessionStep P user t s ev
      obtain ⟨evs, hinputs, hfinal⟩ := ih (sessionStep P user t s ev).1
      refine ⟨⟨ev.inp, newId⟩ :: evs, ?_, ?_⟩
      · rw [List.map_cons, List.map_cons, hinputs]
      · rw [final_cons, hfinal, hstep, List.foldl_cons]

theorem keysOf_eq {evs : List EditorEvent} {run : List (SessionEvent ν)}
    (h : evs.map EditorEvent.inp = run.map SessionEvent.inp) :
    keysOf evs = (run.map fun ev => ev.inp.ch).filter fun ch => ch ≠ keyErr := by
  have hkeys := congrArg (List.map EditorInput.ch) h
  rw [List.map_map, List.map_map] at hkeys
  show (evs.filter ((fun ch : ℤ => decide (ch ≠ keyErr)) ∘ EditorInput.ch ∘ EditorEvent.inp)).map
    (EditorInput.ch ∘ EditorEvent.inp) = _
  rw [← List.filter_map, hkeys]
  rfl

theorem represents_sessionDeliver (P : Proto ν) (user : Bytes) (t : Int64)
    (h : Represents s.loop z) (d : SessionDelivery ν) :
    ∃ z', CharStep d.event z z' ∧ Represents (sessionDeliver P user t s d).loop z' := by
  obtain ⟨evs, hinputs, hfinal⟩ := loop_final P user t s d.inputs
  have harrives : d.event.ArrivesAs (keysOf evs) := by
    rw [keysOf_eq hinputs]
    exact d.arrives
  rw [sessionDeliver, hfinal]
  exact represents_deliver h ⟨d.event, evs, harrives⟩

theorem blank_sessionStep (h : s.Blank) (ev : SessionEvent ν) :
    (sessionStep P user t s ev).1.Blank := by
  rw [sessionStep]
  split
  · have hkey := iterate_effect s.editor ev.inp
    generalize s.editor.iterate ev.inp = o at hkey
    cases hkey with
    | look | leave | noMemory => exact h
    | edit => exact fun hdirty => absurd hdirty one_ne_zero
    | warn => exact fun hdirty => absurd hdirty (neg_ne_zero.mpr one_ne_zero)
    | save =>
        intro hdirty hid
        simp only [finishSave_dirty, finishSave_entryId, finishSave_buf] at hdirty hid ⊢
        split at hdirty
        · -- a save that returned an id leaves the entry with one
          next hnew => exact absurd (by split <;> omega) hid
        · next hnew =>
            rw [if_neg fun hadopt => hnew hadopt.1] at hid
            exact h hdirty hid
  · exact h

theorem screenInv_step (hP : P.Lawful) (hk : 0 ≤ k.toInt) (hids : db₀.entries.seq + 1 < 2 ^ 31)
    (h : ScreenInv P user db₀ k s z) (d : SessionDelivery ν) :
    ∃ z', CharStep d.event z z' ∧ ScreenInv P user db₀ k (sessionDeliver P user t s d) z' := by
  obtain ⟨z', hstep, htext⟩ := represents_sessionDeliver P user t h.text d
  refine ⟨z', hstep, ?_, ?_, htext⟩
  · exact final_invariant (I := SessionInv P user db₀ k)
      (fun _ ev h => sessionInv_step hP hk hids h ev) h.session d.inputs
  · exact final_invariant (I := Session.Blank) (fun _ ev h => blank_sessionStep h ev) h.blank
      d.inputs

/-- The inputs that do not end the loop do not end the session. -/
theorem running_sessionDeliver (P : Proto ν) (user : Bytes) (t : Int64) {s : Session}
    (hrun : s.running = true) {d : SessionDelivery ν} (hstays : ∀ ev ∈ d.inputs, ev.inp.Stays) :
    (sessionDeliver P user t s d).running = true := by
  obtain ⟨evs, hinputs, hfinal⟩ := loop_final P user t s d.inputs
  have hevs : ∀ ev ∈ evs, ev.inp.Stays := by
    intro ev hev
    obtain ⟨ev', hev', hinp⟩ := List.mem_map.mp (hinputs ▸ List.mem_map_of_mem hev)
    rw [← hinp]
    exact hstays ev' hev'
  have hsome : s.loop.isSome = true := by rw [Session.loop, if_pos hrun]; rfl
  have hgoesOn := isSome_foldl_loopStep hevs hsome
  rw [← hfinal] at hgoesOn
  by_contra hended
  change (Session.loop (sessionDeliver P user t s d)).isSome = true at hgoesOn
  rw [Session.loop, if_neg hended] at hgoesOn
  cases hgoesOn

/-- A date that can be shown is all a frame needs. -/
theorem isSome_draw {zone : Int64 → Int32} {timestamp : Int64} {date : Bytes}
    (hdate : formatTs zone timestamp = some date) (e : Editor) (rows cols : ℤ) :
    ∃ f, e.draw zone timestamp rows cols = some f := by
  simp only [Editor.draw, editorHeader, hdate]
  exact ⟨_, rfl⟩

/-- A frame of such a session. -/
theorem sees_of_screenInv (h : ScreenInv P user db₀ k s z) (hrun : s.running = true)
    {zone : Int64 → Int32} {timestamp : Int64} (size : TermSize) {f : EditorFrame}
    (hf : s.editor.draw zone timestamp size.rows size.cols = some f) : Sees P user s z size f := by
  have hshows : Shows String.utf8EncodeChar s.editor.buf s.editor.cursor z := h.text _ (if_pos hrun)
  have hbuf : s.editor.buf = encode String.utf8EncodeChar z.toList := by
    rw [hshows.buf_eq, Zipper.toList, encode_append]
  refine ⟨showsText_draw hshows size hf, fun hclean hid => ?_, fun hclean hid => ?_⟩
  · rw [← hbuf]
    exact h.session.stored (star_of_dirty hf hclean) hid
  · have hnil := h.blank (star_of_dirty hf hclean) hid
    rw [hbuf] at hnil
    apply List.eq_nil_of_length_eq_zero
    have hlen := length_le_length_encode z.toList
    rw [hnil] at hlen
    exact Nat.le_zero.mp hlen

/-- **The screen of a session.**  A session is opened for a new entry, or on a
stored one with its text, and its keys arrive as complete events, with
timeouts in between; whatever its saves return, an editor of characters can
follow it.  Behind every event, at any size of at least 3 rows and 2 columns,
there is a frame if the date can be shown.  Its calls in the text area write
exactly the rows of the text from the top of the view on, one column for each
character, with the cursor among them, and the view has moved no further than
it had to.  And if the text of the header has no star, the server stores this
text under the entry's id, or the entry is a new one and empty.  No event ends
the session but by ESC or for want of memory. -/
theorem editor_screen_simulates {P : Proto ν} (hP : P.Lawful) (user : Bytes) (t : Int64) (db₀ : Db)
    (hids : db₀.entries.seq + 1 < 2 ^ 31) (k : Int32) (text : Option (List Char))
    (hnul : ∀ cs ∈ text, '\x00' ∉ cs)
    (hopen : k = 0 ∧ text = none ∨ 0 < k.toInt ∧ ∃ cs, text = some cs ∧
      Stores P user db₀ k (encode String.utf8EncodeChar cs))
    (zone : Int64 → Int32) (timestamp : Int64) (ds : List (SessionDelivery ν)) :
    let opened := Session.opened k (text.map (encode String.utf8EncodeChar)) db₀
    Simulates (sessionDeliver P user t)
        (fun s z => s.running = true → ∀ (size : TermSize) (date : Bytes),
          formatTs zone timestamp = some date →
            ∃ f, s.editor.draw zone timestamp size.rows size.cols = some f ∧
              Sees P user s z size f)
        (fun d => CharStep d.event) opened (Zipper.atEnd (text.getD [])) ds ∧
      ∀ d : SessionDelivery ν, (∀ ev ∈ d.inputs, ev.inp.Stays) →
        (ds.foldl (sessionDeliver P user t) opened).running = true →
          (sessionDeliver P user t (ds.foldl (sessionDeliver P user t) opened) d).running
            = true := by
  intro opened
  have hk : 0 ≤ k.toInt := by
    rcases hopen with ⟨rfl, -⟩ | ⟨hpos, -⟩
    · decide
    · exact hpos.le
  -- the editor opens on the text of the entry, with the cursor at its end
  have htext := represents_opened k hnul
  have hbuf : (Editor.opened k (text.map (encode String.utf8EncodeChar))).buf
      = encode String.utf8EncodeChar (text.getD []) := by
    have h := (htext _ rfl).buf_eq
    simpa [Zipper.atEnd] using h
  have hinv : ScreenInv P user db₀ k opened (Zipper.atEnd (text.getD [])) := by
    refine ⟨⟨rfl, zero_notMem_cstr _, Or.inl ⟨rfl, rfl⟩, fun _ _ => rfl, fun _ hpos => ?_⟩,
      fun _ hid => ?_, htext⟩
    · show Stores P user db₀ k (Editor.opened k _).buf
      rcases hopen with ⟨rfl, -⟩ | ⟨-, cs, rfl, hstores⟩
      · exact absurd hpos (lt_irrefl _)
      · rw [hbuf]
        exact hstores
    · show (Editor.opened k _).buf = []
      rcases hopen with ⟨-, rfl⟩ | ⟨hpos, -⟩
      · rfl
      · exact absurd hpos hid
  -- the invariant is kept by every delivery, and gives what is seen
  refine ⟨(simulates (R := ScreenInv P user db₀ k) ?_ hinv ds).imp ?_, ?_⟩
  · exact fun s z d h => screenInv_step hP hk hids h d
  · intro s z h hrun size date hdate
    obtain ⟨f, hf⟩ := isSome_draw hdate s.editor size.rows size.cols
    exact ⟨f, hf, sees_of_screenInv h hrun size hf⟩
  · exact fun d hstays hrun => running_sessionDeliver P user t hrun hstays

/-- `hi` is typed and saved with Ctrl+S. -/
theorem editor_screen_simulates_hi :
    let event (ch : ℤ) : SessionEvent Unit :=
      ⟨⟨24, 80, ch, .other, true⟩, ⟨(), ⟨7, true, true, []⟩, true⟩⟩
    let s := final (sessionStep taggingProto (lit "alice") 0) (Session.opened 0 none Db.fresh)
      [event 104, event 105, event 19]
    ∃ f, s.editor.draw (fun _ => 0) 0 24 80 = some f ∧
      Sees taggingProto (lit "alice") s ⟨['i', 'h'], []⟩ ⟨24, 80, by decide, by decide⟩ f := by
  intro event s
  have hsave : OtherKey 19 := by
    refine ⟨?_, fun ev => ?_⟩
    · rintro (hprint | hbyte)
      · exact absurd hprint (by decide)
      · exact absurd hbyte (by decide)
    · cases ev <;> simp [CharEvent.keys, keyEnter, keyBackspace, keyDc, keyLeft, keyRight, keyUp,
        keyDown, keyHome, keyEnd]
  let h : SessionDelivery Unit := ⟨.type 'h', [event 104], Or.inl (by decide), by decide⟩
  let i : SessionDelivery Unit := ⟨.type 'i', [event 105], Or.inl (by decide), by decide⟩
  let ctrlS : SessionDelivery Unit := ⟨.other, [event 19], fun ch hch => by
    obtain rfl : ch = 19 := List.mem_singleton.mp (List.mem_of_mem_filter hch)
    exact hsave⟩
  obtain ⟨⟨-, z₁, hz₁, -, z₂, hz₂, -, z₃, hz₃, hsees⟩, -⟩ :=
    editor_screen_simulates taggingProto_lawful (lit "alice") 0 Db.fresh (by decide) 0 none
      (fun cs hcs => by cases hcs) (Or.inl ⟨rfl, rfl⟩) (fun _ => 0) 0 [h, i, ctrlS]
  obtain rfl : z₃ = ⟨['i', 'h'], []⟩ := by
    rw [show z₃ = z₂ from hz₃, show z₂ = z₁.insert 'i' from hz₂,
      show z₁ = (Zipper.atEnd []).insert 'h' from hz₁]
    rfl
  have hs : sessionDeliver taggingProto (lit "alice") 0 (sessionDeliver taggingProto (lit "alice") 0
      (sessionDeliver taggingProto (lit "alice") 0 (Session.opened 0 none Db.fresh) h) i) ctrlS
        = s := by
    rw [sessionDeliver, sessionDeliver, sessionDeliver, ← final_append, ← final_append]
    rfl
  rw [Option.map_none, hs] at hsees
  obtain ⟨date, hdate⟩ : ∃ date, formatTs (fun _ => 0) 0 = some date :=
    Option.isSome_iff_exists.mp (by decide +kernel)
  exact hsees (by decide +kernel) ⟨24, 80, by decide, by decide⟩ date hdate

end Diary
