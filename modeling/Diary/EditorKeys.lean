/-
Diary/EditorKeys.lean

The keys of `screen_editor` with `isprint` as the C library has it: a
function of a byte or EOF, and undefined on anything else (`isprint`).

The branches are those of `Editor.key` again, as functions that may be
undefined (`checkedKey`); where they are defined they are `Editor.key`
(`checkedIterate_cases`).  The last branch of all calls `isprint`, and which
keys come there depends on the cursor too: LEFT and RIGHT do when they
cannot move, and so does every function key without a branch of its own.
`keys_safe_iff` says of which runs all keys are safe.
-/
import Diary.CharEditor

namespace Diary

open CString Machine

/-! ### The branches with a partial `isprint` -/

/-- `isprint` in the C locale: of a byte, or of EOF. -/
def isprint (ch : ℤ) : Option Bool := if -1 ≤ ch ∧ ch ≤ 255 then some (isPrint ch) else none

/-- The branches `Editing`. -/
def Editor.checkedEditingKey (e : Editor) (inp : EditorInput) : Option Outcome :=
  if inp.ch = keyBackspace ∨ inp.ch = 127 ∨ inp.ch = 8 then some (.continue e.backspace)
  else if inp.ch = keyDc then some (.continue e.deleteChar)
  else if inp.ch = 10 ∨ inp.ch = 13 ∨ inp.ch = keyEnter then some (e.insertByte inp.realloc 10)
  else
    (isprint inp.ch).map fun printable : Bool =>
      if printable = true ∨ (0x80 ≤ inp.ch ∧ inp.ch ≤ 0xFF) then
        e.insertByte inp.realloc (UInt8.ofNat inp.ch.toNat)
      else .continue e

/-- The branches `Navigation` and `Mouse scroll`, and those after them. -/
def Editor.checkedNavigationKey (e : Editor) (inp : EditorInput) : Option Outcome :=
  if inp.ch = keyUp then
    some (.continue
      (if 0 < e.curVrow inp.cols then
        e.goTo inp.cols (e.curVrow inp.cols - 1) (e.curVcol inp.cols)
      else e))
  else if inp.ch = keyDown then
    some (.continue (e.goTo inp.cols (e.curVrow inp.cols + 1) (e.curVcol inp.cols)))
  else if inp.ch = keyLeft ∧ 0 < e.cursor then
    some (.continue { e with cursor := u8Back e.buf (e.cursor - 1) })
  else if inp.ch = keyRight ∧ e.cursor < e.buf.length then
    some (.continue { e with cursor := e.cursor + u8CharLen e.buf e.cursor })
  else if inp.ch = keyHome then some (.continue (e.goTo inp.cols (e.curVrow inp.cols) 0))
  else if inp.ch = keyEnd then some (.continue (e.goTo inp.cols (e.curVrow inp.cols) inp.cols))
  else if inp.ch = keyMouse then some (.continue (e.wheel inp.wheel))
  else e.checkedEditingKey inp

/-- All branches on the key. -/
def Editor.checkedKey (e : Editor) (inp : EditorInput) : Option Outcome :=
  if inp.ch = keyErr ∧ e.dirty = 0 then some (.continue e)
  else if inp.ch = keyErr ∨ inp.ch = 19 ∨ inp.ch = keyF2 ∨ inp.ch = 23 then some e.saveKey
  else if inp.ch = 27 then some e.escape
  else e.checkedNavigationKey inp

/-- One iteration of the loop; `none` is undefined behaviour. -/
def Editor.checkedIterate (e : Editor) (inp : EditorInput) : Option Outcome :=
  (e.frame inp.rows inp.cols).checkedKey inp

/-! ### Runs -/

/-- The loop, while it runs, after it, and after undefined behaviour. -/
inductive EditorRun
  | running (e : Editor)
  | ended
  | undefined
deriving DecidableEq

/-- The loop over events. -/
def checkedStep (s : EditorRun) (ev : EditorEvent) : EditorRun × Unit :=
  match s with
  | .running e =>
      match e.checkedIterate ev.inp with
      | none => (.undefined, ())
      | some (.continue e) => (.running e, ())
      | some (.leave _) => (.ended, ())
      | some (.save e) => (.running (e.finishSave ev.newId), ())
  | s => (s, ())

/-- The text, the cursor and the flag are as they were. -/
def SameText (e e' : Editor) : Prop :=
  e'.buf = e.buf ∧ e'.cursor = e.cursor ∧ e'.dirty = e.dirty

/-- What one key should do: never call `isprint` where it is undefined; as a
function key other than the three that edit, leave the text as it is, and
the flag unless it saves; and as an arrow that cannot move, change nothing. -/
structure KeySafe (e : Editor) (ev : EditorEvent) : Prop where
  defined : (checkedStep (.running e) ev).1 ≠ .undefined
  keeps : 255 < ev.inp.ch → ev.inp.ch ∉ [keyBackspace, keyDc, keyEnter] →
    ∃ e', (checkedStep (.running e) ev).1 = .running e' ∧ e'.buf = e.buf ∧
      (ev.inp.ch ≠ keyF2 → e'.dirty = e.dirty)
  left_edge : ev.inp.ch = keyLeft → e.cursor = 0 →
    ∃ e', (checkedStep (.running e) ev).1 = .running e' ∧ SameText e e'
  right_edge : ev.inp.ch = keyRight → e.cursor = e.buf.length →
    ∃ e', (checkedStep (.running e) ev).1 = .running e' ∧ SameText e e'

/-- The key is a byte or the timeout, or has a branch: of the arrows LEFT and
RIGHT only when they can move. -/
def HasBranch (e : Editor) (ch : ℤ) : Prop :=
  ch ≤ 255 ∨
    ch ∈ [keyUp, keyDown, keyHome, keyEnd, keyMouse, keyBackspace, keyDc, keyEnter, keyF2] ∨
    ch = keyLeft ∧ 0 < e.cursor ∨ ch = keyRight ∧ e.cursor < e.buf.length

/-- A condition on the keys that `wgetch` can return while the loop runs. -/
def OnKeys (Q : Editor → EditorEvent → Prop) (s : EditorRun) (ev : EditorEvent) : Prop :=
  ∀ e, s = .running e → -1 ≤ ev.inp.ch → Q e ev

/-! ### One iteration -/

theorem isprint_of_byte {ch : ℤ} (hlow : -1 ≤ ch) (hhigh : ch ≤ 255) :
    isprint ch = some (isPrint ch) := if_pos ⟨hlow, hhigh⟩

theorem isprint_of_gt {ch : ℤ} (h : 255 < ch) : isprint ch = none :=
  if_neg fun hle => absurd hle.2 (not_le.mpr h)

/-- Where they are defined, the checked branches are the branches of the
editor; they are undefined only if `isprint` is. -/
theorem checkedIterate_cases (e : Editor) (inp : EditorInput) :
    e.checkedIterate inp = some (e.iterate inp) ∨
      e.checkedIterate inp = none ∧ isprint inp.ch = none := by
  rw [Editor.checkedIterate, Editor.iterate, Editor.checkedKey, Editor.key]
  generalize e.frame inp.rows inp.cols = e
  split
  · exact Or.inl rfl
  split
  · exact Or.inl rfl
  split
  · exact Or.inl rfl
  -- the keys before the editing keys are looked at alike
  rw [Editor.checkedNavigationKey, Editor.navigationKey]
  split
  · exact Or.inl rfl
  split
  · exact Or.inl rfl
  split
  · exact Or.inl rfl
  split
  · exact Or.inl rfl
  split
  · exact Or.inl rfl
  split
  · exact Or.inl rfl
  split
  · exact Or.inl rfl
  rw [Editor.checkedEditingKey, Editor.editingKey]
  split
  · exact Or.inl rfl
  split
  · exact Or.inl rfl
  split
  · exact Or.inl rfl
  -- only the last branch asks for the class of the key
  by_cases hdom : -1 ≤ inp.ch ∧ inp.ch ≤ 255
  · rw [isprint_of_byte hdom.1 hdom.2]
    exact Or.inl rfl
  · have hnone : isprint inp.ch = none := if_neg hdom
    rw [hnone]
    exact Or.inr ⟨rfl, rfl⟩

/-- A key with a branch does not come to `isprint`, a byte may. -/
theorem checkedIterate_of_hasBranch {e : Editor} {inp : EditorInput} (hlow : -1 ≤ inp.ch)
    (h : HasBranch e inp.ch) : e.checkedIterate inp = some (e.iterate inp) := by
  rcases checkedIterate_cases e inp with hsome | ⟨hnone, hprint⟩
  · exact hsome
  rcases h with hbyte | hkey | ⟨hleft, hpos⟩ | ⟨hright, hlt⟩
  · rw [isprint_of_byte hlow hbyte] at hprint
    cases hprint
  · simp only [List.mem_cons, List.not_mem_nil, or_false] at hkey
    rw [Editor.checkedIterate, Editor.checkedKey, Editor.checkedNavigationKey,
      Editor.checkedEditingKey] at hnone
    rcases hkey with hkey | hkey | hkey | hkey | hkey | hkey | hkey | hkey | hkey <;>
      · rw [hkey] at hnone
        cases hnone
  · rw [Editor.checkedIterate, Editor.checkedKey, Editor.checkedNavigationKey, hleft] at hnone
    simp [hpos, keyErr, keyF2, keyUp, keyDown, keyLeft] at hnone
  · rw [Editor.checkedIterate, Editor.checkedKey, Editor.checkedNavigationKey, hright] at hnone
    simp [hlt, keyErr, keyF2, keyUp, keyDown, keyLeft, keyRight] at hnone

/-- A key without a branch comes to `isprint`. -/
theorem checkedIterate_of_not_hasBranch {e : Editor} {inp : EditorInput}
    (h : ¬ HasBranch e inp.ch) : e.checkedIterate inp = none := by
  simp only [HasBranch, not_or, not_le, List.mem_cons, List.not_mem_nil, or_false] at h
  obtain ⟨hhigh, ⟨hup, hdown, hhome, hend, hmouse, hback, hdc, henter, hf2⟩, hleft, hright⟩ := h
  have herr : inp.ch ≠ keyErr := by
    intro heq
    rw [heq] at hhigh
    exact absurd hhigh (by decide)
  have hleft' : ¬ (inp.ch = keyLeft ∧ 0 < (e.frame inp.rows inp.cols).cursor) := hleft
  have hright' : ¬ (inp.ch = keyRight ∧
      (e.frame inp.rows inp.cols).cursor < (e.frame inp.rows inp.cols).buf.length) := hright
  rw [Editor.checkedIterate, Editor.checkedKey, if_neg fun h => herr h.1, if_neg, if_neg,
    Editor.checkedNavigationKey, if_neg hup, if_neg hdown, if_neg hleft', if_neg hright',
    if_neg hhome, if_neg hend, if_neg hmouse, Editor.checkedEditingKey, if_neg, if_neg hdc, if_neg,
    isprint_of_gt hhigh]
  · rfl
  · simp only [henter, or_false]
    omega
  · simp only [hback, false_or]
    omega
  · omega
  · simp only [herr, hf2, false_or]
    omega

/-- A function key other than the three that edit keeps text and flag; of
these keys only F2 saves. -/
theorem iterate_function_key (e : Editor) {inp : EditorInput} (hhigh : 255 < inp.ch)
    (hedit : inp.ch ∉ [keyBackspace, keyDc, keyEnter]) :
    ∃ e', (e.iterate inp = .continue e' ∨ inp.ch = keyF2 ∧ e.iterate inp = .save e') ∧
      e'.buf = e.buf ∧ e'.dirty = e.dirty := by
  simp only [List.mem_cons, List.not_mem_nil, or_false, not_or] at hedit
  obtain ⟨hback, hdc, henter⟩ := hedit
  have herr : inp.ch ≠ keyErr := by
    intro heq
    rw [heq] at hhigh
    exact absurd hhigh (by decide)
  rw [Editor.iterate, Editor.key, if_neg fun h => herr h.1]
  split
  · next hsave =>
    -- of the saving keys only F2 is above 255
    have hf2 : inp.ch = keyF2 := by
      simp only [herr, false_or] at hsave
      omega
    rw [Editor.saveKey]
    split
    · exact ⟨_, Or.inl rfl, rfl, rfl⟩
    · exact ⟨_, Or.inr ⟨hf2, rfl⟩, rfl, rfl⟩
  -- the navigation keys move the cursor or the window
  rw [if_neg (by omega), Editor.navigationKey]
  split
  · split
    · exact ⟨_, Or.inl rfl, rfl, rfl⟩
    · exact ⟨_, Or.inl rfl, rfl, rfl⟩
  split
  · exact ⟨_, Or.inl rfl, rfl, rfl⟩
  split
  · exact ⟨_, Or.inl rfl, rfl, rfl⟩
  split
  · exact ⟨_, Or.inl rfl, rfl, rfl⟩
  split
  · exact ⟨_, Or.inl rfl, rfl, rfl⟩
  split
  · exact ⟨_, Or.inl rfl, rfl, rfl⟩
  split
  · cases inp.wheel <;> exact ⟨_, Or.inl rfl, rfl, rfl⟩
  -- the bytes among the editing keys are not above 255
  have hnoback : ¬ (inp.ch = keyBackspace ∨ inp.ch = 127 ∨ inp.ch = 8) := by
    simp only [hback, false_or]
    omega
  have hnoenter : ¬ (inp.ch = 10 ∨ inp.ch = 13 ∨ inp.ch = keyEnter) := by
    simp only [henter, or_false]
    omega
  have hnoinsert : ¬ (isPrint inp.ch = true ∨ 0x80 ≤ inp.ch ∧ inp.ch ≤ 0xFF) := by
    simp only [isPrint, Bool.and_eq_true, decide_eq_true_eq]
    omega
  rw [Editor.editingKey, if_neg hnoback, if_neg hdc, if_neg hnoenter, if_neg hnoinsert]
  exact ⟨_, Or.inl rfl, rfl, rfl⟩

/-! ### Safe keys -/

theorem not_hasBranch_left {e : Editor} (h : e.cursor = 0) : ¬ HasBranch e keyLeft := by
  rintro (hbyte | hkey | ⟨-, hpos⟩ | ⟨hright, -⟩)
  · exact absurd hbyte (by decide)
  · exact absurd hkey (by decide)
  · omega
  · exact absurd hright (by decide)

theorem not_hasBranch_right {e : Editor} (h : e.cursor = e.buf.length) :
    ¬ HasBranch e keyRight := by
  rintro (hbyte | hkey | ⟨hleft, -⟩ | ⟨-, hlt⟩)
  · exact absurd hbyte (by decide)
  · exact absurd hkey (by decide)
  · exact absurd hleft (by decide)
  · omega

/-- **When a key is safe**: exactly if it has a branch. -/
theorem keySafe_iff {e : Editor} {ev : EditorEvent} (hlow : -1 ≤ ev.inp.ch) :
    KeySafe e ev ↔ HasBranch e ev.inp.ch := by
  constructor
  · intro hsafe
    by_contra hbranch
    apply hsafe.defined
    rw [checkedStep, checkedIterate_of_not_hasBranch hbranch]
  · intro hbranch
    have hiter := checkedIterate_of_hasBranch hlow hbranch
    refine ⟨?_, fun hhigh hedit => ?_, fun hch hcursor => ?_, fun hch hcursor => ?_⟩
    · rw [checkedStep, hiter]
      cases e.iterate ev.inp <;> simp
    · obtain ⟨e', hkey | ⟨hf2, hkey⟩, hbuf, hdirty⟩ := iterate_function_key e hhigh hedit
      · refine ⟨e', ?_, hbuf, fun _ => hdirty⟩
        rw [checkedStep, hiter, hkey]
      · refine ⟨e'.finishSave ev.newId, ?_, ?_, fun hne => absurd hf2 hne⟩
        · rw [checkedStep, hiter, hkey]
        · rw [finishSave_buf, hbuf]
    · rw [hch] at hbranch
      exact absurd hbranch (not_hasBranch_left hcursor)
    · rw [hch] at hbranch
      exact absurd hbranch (not_hasBranch_right hcursor)

/-- **When the keys are safe.**  Of every session of the editor, whatever it
opened with, its keys, the sizes of the terminal and what the saves return:
every key is safe exactly if every key has a branch. -/
theorem keys_safe_iff (entryId : Int32) (initialText : Option Bytes)
    (events : List EditorEvent) :
    Throughout checkedStep (OnKeys KeySafe) (.running (Editor.opened entryId initialText)) events ↔
      Throughout checkedStep (OnKeys fun e ev => HasBranch e ev.inp.ch)
        (.running (Editor.opened entryId initialText)) events := by
  apply throughout_congr (I := fun _ => True)
  · intro s ev _
    exact forall_congr' fun e => imp_congr_right fun _ => imp_congr_right keySafe_iff
  · exact fun _ _ _ _ => trivial
  · trivial

/-- LEFT in the empty buffer of a new entry. -/
theorem left_in_new_entry_unsafe :
    ¬ Throughout checkedStep (OnKeys KeySafe) (.running (Editor.opened 0 none))
      [⟨⟨24, 80, keyLeft, .other, true⟩, 0⟩] := by
  rintro ⟨hsafe, -⟩
  exact (hsafe _ rfl (by decide)).defined (by decide)

end Diary
