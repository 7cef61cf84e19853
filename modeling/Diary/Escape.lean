/-
Diary/Escape.lean

Leaving the editor.  `escapeStep` is the loop of `screen_editor` over
events, beside two things only a reader of the run can know and the loop
does not keep: whether the text was changed since it was opened or last
saved (`unsaved`), and whether the event before was an ESC pressed with
such changes (`warned`).

`Leaves` says what the user may count on at one event.  The flag `dirty`
follows `unsaved` (`EscapeInv`), but ESC tests it for being non-zero before
it tests it for being -1, so the second ESC warns as the first did: the
loop keeps its word exactly in the runs without such a second ESC
(`leaves_iff`).
-/
import Diary.Editor
import Diary.Machine

namespace Diary

open CString Machine

/-! ### The loop over events -/

/-- An iteration, and the id the network call returns if it makes one. -/
structure EditorEvent where
  inp : EditorInput
  newId : Int32
deriving DecidableEq

/-- The loop, and what a reader of the run knows. -/
structure EscapeState where
  editor : Editor
  running : Bool
  unsaved : Bool
  warned : Bool
deriving DecidableEq

/-- What an event did. -/
inductive Happened
  | stayed
  | sentSave
  | left
  | over
deriving DecidableEq

def EscapeState.opened (entryId : Int32) (initialText : Option Bytes) : EscapeState :=
  { editor := Editor.opened entryId initialText
    running := true
    unsaved := false
    warned := false }

def escapeStep (s : EscapeState) (ev : EditorEvent) : EscapeState × Happened :=
  if s.running then
    let warned := decide (ev.inp.ch = 27) && s.unsaved
    match s.editor.iterate ev.inp with
    | .continue e =>
        (⟨e, true, s.unsaved || decide (e.buf ≠ s.editor.buf), warned⟩, .stayed)
    | .leave e => (⟨e, false, s.unsaved, warned⟩, .left)
    | .save e =>
        (⟨e.finishSave ev.newId, true, s.unsaved && !decide (0 < ev.newId.toInt), warned⟩,
          .sentSave)
  else (s, .over)

/-! ### What the user may count on -/

/-- ESC leaves when nothing is unsaved; with unsaved changes a first ESC
stays and warns, and a second one right after it leaves, without a save;
nothing else leaves, short of memory running out. -/
structure Leaves (s : EscapeState) (ev : EditorEvent) : Prop where
  clean : ev.inp.ch = 27 → s.unsaved = false → (escapeStep s ev).1.running = false
  first : ev.inp.ch = 27 → s.unsaved = true → s.warned = false →
    (escapeStep s ev).1.running = true ∧ (escapeStep s ev).1.editor.status = .unsavedChanges
  second : ev.inp.ch = 27 → s.unsaved = true → s.warned = true →
    (escapeStep s ev).1.running = false ∧ (escapeStep s ev).2 = .left
  other : ev.inp.ch ≠ 27 → ev.inp.realloc = true → (escapeStep s ev).1.running = true

/-- No ESC comes right after an ESC pressed with unsaved changes. -/
def NoSecondEscape (s : EscapeState) (ev : EditorEvent) : Prop :=
  ¬ (ev.inp.ch = 27 ∧ s.warned = true)

/-! ### One event -/

/-- The flag says whether anything is unsaved, and a warning is only given
about something unsaved. -/
structure EscapeInv (s : EscapeState) : Prop where
  dirty_iff : s.editor.dirty ≠ 0 ↔ s.unsaved = true
  unsaved_of_warned : s.warned = true → s.unsaved = true
  cursor : s.editor.CursorInText

theorem escapeInv_opened (entryId : Int32) (initialText : Option Bytes) :
    EscapeInv (EscapeState.opened entryId initialText) where
  dirty_iff := by simp [EscapeState.opened, Editor.opened]
  unsaved_of_warned := nofun
  cursor := le_refl _

theorem escapeInv_step {s : EscapeState} (h : EscapeInv s) (ev : EditorEvent) :
    EscapeInv (escapeStep s ev).1 := by
  obtain ⟨e, running, unsaved, warned⟩ := s
  cases running with
  | false => exact h
  | true =>
      obtain ⟨hdirty, hwarned, hcursor⟩ := h
      have hkey := iterate_effect e ev.inp
      simp only [escapeStep, if_true]
      generalize e.iterate ev.inp = o at hkey
      cases hkey with
      | look hesc hcur =>
          exact ⟨by simpa using hdirty, by simp [hesc], hcur hcursor⟩
      | edit hesc hnul hcur =>
          obtain ⟨hin, hlen⟩ := hcur hcursor
          -- the text changed, since its length did
          have hne : _ ≠ e.buf := fun he => hlen (congrArg List.length he)
          exact ⟨by simp [hne], by simp [hesc], hin⟩
      | warn hesc hd =>
          have hun : unsaved = true := hdirty.mp hd
          exact ⟨by simp [hun], by simp [hun], hcursor⟩
      | leave hesc hd => exact ⟨hdirty, by simp, hcursor⟩
      | noMemory hesc halloc => exact ⟨hdirty, by simp, hcursor⟩
      | save hesc hdue =>
          refine ⟨?_, by simp [hesc], by simpa [Editor.CursorInText] using hcursor⟩
          rw [finishSave_dirty]
          by_cases hid : 0 < ev.newId.toInt
          · simp [hid]
          · simpa [hid] using hdirty

/-- **One event.**  The loop keeps its word unless the event is a second
ESC. -/
theorem leaves_iff_step {s : EscapeState} (h : EscapeInv s) (hrun : s.running = true)
    (ev : EditorEvent) : Leaves s ev ↔ NoSecondEscape s ev := by
  obtain ⟨e, running, unsaved, warned⟩ := s
  obtain rfl : running = true := hrun
  obtain ⟨hdirty, hwarned, -⟩ := h
  by_cases hesc : ev.inp.ch = 27
  · have hkey : e.iterate ev.inp = (e.frame ev.inp.rows ev.inp.cols).escape := key_esc hesc
    cases unsaved with
    | false =>
        have hd : e.dirty = 0 := by simpa using hdirty
        -- nothing is unsaved, and ESC leaves at once
        have hw : ¬ warned = true := fun hw => by simpa using hwarned hw
        refine iff_of_true ?_ fun hsecond => hw hsecond.2
        constructor <;> simp [escapeStep, hkey, Editor.escape, hd, hesc]
    | true =>
        have hd : e.dirty ≠ 0 := by simpa using hdirty
        -- the flag is -1 after the first ESC, which the second takes for unsaved again
        have hstay : escapeStep ⟨e, true, true, warned⟩ ev
            = (⟨{ e.frame ev.inp.rows ev.inp.cols with status := .unsavedChanges, dirty := -1 },
                true, true, true⟩, .stayed) := by
          simp [escapeStep, hkey, Editor.escape, hd, hesc]
        cases warned with
        | false =>
            refine iff_of_true ?_ fun hsecond => by simpa using hsecond.2
            constructor <;> simp [hstay, hesc]
        | true =>
            refine iff_of_false (fun hleaves => ?_) fun hno => hno ⟨hesc, rfl⟩
            have hleft := (hleaves.second hesc rfl rfl).1
            rw [hstay] at hleft
            cases hleft
  · refine iff_of_true ?_ fun hsecond => hesc hsecond.1
    -- no other key leaves, if there is memory
    have hstays : ev.inp.realloc = true → (escapeStep ⟨e, true, unsaved, warned⟩ ev).1.running
        = true := by
      intro halloc
      have hkey := iterate_effect e ev.inp
      simp only [escapeStep, if_true]
      generalize e.iterate ev.inp = o at hkey
      cases hkey with
      | look | edit | warn | save => rfl
      | leave hesc' => exact absurd hesc' hesc
      | noMemory _ hnone => rw [halloc] at hnone; cases hnone
    exact ⟨fun h => absurd h hesc, fun h => absurd h hesc, fun h => absurd h hesc,
      fun _ => hstays⟩

/-! ### Whole sessions -/

/-- After the loop has ended nothing is left to say about an event. -/
def WhileRunning (Q : EscapeState → EditorEvent → Prop) (s : EscapeState) (ev : EditorEvent) :
    Prop := s.running = true → Q s ev

/-- **When ESC keeps its word.**  From the opening of the editor, in every
run of events, it does at every event exactly when no ESC of the run comes
right after an ESC pressed with unsaved changes. -/
theorem leaves_iff (entryId : Int32) (initialText : Option Bytes) (run : List EditorEvent) :
    Throughout escapeStep (WhileRunning Leaves) (EscapeState.opened entryId initialText) run
      ↔ Throughout escapeStep (WhileRunning NoSecondEscape)
          (EscapeState.opened entryId initialText) run :=
  throughout_congr (I := EscapeInv)
    (fun _ ev hinv => forall_congr' fun hrun => leaves_iff_step hinv hrun ev)
    (fun _ ev hinv _ => escapeInv_step hinv ev) (escapeInv_opened entryId initialText) run

/-- A new entry, one letter, ESC and ESC: the editor is still open. -/
theorem second_escape_stays :
    let press (ch : ℤ) : EditorEvent := ⟨⟨24, 80, ch, .other, true⟩, 0⟩
    let run := [press 120, press 27, press 27]
    ¬ Throughout escapeStep (WhileRunning Leaves) (EscapeState.opened 0 none) run ∧
      (final escapeStep (EscapeState.opened 0 none) run).running = true := by
  intro press run
  refine ⟨?_, by decide⟩
  rintro ⟨-, -, hsecond, -⟩
  have hleft := ((hsecond (by decide)).second (by decide) (by decide) (by decide)).1
  exact absurd hleft (by decide)

end Diary
