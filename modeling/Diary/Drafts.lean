/-
Diary/Drafts.lean

client/ui.c, the backup files of `screen_editor`, over sessions run one after
another in one working directory.  A save takes three steps: the backup is
written, the network call answers, and after a positive id the backup is
removed.  The client may die before any of them; if it does not, the three are
the save of an iteration (`screen_after_save`).

`owed` says which text a draft or an entry still owes, from the log of what
was attempted and acknowledged.  A backup is named after the entry id, and
all drafts share the name `diary_new.tmp`: the text a draft owes is on disk
as long as no other draft is saved (`drafts_survive`), and lost with the
first that is.
-/
import Diary.Editor
import Diary.Machine
import Diary.WriteAhead

namespace Diary

open CString Machine WriteAhead

/-! ### Backup files -/

/-- The files of the working directory. -/
abbrev Disk := Bytes → Option Bytes

/-- `backup_path`. -/
def backupPath (entryId : Int32) (sz : ℕ) : Bytes :=
  if 0 < entryId.toInt then snprintf sz (lit "diary_" ++ dec entryId.toInt ++ lit ".tmp")
  else snprintf sz (lit "diary_new.tmp")

/-- `backup_write`. -/
def backupWrite (entryId : Int32) (buf : Bytes) (disk : Disk) : Disk :=
  Function.update disk (backupPath entryId 64) (some buf)

/-- `backup_remove`. -/
def backupRemove (entryId : Int32) (disk : Disk) : Disk :=
  Function.update disk (backupPath entryId 64) none

/-- The id a session passes to `backup_write` and `backup_remove`. -/
def Editor.backupId (e : Editor) : Int32 := if 0 < e.entryId.toInt then e.entryId else 0

/-! ### Sessions in a directory -/

/-- What a save is of: the draft of the `n`-th session, or an entry. -/
inductive Document
  | draft (n : ℕ)
  | entry (id : { id : Int32 // 0 < id.toInt })
deriving DecidableEq

/-- Where a save stands. -/
inductive SavePhase
  | editing
  /-- the backup is written and the network call not back -/
  | calling
  /-- the call returned a positive id and the backup is still there -/
  | removing (newId : Int32)
deriving DecidableEq

/-- The editor that is open, as the `session`-th of the directory. -/
structure Screen where
  editor : Editor
  session : ℕ
  phase : SavePhase
deriving DecidableEq

structure WorkDir where
  disk : Disk
  /-- the number of sessions so far -/
  sessions : ℕ
  screen : Option Screen

inductive DirEvent
  | start (entryId : Int32) (initialText : Option Bytes)
  | key (inp : EditorInput)
  | answer (newId : Int32)
  | remove
  | crash
deriving DecidableEq

/-- The document of an editor open as the `n`-th session. -/
def Editor.document (e : Editor) (n : ℕ) : Document :=
  if h : 0 < e.entryId.toInt then .entry ⟨e.entryId, h⟩ else .draft n

/-- One step in the directory; an event the client is not waiting for does
nothing. -/
def dirStep (s : WorkDir) (ev : DirEvent) : WorkDir × Option (Note Document Bytes) :=
  match s.screen, ev with
  | none, .start entryId initialText =>
      ({ s with
          sessions := s.sessions + 1
          screen := some ⟨Editor.opened entryId initialText, s.sessions, .editing⟩ }, none)
  | some ⟨e, n, .editing⟩, .key inp =>
      match e.iterate inp with
      | .continue e => ({ s with screen := some ⟨e, n, .editing⟩ }, none)
      | .leave _ => ({ s with screen := none }, none)
      | .save e =>
          ({ s with
              disk := backupWrite e.backupId e.buf s.disk
              screen := some ⟨e, n, .calling⟩ }, some (.attempted (e.document n) e.buf))
  | some ⟨e, n, .calling⟩, .answer newId =>
      if 0 < newId.toInt then
        ({ s with screen := some ⟨e, n, .removing newId⟩ }, some (.acknowledged (e.document n)))
      else ({ s with screen := some ⟨e.finishSave newId, n, .editing⟩ }, none)
  | some ⟨e, n, .removing newId⟩, .remove =>
      ({ s with
          disk := backupRemove e.backupId s.disk
          screen := some ⟨e.finishSave newId, n, .editing⟩ }, none)
  | some _, .crash => ({ s with screen := none }, none)
  | _, _ => (s, none)

/-- A directory, and the log of what was attempted and acknowledged in it. -/
abbrev DirState := WorkDir × List (Note Document Bytes)

def recordStep (s : DirState) (ev : DirEvent) : DirState × Option (Note Document Bytes) :=
  let r := dirStep s.1 ev
  ((r.1, s.2 ++ r.2.toList), r.2)

/-- A directory no session was run in yet. -/
def DirState.fresh (disk : Disk) : DirState := (⟨disk, 0, none⟩, [])

/-! ### What the user may count on -/

/-- The last save of the document was of this text, and it was not
acknowledged. -/
def Unacknowledged (log : List (Note Document Bytes)) (d : Document) (text : Bytes) : Prop :=
  ∃ before after, log = before ++ .attempted d text :: after ∧ ∀ n ∈ after, n.doc ≠ d

/-- Every unacknowledged text is in some backup file. -/
def TextsSurvive (s : DirState) : Prop :=
  ∀ d text, Unacknowledged s.2 d text → ∃ id, s.1.disk (backupPath id 64) = some text

/-- The keys that save a draft. -/
def Editor.savesDraft (e : Editor) (ch : ℤ) : Prop :=
  ch = keyErr ∧ e.dirty ≠ 0 ∨ ch = 19 ∨ ch = keyF2 ∨ ch = 23

/-- No draft is saved while another one has an unacknowledged text. -/
def DraftsApart (s : DirState) (ev : DirEvent) : Prop :=
  ∀ e n inp, s.1.screen = some ⟨e, n, .editing⟩ → ¬ 0 < e.entryId.toInt → ev = .key inp →
    e.savesDraft inp.ch → ∀ m text, m ≠ n → ¬ Unacknowledged s.2 (.draft m) text

/-! ### Names of backup files -/

theorem backupPath_of_pos {id : Int32} (h : 0 < id.toInt) :
    backupPath id 64 = lit "diary_" ++ dec id.toInt ++ lit ".tmp" := by
  rw [backupPath, if_pos h]
  apply snprintf_eq_self
  have hlen := length_dec_int_le h.le
  have hpre : (lit "diary_").length = 6 := rfl
  have hpost : (lit ".tmp").length = 4 := rfl
  simp only [List.length_append]
  omega

theorem backupPath_of_not_pos {id : Int32} (h : ¬ 0 < id.toInt) :
    backupPath id 64 = lit "diary_" ++ lit "new.tmp" := by
  rw [backupPath, if_neg h]
  rfl

/-- The number in the name of an entry's backup reads back as its id. -/
theorem atoi_backupPath {id : Int32} (h : 0 < id.toInt) :
    atoi ((backupPath id 64).drop 6) = id := by
  rw [backupPath_of_pos h, List.append_assoc]
  show atoi (dec id.toInt ++ lit ".tmp") = id
  exact atoi_dec_append id (stopsDigits_cons rfl)

theorem atoi_backupPath_new {id : Int32} (h : ¬ 0 < id.toInt) :
    atoi ((backupPath id 64).drop 6) = 0 := by
  rw [backupPath_of_not_pos h]
  rfl

theorem backupPath_ne_new {id : Int32} (h : 0 < id.toInt) : backupPath id 64 ≠ backupPath 0 64 := by
  intro hname
  have hread := congrArg (fun name => atoi (name.drop 6)) hname
  have hnew : ¬ 0 < (0 : Int32).toInt := by decide
  simp only [atoi_backupPath h, atoi_backupPath_new hnew] at hread
  rw [hread] at h
  exact absurd h (by decide)

/-- The file of a document. -/
def Document.backup : Document → Bytes
  | .draft _ => backupPath 0 64
  | .entry id => backupPath id 64

/-- Only drafts share a file. -/
theorem backup_eq_iff {d d' : Document} :
    d'.backup = d.backup ↔ d' = d ∨ (∃ m, d' = .draft m) ∧ ∃ n, d = .draft n := by
  constructor
  · intro h
    cases d with
    | draft n =>
        cases d' with
        | draft m => exact Or.inr ⟨⟨m, rfl⟩, n, rfl⟩
        | entry id' => exact absurd h (backupPath_ne_new id'.2)
    | entry id =>
        cases d' with
        | draft m => exact absurd h.symm (backupPath_ne_new id.2)
        | entry id' =>
            have hname : backupPath id' 64 = backupPath id 64 := h
            have hid := congrArg (fun name => atoi (name.drop 6)) hname
            simp only [atoi_backupPath id'.2, atoi_backupPath id.2] at hid
            exact Or.inl (congrArg _ (Subtype.ext hid))
  · rintro (rfl | ⟨⟨m, rfl⟩, n, rfl⟩) <;> rfl

theorem backup_document (e : Editor) (n : ℕ) :
    (e.document n).backup = backupPath e.backupId 64 := by
  rw [Editor.document, Editor.backupId]
  split <;> rfl

theorem document_eq_draft {e : Editor} {n m : ℕ} (h : e.document n = .draft m) :
    ¬ 0 < e.entryId.toInt ∧ m = n := by
  rw [Editor.document] at h
  split at h
  · cases h
  · next hid => exact ⟨hid, (Document.draft.inj h).symm⟩

/-! ### Which keys save -/

theorem continue_ne_save (e e' : Editor) : Outcome.continue e ≠ .save e' := by
  intro h
  cases h

theorem insertByte_ne_save (e e' : Editor) (realloc : Bool) (b : UInt8) :
    e.insertByte realloc b ≠ .save e' := by
  obtain ⟨bufSz, ⟨-, hleave⟩ | hinsert⟩ := insertByte_cases e realloc b
  · rw [hleave]
    intro h
    cases h
  · rw [hinsert]
    exact continue_ne_save _ _

theorem editingKey_ne_save (e e' : Editor) (inp : EditorInput) : e.editingKey inp ≠ .save e' := by
  rw [Editor.editingKey]
  split
  · exact continue_ne_save _ _
  split
  · exact continue_ne_save _ _
  split
  · exact insertByte_ne_save _ _ _ _
  split
  · exact insertByte_ne_save _ _ _ _
  · exact continue_ne_save _ _

theorem navigationKey_ne_save (e e' : Editor) (inp : EditorInput) :
    e.navigationKey inp ≠ .save e' := by
  rw [Editor.navigationKey]
  iterate 7 (split; · exact continue_ne_save _ _)
  exact editingKey_ne_save e e' inp

/-- Only the keys that save a draft save anything. -/
theorem savesDraft_of_save {e e' : Editor} {inp : EditorInput} (h : e.iterate inp = .save e') :
    e.savesDraft inp.ch := by
  rw [Editor.iterate, Editor.key] at h
  split at h
  · cases h
  next hidle =>
    split at h
    · next hkey =>
        rcases hkey with herr | hkey
        · exact Or.inl ⟨herr, fun hd => hidle ⟨herr, hd⟩⟩
        · exact Or.inr (by tauto)
    split at h
    · rw [Editor.escape] at h
      split at h <;> cases h
    · exact absurd h (navigationKey_ne_save _ _ _)

/-- They save a draft whether it was changed or not. -/
theorem iterate_of_savesDraft {e : Editor} {inp : EditorInput} (hnew : ¬ 0 < e.entryId.toInt)
    (h : e.savesDraft inp.ch) : e.iterate inp = .save (e.frame inp.rows inp.cols) := by
  have hidle : ¬ (inp.ch = keyErr ∧ e.dirty = 0) := by
    rintro ⟨herr, hd⟩
    rcases h with ⟨-, hdirty⟩ | h
    · exact hdirty hd
    · rw [herr] at h
      exact absurd h (by decide)
  have hkey : inp.ch = keyErr ∨ inp.ch = 19 ∨ inp.ch = keyF2 ∨ inp.ch = 23 := by
    rcases h with ⟨herr, -⟩ | h
    · exact Or.inl herr
    · exact Or.inr (by tauto)
  rw [Editor.iterate, Editor.key, frame_dirty, if_neg hidle, if_pos hkey, Editor.saveKey,
    frame_entryId, if_neg fun h => hnew h.2]

/-- A save carried through its steps leaves the editor as an iteration of
the loop does: a failed one has no backup to remove. -/
theorem screen_after_save {s : WorkDir} {e e' : Editor} {n : ℕ} {inp : EditorInput}
    (hscreen : s.screen = some ⟨e, n, .editing⟩) (h : e.iterate inp = .save e') (newId : Int32) :
    (final dirStep s [.key inp, .answer newId, .remove]).screen
      = some ⟨e'.finishSave newId, n, .editing⟩ := by
  obtain ⟨disk, sessions, screen⟩ := s
  obtain rfl : screen = some ⟨e, n, .editing⟩ := hscreen
  have hkey : (dirStep ⟨disk, sessions, some ⟨e, n, .editing⟩⟩ (.key inp)).1
      = ⟨backupWrite e'.backupId e'.buf disk, sessions, some ⟨e', n, .calling⟩⟩ := by
    simp only [dirStep, h]
  rw [final_cons, hkey]
  by_cases hid : 0 < newId.toInt
  · simp only [final_cons, final_nil, dirStep, if_pos hid]
  · simp only [final_cons, final_nil, dirStep, if_neg hid]

/-! ### One step -/

/-- Who owes a text of the file a save is working on. -/
def FileFree (o : Document → Option Bytes) : Option Screen → Prop
  | some ⟨e, n, .calling⟩ =>
      ∀ d, d ≠ e.document n → d.backup = (e.document n).backup → o d = none
  | some ⟨e, n, .removing _⟩ => ∀ d, d.backup = (e.document n).backup → o d = none
  | _ => True

/-- Every text owed is in the file of its document, and the file a save is
working on holds no text of anyone else. -/
structure DraftsInv (s : DirState) : Prop where
  kept : Kept Document.backup s.1.disk (owed s.2)
  free : FileFree (owed s.2) s.1.screen

theorem draftsInv_fresh (disk : Disk) : DraftsInv (DirState.fresh disk) where
  kept := nofun
  free := trivial

theorem unacknowledged_iff {log : List (Note Document Bytes)} {d : Document} {text : Bytes} :
    Unacknowledged log d text ↔ owed log d = some text := owed_eq_some_iff.symm

/-- Documents other than the one saved owe nothing of its file. -/
theorem DraftsApart.others {s : DirState} {e e' : Editor} {n : ℕ} {inp : EditorInput}
    (h : DraftsApart s (.key inp)) (hscreen : s.1.screen = some ⟨e, n, .editing⟩)
    (hsave : e.iterate inp = .save e') {d : Document} (hd : d ≠ e.document n)
    (hfile : d.backup = (e.document n).backup) : owed s.2 d = none := by
  rcases backup_eq_iff.mp hfile with heq | ⟨⟨m, rfl⟩, n', hn'⟩
  · exact absurd heq hd
  · obtain ⟨hnew, rfl⟩ := document_eq_draft hn'
    have hm : m ≠ n' := fun hm => hd (by rw [hn', hm])
    refine Option.eq_none_iff_forall_not_mem.mpr fun text htext => ?_
    apply h e n' inp hscreen hnew rfl (savesDraft_of_save hsave) m text hm
    exact unacknowledged_iff.mpr htext

theorem document_of_save {e e' : Editor} {inp : EditorInput} (h : e.iterate inp = .save e')
    (n : ℕ) : e'.document n = e.document n := by
  have hkey := iterate_effect e inp
  rw [h] at hkey
  cases hkey with
  | save => rfl

/-- The backup is written, before the call. -/
theorem draftsInv_attempt {disk : Disk} {log : List (Note Document Bytes)} {e : Editor} {n : ℕ}
    (hkept : Kept Document.backup disk (owed log))
    (hothers : ∀ d, d ≠ e.document n → d.backup = (e.document n).backup → owed log d = none)
    (sessions : ℕ) :
    DraftsInv (⟨backupWrite e.backupId e.buf disk, sessions, some ⟨e, n, .calling⟩⟩,
      log ++ [.attempted (e.document n) e.buf]) where
  kept := by
    rw [backupWrite, ← backup_document e n, owed_concat]
    exact hkept.attempt _ _ hothers
  free := by
    intro d hd hfile
    rw [owed_concat, owe_of_ne (Ne.symm hd)]
    exact hothers d hd hfile

/-- The call returned a positive id: nobody owes a text of the file now. -/
theorem draftsInv_acknowledge {disk : Disk} {log : List (Note Document Bytes)} {e : Editor}
    {n : ℕ} (hkept : Kept Document.backup disk (owed log))
    (hothers : ∀ d, d ≠ e.document n → d.backup = (e.document n).backup → owed log d = none)
    (sessions : ℕ) (newId : Int32) :
    DraftsInv (⟨disk, sessions, some ⟨e, n, .removing newId⟩⟩,
      log ++ [.acknowledged (e.document n)]) where
  kept := by
    rw [owed_concat]
    exact hkept.acknowledge _
  free := by
    intro d hfile
    rw [owed_concat]
    by_cases hd : d = e.document n
    · subst hd
      exact Function.update_self _ _ _
    · rw [owe_of_ne (Ne.symm hd)]
      exact hothers d hd hfile

/-- The backup is removed. -/
theorem draftsInv_remove {disk : Disk} {log : List (Note Document Bytes)} {e : Editor} {n : ℕ}
    (hkept : Kept Document.backup disk (owed log))
    (hfree : ∀ d, d.backup = (e.document n).backup → owed log d = none) (sessions : ℕ)
    (newId : Int32) :
    DraftsInv (⟨backupRemove e.backupId disk, sessions,
      some ⟨e.finishSave newId, n, .editing⟩⟩, log) where
  kept := by
    rw [backupRemove, ← backup_document e n]
    exact hkept.clear _ hfree
  free := trivial

/-- **Step lemma.**  A step that keeps drafts apart keeps every text owed. -/
theorem draftsInv_step {s : DirState} (h : DraftsInv s) (ev : DirEvent)
    (hapart : DraftsApart s ev) : DraftsInv (recordStep s ev).1 := by
  obtain ⟨⟨disk, sessions, screen⟩, log⟩ := s
  obtain ⟨hkept, hfree⟩ := h
  -- all but the three steps of a save leave the files and the log alone
  have hsame : ∀ sessions' screen', FileFree (owed log) screen' →
      DraftsInv (⟨disk, sessions', screen'⟩, log ++ []) := by
    intro sessions' screen' hfree'
    rw [List.append_nil]
    exact ⟨hkept, hfree'⟩
  rcases screen with - | ⟨e, n, phase⟩
  · cases ev <;> exact hsame _ _ trivial
  cases phase with
  | editing =>
      cases ev with
      | key inp =>
          simp only [recordStep, dirStep]
          cases ho : e.iterate inp with
          | «continue» e' => exact hsame _ _ trivial
          | leave e' => exact hsame _ _ trivial
          | save e' =>
              apply draftsInv_attempt hkept
              rw [document_of_save ho]
              exact fun d hd hfile => hapart.others rfl ho hd hfile
      | _ => exact hsame _ _ trivial
  | calling =>
      cases ev with
      | answer newId =>
          simp only [recordStep, dirStep]
          by_cases hid : 0 < newId.toInt
          · simp only [if_pos hid]
            exact draftsInv_acknowledge hkept hfree _ _
          · simp only [if_neg hid]
            exact hsame _ _ trivial
      | crash => exact hsame _ _ trivial
      | _ => exact hsame _ _ hfree
  | removing newId =>
      cases ev with
      | remove =>
          simp only [recordStep, dirStep, Option.toList_none, List.append_nil]
          exact draftsInv_remove hkept hfree _ _
      | crash => exact hsame _ _ trivial
      | _ => exact hsame _ _ hfree

/-! ### Whole runs -/

theorem DraftsInv.survive {s : DirState} (h : DraftsInv s) : TextsSurvive s := by
  intro d text hun
  have hdisk := h.kept d text (unacknowledged_iff.mp hun)
  cases d with
  | draft n => exact ⟨0, hdisk⟩
  | entry id => exact ⟨id, hdisk⟩

/-- A draft saved over the text of another one: that text is gone, unless
the new text is the same or an entry's backup holds it too. -/
theorem not_survive_of_overwrite {s : DirState} {e : Editor} {n m : ℕ} {inp : EditorInput}
    {text : Bytes} (hscreen : s.1.screen = some ⟨e, n, .editing⟩) (hnew : ¬ 0 < e.entryId.toInt)
    (hkey : e.savesDraft inp.ch) (hm : m ≠ n) (hun : Unacknowledged s.2 (.draft m) text)
    (htext : text ≠ e.buf)
    (hentry : ∀ id : Int32, 0 < id.toInt → s.1.disk (backupPath id 64) ≠ some text) :
    ¬ TextsSurvive (recordStep s (.key inp)).1 := by
  obtain ⟨⟨disk, sessions, screen⟩, log⟩ := s
  obtain rfl : screen = some ⟨e, n, .editing⟩ := hscreen
  have hid : e.backupId = 0 := if_neg hnew
  have hdoc : e.document n = .draft n := dif_neg hnew
  have hstep : (recordStep (⟨disk, sessions, some ⟨e, n, .editing⟩⟩, log) (.key inp)).1
      = (⟨backupWrite 0 e.buf disk, sessions,
          some ⟨e.frame inp.rows inp.cols, n, .calling⟩⟩,
        log ++ [.attempted (.draft n) e.buf]) := by
    rw [← hid, ← hdoc]
    simp only [recordStep, dirStep, iterate_of_savesDraft hnew hkey]
    rfl
  rw [hstep]
  intro hsurvive
  have hstill : Unacknowledged (log ++ [.attempted (.draft n) e.buf]) (.draft m) text := by
    rw [unacknowledged_iff] at hun ⊢
    rw [owed_concat, owe_of_ne]
    · exact hun
    · exact fun h => hm (Document.draft.inj h).symm
  obtain ⟨id, hdisk⟩ := hsurvive _ _ hstill
  replace hdisk : backupWrite 0 e.buf disk (backupPath id 64) = some text := hdisk
  by_cases hpos : 0 < id.toInt
  · -- the file of an entry, which this step did not write
    apply hentry id hpos
    rw [← hdisk]
    exact (Function.update_of_ne (backupPath_ne_new hpos) _ _).symm
  · -- the file of the drafts, which holds the new text
    have hname : backupPath id 64 = backupPath 0 64 := by
      rw [backupPath_of_not_pos hpos, backupPath_of_not_pos (by decide)]
    rw [hname, backupWrite, Function.update_self] at hdisk
    exact htext (Option.some.inj hdisk).symm

/-- **Unacknowledged texts survive as long as drafts keep apart.**  Over a
directory with any files, in every run of sessions, of saves answered either
way and of crashes, in which no draft is saved while another one has an
unacknowledged text, every unacknowledged text is in a backup file in every
state.  The first draft that is saved so loses the other's text, unless the
texts are equal or an entry's backup holds it. -/
theorem drafts_survive (disk : Disk) (run : List DirEvent)
    (hrun : Throughout recordStep DraftsApart (DirState.fresh disk) run) :
    (∀ before after, run = before ++ after →
        TextsSurvive (final recordStep (DirState.fresh disk) before)) ∧
      let s := final recordStep (DirState.fresh disk) run
      ∀ e n inp m text, s.1.screen = some ⟨e, n, .editing⟩ → ¬ 0 < e.entryId.toInt →
        e.savesDraft inp.ch → m ≠ n → Unacknowledged s.2 (.draft m) text → text ≠ e.buf →
        (∀ id : Int32, 0 < id.toInt → s.1.disk (backupPath id 64) ≠ some text) →
        ¬ TextsSurvive (recordStep s (.key inp)).1 := by
  constructor
  · rintro before after rfl
    have hbefore := (throughout_append.mp hrun).1
    have hstep : ∀ s ev, DraftsInv s → DraftsApart s ev → DraftsInv (recordStep s ev).1 :=
      fun s ev h => draftsInv_step h ev
    exact (throughout_invariant hstep (draftsInv_fresh disk) before hbefore).survive
  · intro s e n inp m text hscreen hnew hkey hm hun htext hentry
    exact not_survive_of_overwrite hscreen hnew hkey hm hun htext hentry

theorem draftsApart_of_empty_log {s : DirState} (h : s.2 = []) (ev : DirEvent) :
    DraftsApart s ev := by
  rintro e n inp - - - - m text - ⟨before, after, hlog, -⟩
  rw [h] at hlog
  simp at hlog

/-- A draft whose save failed before the client died. -/
theorem drafts_survive_crash :
    let press (ch : ℤ) : DirEvent := .key ⟨24, 80, ch, .other, true⟩
    ∃ id, (final recordStep (DirState.fresh fun _ => none)
      [.start 0 none, press 97, press 19, .answer (-1), .crash]).1.disk (backupPath id 64)
        = some (lit "a") := by
  intro press
  have hrun : Throughout recordStep DraftsApart (DirState.fresh fun _ => none)
      [.start 0 none, press 97, press 19, .answer (-1), .crash] := by
    refine ⟨draftsApart_of_empty_log rfl _, draftsApart_of_empty_log rfl _,
      draftsApart_of_empty_log rfl _, ?_, ?_, trivial⟩
    · intro e n inp _ _ h
      cases h
    · intro e n inp _ _ h
      cases h
  have hsurvive := (drafts_survive (fun _ => none) _ hrun).1 _ [] (List.append_nil _).symm
  exact hsurvive (.draft 0) (lit "a") ⟨[], [], rfl, nofun⟩

/-- The save of a draft fails and the client dies; the next draft is saved
under the same name. -/
theorem next_draft_overwrites :
    let press (ch : ℤ) : DirEvent := .key ⟨24, 80, ch, .other, true⟩
    let run := [.start 0 none, press 97, press 19, .answer (-1), .crash, .start 0 none,
      press 98, press 19]
    ¬ TextsSurvive (final recordStep (DirState.fresh fun _ => none) run) := by
  intro press run hsurvive
  obtain ⟨id, hdisk⟩ := hsurvive (.draft 0) (lit "a")
    ⟨[], [.attempted (.draft 1) (lit "b")], rfl, by decide⟩
  have hdisk' : backupWrite 0 (lit "b") (backupWrite 0 (lit "a") fun _ => none) (backupPath id 64)
      = some (lit "a") := hdisk
  rw [backupWrite, backupWrite, Function.update_idem, Function.update_apply] at hdisk'
  split at hdisk' <;> exact absurd hdisk' (by decide)

end Diary
