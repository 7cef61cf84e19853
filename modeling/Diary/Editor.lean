/-
Diary/Editor.lean

client/ui.c, `screen_editor`: the loop over a buffer of bytes.

One iteration reads the size of the terminal, a key, the wheel when the key
is a mouse event, and whether a `realloc` succeeds (`EditorInput`).  It ends
in one of three ways (`Outcome`): the loop goes on, the loop ends, or the
buffer is to be saved.  Saving writes a backup file and makes a network
call, so it belongs to the models of a session; `finishSave` is what the
loop does with the id the call returns.

The buffer is `buf[0..buf_len)` as a list, so `buf_len` is its length;
`bufSz` is the allocation it has to fit in.  `KeyEffect` says everything an
iteration can do to the editor.
-/
import Diary.CString

namespace Diary

open CString

/-! ### UTF-8 scans -/

/-- `u8_is_cont`. -/
def u8IsCont (c : UInt8) : Bool := c &&& 0xC0 == 0x80

/-- `u8_char_len` of the character at `buf[i]`. -/
def u8CharLen (buf : Bytes) (i : ℕ) : ℕ := 1 + ((buf.drop (i + 1)).takeWhile u8IsCont).length

/-- The scan of LEFT and BACKSPACE, from index `i` down to the first byte
of a character. -/
def u8Back (buf : Bytes) : ℕ → ℕ
  | 0 => 0
  | i + 1 => if u8IsCont (buf.getD (i + 1) 0) then u8Back buf i else i + 1

/-! ### Visual positions -/

/-- The step of the loop of `get_vpos` over one byte. -/
def vposStep (cols : ℤ) (p : ℤ × ℤ) (b : UInt8) : ℤ × ℤ :=
  if u8IsCont b then p
  else if b = 10 then (p.1 + 1, 0)
  else if cols - 1 ≤ p.2 then (p.1 + 1, 1)
  else (p.1, p.2 + 1)

/-- `get_vpos`: visual row and column of an index. -/
def getVpos (buf : Bytes) (cursor : ℕ) (cols : ℤ) : ℤ × ℤ :=
  (buf.take cursor).foldl (vposStep cols) (0, 0)

/-- The loop of `vpos_to_idx` from index `i` at position `p`. -/
def vposScan (cols tvr tvc : ℤ) : Bytes → ℕ → ℤ × ℤ → ℕ
  | [], i, _ => i
  | b :: rest, i, p =>
      if u8IsCont b then vposScan cols tvr tvc rest (i + 1) p
      else if p.1 = tvr ∧ p.2 = tvc then i
      else if (b = 10 ∨ cols - 1 ≤ p.2) ∧ p.1 = tvr then i
      else vposScan cols tvr tvc rest (i + 1) (vposStep cols p b)

/-- `vpos_to_idx`. -/
def vposToIdx (buf : Bytes) (cols tvr tvc : ℤ) : ℕ := vposScan cols tvr tvc buf 0 (0, 0)

/-! ### The editor's state -/

/-- `status_msg`. -/
inductive Status
  | none
  | noChanges
  | saved
  | saveFailed (known : Bool)
  | unsavedChanges
deriving DecidableEq

def Status.text : Status → Bytes
  | .none => []
  | .noChanges => lit "No changes."
  | .saved => lit "Saved."
  | .saveFailed true => lit "Save failed. Backup: diary_X.tmp"
  | .saveFailed false => lit "Save failed. Backup: diary_new.tmp"
  | .unsavedChanges => lit "Unsaved changes. Press ESC again to discard, Ctrl+S to save."

/-- The variables of `screen_editor` that live across iterations. -/
structure Editor where
  buf : Bytes
  bufSz : ℕ
  cursor : ℕ
  entryId : Int32
  viewTop : ℤ
  dirty : ℤ
  status : Status
deriving DecidableEq

/-- What an event of the mouse wheel is; `other` also stands for a failing
`getmouse`. -/
inductive Wheel
  | up
  | down
  | other
deriving DecidableEq

/-- What one iteration reads. -/
structure EditorInput where
  rows : ℤ
  cols : ℤ
  /-- `wgetch`; -1 is `ERR`, the autosave timeout -/
  ch : ℤ
  wheel : Wheel
  realloc : Bool
deriving DecidableEq

/-- How an iteration ends. -/
inductive Outcome
  | continue (e : Editor)
  | leave (e : Editor)
  | save (e : Editor)
deriving DecidableEq

/-! Codes of `wgetch`. -/

def keyErr : ℤ := -1
def keyDown : ℤ := 258
def keyUp : ℤ := 259
def keyLeft : ℤ := 260
def keyRight : ℤ := 261
def keyHome : ℤ := 262
def keyBackspace : ℤ := 263
def keyF2 : ℤ := 266
def keyDc : ℤ := 330
def keyEnter : ℤ := 343
def keyEnd : ℤ := 360
def keyMouse : ℤ := 409

/-- `SCROLL_LINES`. -/
def scrollLines : ℤ := 3

/-- `isprint` in the C locale, on any `int`. -/
def isPrint (ch : ℤ) : Bool := 0x20 ≤ ch && ch ≤ 0x7E

/-! ### Opening -/

/-- The loop that doubles `buf_sz` until a text of `len` bytes and its NUL
fit; `len` rounds are more than it needs. -/
def growSize (len : ℕ) : ℕ → ℕ → ℕ
  | 0, sz => sz
  | n + 1, sz => if sz ≤ len + 1 then growSize len n (2 * sz) else sz

/-- The variables of `screen_editor` before its loop. -/
def Editor.opened (entryId : Int32) (initialText : Option Bytes) : Editor :=
  let text := cstr (initialText.getD [])
  { buf := text
    bufSz := growSize text.length text.length 4096
    cursor := text.length
    entryId := entryId
    viewTop := 0
    dirty := 0
    status := .none }

/-! ### One iteration -/

/-- `cur_vrow` and `cur_vcol`. -/
def Editor.curVrow (e : Editor) (cols : ℤ) : ℤ := (getVpos e.buf e.cursor cols).1

def Editor.curVcol (e : Editor) (cols : ℤ) : ℤ := (getVpos e.buf e.cursor cols).2

/-- The top of the loop: the view follows the cursor, and the status line,
once shown, is cleared. -/
def Editor.frame (e : Editor) (rows cols : ℤ) : Editor :=
  let top := if e.curVrow cols < e.viewTop then e.curVrow cols else e.viewTop
  let top := if top + (rows - 2) ≤ e.curVrow cols then e.curVrow cols - (rows - 2) + 1 else top
  { e with viewTop := if top < 0 then 0 else top, status := .none }

/-- Ctrl+S and the timeout. -/
def Editor.saveKey (e : Editor) : Outcome :=
  if e.dirty = 0 ∧ 0 < e.entryId.toInt then .continue { e with status := .noChanges }
  else .save e

/-- ESC. -/
def Editor.escape (e : Editor) : Outcome :=
  if e.dirty ≠ 0 then .continue { e with status := .unsavedChanges, dirty := -1 }
  else .leave e

/-- The cursor moves to a visual position. -/
def Editor.goTo (e : Editor) (cols tvr tvc : ℤ) : Editor :=
  { e with cursor := vposToIdx e.buf cols tvr tvc }

def Editor.wheel (e : Editor) : Wheel → Editor
  | .up => { e with viewTop := if e.viewTop - scrollLines < 0 then 0 else e.viewTop - scrollLines }
  | .down => { e with viewTop := e.viewTop + scrollLines }
  | .other => e

def Editor.backspace (e : Editor) : Editor :=
  if 0 < e.cursor then
    let start := u8Back e.buf (e.cursor - 1)
    { e with buf := e.buf.take start ++ e.buf.drop e.cursor, cursor := start, dirty := 1 }
  else e

def Editor.deleteChar (e : Editor) : Editor :=
  if e.cursor < e.buf.length then
    let clen := u8CharLen e.buf e.cursor
    { e with buf := e.buf.take e.cursor ++ e.buf.drop (e.cursor + clen), dirty := 1 }
  else e

/-- Insertion of one byte, after the buffer has grown if it is full. -/
def Editor.insertByte (e : Editor) (realloc : Bool) (b : UInt8) : Outcome :=
  if e.bufSz ≤ e.buf.length + 1 ∧ realloc = false then .leave { e with bufSz := 2 * e.bufSz }
  else
    .continue
      { e with
        buf := e.buf.take e.cursor ++ b :: e.buf.drop e.cursor
        bufSz := if e.bufSz ≤ e.buf.length + 1 then 2 * e.bufSz else e.bufSz
        cursor := e.cursor + 1
        dirty := 1 }

/-- The branches `Editing`. -/
def Editor.editingKey (e : Editor) (inp : EditorInput) : Outcome :=
  if inp.ch = keyBackspace ∨ inp.ch = 127 ∨ inp.ch = 8 then .continue e.backspace
  else if inp.ch = keyDc then .continue e.deleteChar
  else if inp.ch = 10 ∨ inp.ch = 13 ∨ inp.ch = keyEnter then e.insertByte inp.realloc 10
  else if isPrint inp.ch ∨ (0x80 ≤ inp.ch ∧ inp.ch ≤ 0xFF) then
    e.insertByte inp.realloc (UInt8.ofNat inp.ch.toNat)
  else .continue e

/-- The branches `Navigation` and `Mouse scroll`, and those after them. -/
def Editor.navigationKey (e : Editor) (inp : EditorInput) : Outcome :=
  if inp.ch = keyUp then
    .continue
      (if 0 < e.curVrow inp.cols then
        e.goTo inp.cols (e.curVrow inp.cols - 1) (e.curVcol inp.cols)
      else e)
  else if inp.ch = keyDown then
    .continue (e.goTo inp.cols (e.curVrow inp.cols + 1) (e.curVcol inp.cols))
  else if inp.ch = keyLeft ∧ 0 < e.cursor then
    .continue { e with cursor := u8Back e.buf (e.cursor - 1) }
  else if inp.ch = keyRight ∧ e.cursor < e.buf.length then
    .continue { e with cursor := e.cursor + u8CharLen e.buf e.cursor }
  else if inp.ch = keyHome then .continue (e.goTo inp.cols (e.curVrow inp.cols) 0)
  else if inp.ch = keyEnd then .continue (e.goTo inp.cols (e.curVrow inp.cols) inp.cols)
  else if inp.ch = keyMouse then .continue (e.wheel inp.wheel)
  else e.editingKey inp

/-- All branches on the key. -/
def Editor.key (e : Editor) (inp : EditorInput) : Outcome :=
  if inp.ch = keyErr ∧ e.dirty = 0 then .continue e
  else if inp.ch = keyErr ∨ inp.ch = 19 ∨ inp.ch = keyF2 ∨ inp.ch = 23 then e.saveKey
  else if inp.ch = 27 then e.escape
  else e.navigationKey inp

/-- One iteration of the loop. -/
def Editor.iterate (e : Editor) (inp : EditorInput) : Outcome :=
  (e.frame inp.rows inp.cols).key inp

/-- What the loop does with the id a save returned. -/
def Editor.finishSave (e : Editor) (newId : Int32) : Editor :=
  if 0 < newId.toInt then
    { e with
      entryId := if e.entryId.toInt ≤ 0 then newId else e.entryId
      dirty := 0
      status := .saved }
  else { e with status := .saveFailed (0 < e.entryId.toInt) }

/-! ### Indices stay in the text -/

theorem u8Back_le (buf : Bytes) (i : ℕ) : u8Back buf i ≤ i := by
  induction i with
  | zero => exact le_refl _
  | succ i ih =>
      rw [u8Back]
      split
      · exact ih.trans (Nat.le_succ i)
      · exact le_refl _

theorem u8CharLen_pos (buf : Bytes) (i : ℕ) : 0 < u8CharLen buf i := by
  rw [u8CharLen]
  omega

theorem add_u8CharLen_le {buf : Bytes} {i : ℕ} (h : i < buf.length) :
    i + u8CharLen buf i ≤ buf.length := by
  have hle := (List.takeWhile_prefix (l := buf.drop (i + 1)) u8IsCont).length_le
  rw [List.length_drop] at hle
  rw [u8CharLen]
  omega

theorem vposScan_le (cols tvr tvc : ℤ) (bs : Bytes) (i : ℕ) (p : ℤ × ℤ) :
    vposScan cols tvr tvc bs i p ≤ i + bs.length := by
  induction bs generalizing i p with
  | nil => exact le_refl _
  | cons b bs ih =>
      have hstep := fun p => ih (i + 1) p
      simp only [vposScan, List.length_cons]
      split
      · have := hstep p
        omega
      split
      · omega
      split
      · omega
      · have := hstep (vposStep cols p b)
        omega

theorem vposToIdx_le (buf : Bytes) (cols tvr tvc : ℤ) :
    vposToIdx buf cols tvr tvc ≤ buf.length := by
  have h := vposScan_le cols tvr tvc buf 0 (0, 0)
  rwa [Nat.zero_add] at h

/-! ### What an iteration can do -/

@[simp] theorem frame_buf (e : Editor) (rows cols : ℤ) : (e.frame rows cols).buf = e.buf := rfl

@[simp] theorem frame_bufSz (e : Editor) (rows cols : ℤ) :
    (e.frame rows cols).bufSz = e.bufSz := rfl

@[simp] theorem frame_cursor (e : Editor) (rows cols : ℤ) :
    (e.frame rows cols).cursor = e.cursor := rfl

@[simp] theorem frame_entryId (e : Editor) (rows cols : ℤ) :
    (e.frame rows cols).entryId = e.entryId := rfl

@[simp] theorem frame_dirty (e : Editor) (rows cols : ℤ) :
    (e.frame rows cols).dirty = e.dirty := rfl

@[simp] theorem finishSave_buf (e : Editor) (newId : Int32) :
    (e.finishSave newId).buf = e.buf := by
  rw [Editor.finishSave]
  split <;> rfl

@[simp] theorem finishSave_cursor (e : Editor) (newId : Int32) :
    (e.finishSave newId).cursor = e.cursor := by
  rw [Editor.finishSave]
  split <;> rfl

theorem finishSave_dirty (e : Editor) (newId : Int32) :
    (e.finishSave newId).dirty = if 0 < newId.toInt then 0 else e.dirty := by
  rw [Editor.finishSave]
  split <;> rfl

theorem finishSave_entryId (e : Editor) (newId : Int32) :
    (e.finishSave newId).entryId
      = if 0 < newId.toInt ∧ e.entryId.toInt ≤ 0 then newId else e.entryId := by
  rw [Editor.finishSave]
  by_cases hid : 0 < newId.toInt <;> simp [hid]

/-- The cursor is in the text or at its end. -/
def Editor.CursorInText (e : Editor) : Prop := e.cursor ≤ e.buf.length

/-- Everything an iteration can do. -/
inductive KeyEffect (e : Editor) (inp : EditorInput) : Outcome → Prop
  /-- the text and the flag stay -/
  | look {cursor viewTop status} (hesc : inp.ch ≠ 27)
      (hcursor : e.CursorInText → cursor ≤ e.buf.length) :
      KeyEffect e inp
        (.continue { e with cursor := cursor, viewTop := viewTop, status := status })
  /-- the text changes and the flag is set -/
  | edit {buf bufSz cursor viewTop status} (hesc : inp.ch ≠ 27) (hnul : 0 ∉ e.buf → 0 ∉ buf)
      (hcursor : e.CursorInText → cursor ≤ buf.length ∧ buf.length ≠ e.buf.length) :
      KeyEffect e inp
        (.continue { e with
          buf := buf, bufSz := bufSz, cursor := cursor, viewTop := viewTop, dirty := 1,
          status := status })
  /-- ESC with unsaved changes -/
  | warn {viewTop} (hesc : inp.ch = 27) (hdirty : e.dirty ≠ 0) :
      KeyEffect e inp
        (.continue { e with viewTop := viewTop, status := .unsavedChanges, dirty := -1 })
  /-- ESC without -/
  | leave {viewTop status} (hesc : inp.ch = 27) (hdirty : e.dirty = 0) :
      KeyEffect e inp (.leave { e with viewTop := viewTop, status := status })
  /-- a save that is due: something changed, or the entry is new -/
  | save {viewTop status} (hesc : inp.ch ≠ 27) (hdue : e.dirty ≠ 0 ∨ ¬ 0 < e.entryId.toInt) :
      KeyEffect e inp (.save { e with viewTop := viewTop, status := status })
  /-- no memory for the byte typed -/
  | noMemory {bufSz viewTop status} (hesc : inp.ch ≠ 27) (halloc : inp.realloc = false) :
      KeyEffect e inp
        (.leave { e with bufSz := bufSz, viewTop := viewTop, status := status })

/-- The byte of a printable or high key is not NUL. -/
theorem ofNat_key_ne_zero {ch : ℤ} (h : isPrint ch = true ∨ (0x80 ≤ ch ∧ ch ≤ 0xFF)) :
    UInt8.ofNat ch.toNat ≠ 0 := by
  have hrange : 0x20 ≤ ch ∧ ch ≤ 0xFF := by
    rcases h with h | h
    · simp only [isPrint, Bool.and_eq_true, decide_eq_true_eq] at h
      omega
    · omega
  intro h0
  have hlt : ch.toNat < UInt8.size := by
    have : UInt8.size = 256 := rfl
    omega
  have hnat := congrArg UInt8.toNat h0
  rw [UInt8.toNat_ofNat_of_lt' hlt, show (0 : UInt8).toNat = 0 from rfl] at hnat
  omega

theorem zero_notMem_take_append_drop {buf : Bytes} (h : (0 : UInt8) ∉ buf) (i j : ℕ) :
    (0 : UInt8) ∉ buf.take i ++ buf.drop j := by
  intro hmem
  rcases List.mem_append.mp hmem with hmem | hmem
  · exact h (List.mem_of_mem_take hmem)
  · exact h (List.mem_of_mem_drop hmem)

/-- The byte is inserted, unless the buffer has to grow and cannot. -/
theorem insertByte_cases (e : Editor) (realloc : Bool) (b : UInt8) :
    ∃ bufSz, realloc = false ∧ e.insertByte realloc b = .leave { e with bufSz := bufSz } ∨
      e.insertByte realloc b = .continue
        { e with
          buf := e.buf.take e.cursor ++ b :: e.buf.drop e.cursor
          bufSz := bufSz
          cursor := e.cursor + 1
          dirty := 1 } := by
  rw [Editor.insertByte]
  split
  · next h => exact ⟨_, Or.inl ⟨h.2, rfl⟩⟩
  · exact ⟨_, Or.inr rfl⟩

theorem insertByte_effect (e : Editor) (inp : EditorInput) (hesc : inp.ch ≠ 27) {b : UInt8}
    (hb : b ≠ 0) : KeyEffect e inp (e.insertByte inp.realloc b) := by
  obtain ⟨bufSz, ⟨halloc, hleave⟩ | hinsert⟩ := insertByte_cases e inp.realloc b
  · rw [hleave]
    exact .noMemory hesc halloc
  · rw [hinsert]
    refine .edit hesc (fun hnul hmem => ?_) fun hcursor => ?_
    · rcases List.mem_append.mp hmem with hmem | hmem
      · exact hnul (List.mem_of_mem_take hmem)
      · rcases List.mem_cons.mp hmem with hmem | hmem
        · exact hb hmem.symm
        · exact hnul (List.mem_of_mem_drop hmem)
    · replace hcursor : e.cursor ≤ e.buf.length := hcursor
      simp only [List.length_append, List.length_cons, List.length_take, List.length_drop]
      omega

theorem backspace_effect (e : Editor) (inp : EditorInput) (hesc : inp.ch ≠ 27) :
    KeyEffect e inp (.continue e.backspace) := by
  rw [Editor.backspace]
  split
  · next hpos =>
      refine .edit hesc (fun hnul => zero_notMem_take_append_drop hnul _ _) fun hcursor => ?_
      have hback := u8Back_le e.buf (e.cursor - 1)
      rw [Editor.CursorInText] at hcursor
      simp only [List.length_append, List.length_take, List.length_drop]
      omega
  · exact .look hesc fun hcursor => hcursor

theorem deleteChar_effect (e : Editor) (inp : EditorInput) (hesc : inp.ch ≠ 27) :
    KeyEffect e inp (.continue e.deleteChar) := by
  rw [Editor.deleteChar]
  split
  · next hlt =>
      refine .edit hesc (fun hnul => zero_notMem_take_append_drop hnul _ _) fun hcursor => ?_
      have hlen := add_u8CharLen_le hlt
      have hpos := u8CharLen_pos e.buf e.cursor
      simp only [List.length_append, List.length_take, List.length_drop]
      omega
  · exact .look hesc fun hcursor => hcursor

theorem editingKey_effect (e : Editor) (inp : EditorInput) (hesc : inp.ch ≠ 27) :
    KeyEffect e inp (e.editingKey inp) := by
  rw [Editor.editingKey]
  split
  · exact backspace_effect e inp hesc
  split
  · exact deleteChar_effect e inp hesc
  split
  · exact insertByte_effect e inp hesc (by decide)
  split
  · next h => exact insertByte_effect e inp hesc (ofNat_key_ne_zero h)
  · exact .look hesc fun hcursor => hcursor

theorem navigationKey_effect (e : Editor) (inp : EditorInput) (hesc : inp.ch ≠ 27) :
    KeyEffect e inp (e.navigationKey inp) := by
  rw [Editor.navigationKey]
  split
  · split
    · exact .look hesc fun _ => vposToIdx_le _ _ _ _
    · exact .look hesc fun hcursor => hcursor
  split
  · exact .look hesc fun _ => vposToIdx_le _ _ _ _
  split
  · refine .look hesc fun hcursor => (u8Back_le _ _).trans ?_
    exact (Nat.sub_le _ _).trans hcursor
  split
  · next h => exact .look hesc fun _ => add_u8CharLen_le h.2
  split
  · exact .look hesc fun _ => vposToIdx_le _ _ _ _
  split
  · exact .look hesc fun _ => vposToIdx_le _ _ _ _
  split
  · cases inp.wheel <;> exact .look hesc fun hcursor => hcursor
  · exact editingKey_effect e inp hesc

theorem key_esc {e : Editor} {inp : EditorInput} (h : inp.ch = 27) : e.key inp = e.escape := by
  simp [Editor.key, h, keyErr, keyF2]

theorem key_effect (e : Editor) (inp : EditorInput) : KeyEffect e inp (e.key inp) := by
  by_cases hesc : inp.ch = 27
  · rw [key_esc hesc, Editor.escape]
    split
    · next hdirty => exact .warn hesc hdirty
    · next hdirty => exact .leave hesc (not_not.mp hdirty)
  rw [Editor.key]
  rw [if_neg hesc]
  split
  · exact .look hesc fun hcursor => hcursor
  split
  · unfold Editor.saveKey
    split
    · exact .look hesc fun hcursor => hcursor
    · next hdue => exact .save hesc (by omega)
  · exact navigationKey_effect e inp hesc

/-- **Step lemma of the editor.** -/
theorem iterate_effect (e : Editor) (inp : EditorInput) : KeyEffect e inp (e.iterate inp) := by
  have h := key_effect (e.frame inp.rows inp.cols) inp
  rw [Editor.iterate]
  generalize (e.frame inp.rows inp.cols).key inp = o at h ⊢
  cases h with
  | look hesc hcursor => exact .look hesc hcursor
  | edit hesc hnul hcursor => exact .edit hesc hnul hcursor
  | warn hesc hdirty => exact .warn hesc hdirty
  | leave hesc hdirty => exact .leave hesc hdirty
  | save hesc hdue => exact .save hesc hdue
  | noMemory hesc halloc => exact .noMemory hesc halloc

end Diary
