/-
Diary/EditorBuffer.lean

`screen_editor` on memory: the buffer is a block of `buf_sz` bytes with
checked access, `buf_len` and `cursor` are `size_t` with checked
subtraction, and every loop reads the block byte by byte.  An access outside
the block, to a byte that was never written, or a subtraction below zero
makes the whole iteration `none`.

`StoresText r text` is the representation invariant: the block begins with
`text`, a text without NUL, `buf_len` is its length and leaves room for one
byte more, and the cursor is within it.  The raw editor then computes what
the editor over lists does (`iterate_refines`), so it is never undefined, in
no run (`editor_buffer_safe`).
-/
import Diary.Memory
import Diary.Layout

namespace Diary

open CString Machine Memory

/-! ### Reading the buffer -/

namespace Raw

/-- A `size_t` subtraction that does not wrap. -/
def sub (a b : ℕ) : Option ℕ := if b ≤ a then some (a - b) else none

/-- The loop of `u8_char_len`.  Here and in the loops below the first number
bounds the rounds; an index grows in each, so `len` rounds are enough. -/
def charLenLoop (buf : Block UInt8) (len i : ℕ) : ℕ → ℕ → Option ℕ
  | 0, n => some n
  | k + 1, n =>
      if i + n < len then do
        let b ← buf.load (i + n)
        if u8IsCont b then charLenLoop buf len i k (n + 1) else some n
      else some n

/-- `u8_char_len`. -/
def u8CharLen (buf : Block UInt8) (len i : ℕ) : Option ℕ := charLenLoop buf len i len 1

def vposLoop (buf : Block UInt8) (len cursor : ℕ) (cols : ℤ) :
    ℕ → ℕ → ℤ × ℤ → Option (ℤ × ℤ)
  | 0, _, p => some p
  | k + 1, i, p =>
      if i < cursor ∧ i < len then do
        let b ← buf.load i
        vposLoop buf len cursor cols k (i + 1) (vposStep cols p b)
      else some p

/-- `get_vpos`. -/
def getVpos (buf : Block UInt8) (len cursor : ℕ) (cols : ℤ) : Option (ℤ × ℤ) :=
  vposLoop buf len cursor cols len 0 (0, 0)

def idxLoop (buf : Block UInt8) (len : ℕ) (cols tvr tvc : ℤ) : ℕ → ℕ → ℤ × ℤ → Option ℕ
  | 0, _, _ => some len
  | k + 1, i, p => do
      let skip ← if i < len then (buf.load i).map u8IsCont else some false
      if skip then idxLoop buf len cols tvr tvc k (i + 1) p
      else if p.1 = tvr ∧ p.2 = tvc then some i
      else if i = len then some i
      else do
        let ch ← buf.load i
        if (ch = 10 ∨ cols - 1 ≤ p.2) ∧ p.1 = tvr then some i
        else idxLoop buf len cols tvr tvc k (i + 1) (vposStep cols p ch)

/-- `vpos_to_idx`. -/
def vposToIdx (buf : Block UInt8) (len : ℕ) (cols tvr tvc : ℤ) : Option ℕ :=
  idxLoop buf len cols tvr tvc (len + 1) 0 (0, 0)

/-- A character is added at visual position `q`, in a window of `rows` rows
whose view starts at `top`: `mvwaddnstr` reads its bytes, if it is called. -/
def addChar (buf : Block UInt8) (rows top : ℤ) (i clen : ℕ) (q : ℤ × ℤ) : Option (List Glyph) :=
  let wr := q.1 - top + 1
  if 1 ≤ wr ∧ wr < rows - 1 then (buf.loads i clen).map fun s => [⟨i, s, wr, q.2⟩]
  else some []

/-- The draw loop: the characters it adds, at their rows of the window. -/
def drawLoop (buf : Block UInt8) (len : ℕ) (rows cols top : ℤ) :
    ℕ → ℕ → ℤ × ℤ → Option (List Glyph)
  | 0, _, _ => some []
  | k + 1, i, p =>
      if i < len then do
        let c ← buf.load i
        let clen ← u8CharLen buf len i
        let q := if c = 10 ∨ cols - 1 ≤ p.2 then (p.1 + 1, 0) else p
        if c = 10 then drawLoop buf len rows cols top k (i + 1) q
        else do
          let added ← addChar buf rows top i clen q
          let rest ← drawLoop buf len rows cols top k (i + clen) (q.1, q.2 + 1)
          some (added ++ rest)
      else some []

/-- The scan of LEFT and BACKSPACE. -/
def back (buf : Block UInt8) : ℕ → Option ℕ
  | 0 => some 0
  | i + 1 => do
      let b ← buf.load (i + 1)
      if u8IsCont b then back buf i else some (i + 1)

end Raw

/-! ### The raw editor -/

/-- The variables of `screen_editor`. -/
structure RawEditor where
  buf : Block UInt8
  bufSz : ℕ
  bufLen : ℕ
  cursor : ℕ
  entryId : Int32
  viewTop : ℤ
  dirty : ℤ
  status : Status

/-- How an iteration ends.  A save hands over the bytes it writes to the
backup file and the string it sends. -/
inductive RawOutcome
  | continue (r : RawEditor)
  | leave (r : RawEditor)
  | save (r : RawEditor) (backup sent : Bytes)

namespace RawEditor

/-- The variables before the loop: `calloc`, and for an entry `realloc` and
`memcpy`. -/
def opened (entryId : Int32) (initialText : Option Bytes) : Option RawEditor :=
  let r : RawEditor := ⟨Block.calloc 0 4096, 4096, 0, 0, entryId, 0, 0, .none⟩
  match initialText with
  | none => some r
  | some text => do
      let len := (cstr text).length
      let sz := growSize len len 4096
      let buf ← ((Block.calloc 0 4096).realloc sz).write 0 (cstr text)
      some { r with buf := buf, bufSz := sz, bufLen := len, cursor := len }

/-- The view follows the cursor, in visual row `vr`. -/
def frame (r : RawEditor) (rows vr : ℤ) : RawEditor :=
  let top := if vr < r.viewTop then vr else r.viewTop
  let top := if top + (rows - 2) ≤ vr then vr - (rows - 2) + 1 else top
  { r with viewTop := if top < 0 then 0 else top, status := .none }

/-- Ctrl+S and the timeout: the text is ended by a NUL. -/
def saveKey (r : RawEditor) : Option RawOutcome :=
  if r.dirty = 0 ∧ 0 < r.entryId.toInt then some (.continue { r with status := .noChanges })
  else do
    let buf ← r.buf.store r.bufLen 0
    let backup ← buf.loads 0 r.bufLen
    let sent ← buf.string 0
    some (.save { r with buf := buf } backup sent)

def escape (r : RawEditor) : RawOutcome :=
  if r.dirty ≠ 0 then .continue { r with status := .unsavedChanges, dirty := -1 }
  else .leave r

def goTo (r : RawEditor) (cols tvr tvc : ℤ) : Option RawEditor := do
  let cursor ← Raw.vposToIdx r.buf r.bufLen cols tvr tvc
  some { r with cursor := cursor }

def left (r : RawEditor) : Option RawEditor := do
  let cursor ← Raw.sub r.cursor 1
  let cursor ← Raw.back r.buf cursor
  some { r with cursor := cursor }

def right (r : RawEditor) : Option RawEditor := do
  let clen ← Raw.u8CharLen r.buf r.bufLen r.cursor
  some { r with cursor := r.cursor + clen }

def wheel (r : RawEditor) : Wheel → RawEditor
  | .up => { r with viewTop := if r.viewTop - scrollLines < 0 then 0 else r.viewTop - scrollLines }
  | .down => { r with viewTop := r.viewTop + scrollLines }
  | .other => r

def backspace (r : RawEditor) : Option RawEditor :=
  if 0 < r.cursor then do
    let start ← Raw.sub r.cursor 1
    let start ← Raw.back r.buf start
    let tail ← Raw.sub r.bufLen r.cursor
    let buf ← r.buf.move start r.cursor tail
    let removed ← Raw.sub r.cursor start
    let len ← Raw.sub r.bufLen removed
    some { r with buf := buf, bufLen := len, cursor := start, dirty := 1 }
  else some r

def deleteChar (r : RawEditor) : Option RawEditor :=
  if r.cursor < r.bufLen then do
    let clen ← Raw.u8CharLen r.buf r.bufLen r.cursor
    let tail ← Raw.sub r.bufLen r.cursor
    let tail ← Raw.sub tail clen
    let buf ← r.buf.move r.cursor (r.cursor + clen) tail
    let len ← Raw.sub r.bufLen clen
    some { r with buf := buf, bufLen := len, dirty := 1 }
  else some r

/-- The `memmove` and the store of an insertion. -/
def insertAt (r : RawEditor) (b : UInt8) : Option RawEditor := do
  let tail ← Raw.sub r.bufLen r.cursor
  let buf ← r.buf.move (r.cursor + 1) r.cursor tail
  let buf ← buf.store r.cursor b
  some { r with buf := buf, bufLen := r.bufLen + 1, cursor := r.cursor + 1, dirty := 1 }

def insertByte (r : RawEditor) (realloc : Bool) (b : UInt8) : Option RawOutcome :=
  if r.bufSz ≤ r.bufLen + 1 then
    if realloc then
      ({ r with buf := r.buf.realloc (2 * r.bufSz), bufSz := 2 * r.bufSz }.insertAt b).map .continue
    else some (.leave { r with bufSz := 2 * r.bufSz })
  else (r.insertAt b).map .continue

/-- The branches `Editing`. -/
def editingKey (r : RawEditor) (inp : EditorInput) : Option RawOutcome :=
  if inp.ch = keyBackspace ∨ inp.ch = 127 ∨ inp.ch = 8 then r.backspace.map .continue
  else if inp.ch = keyDc then r.deleteChar.map .continue
  else if inp.ch = 10 ∨ inp.ch = 13 ∨ inp.ch = keyEnter then r.insertByte inp.realloc 10
  else if isPrint inp.ch ∨ (0x80 ≤ inp.ch ∧ inp.ch ≤ 0xFF) then
    r.insertByte inp.realloc (UInt8.ofNat inp.ch.toNat)
  else some (.continue r)

/-- The branches `Navigation` and `Mouse scroll`, and those after them; `v` is
the visual position of the cursor. -/
def navigationKey (r : RawEditor) (inp : EditorInput) (v : ℤ × ℤ) : Option RawOutcome :=
  if inp.ch = keyUp then
    (if 0 < v.1 then r.goTo inp.cols (v.1 - 1) v.2 else some r).map .continue
  else if inp.ch = keyDown then (r.goTo inp.cols (v.1 + 1) v.2).map .continue
  else if inp.ch = keyLeft ∧ 0 < r.cursor then r.left.map .continue
  else if inp.ch = keyRight ∧ r.cursor < r.bufLen then r.right.map .continue
  else if inp.ch = keyHome then (r.goTo inp.cols v.1 0).map .continue
  else if inp.ch = keyEnd then (r.goTo inp.cols v.1 inp.cols).map .continue
  else if inp.ch = keyMouse then some (.continue (r.wheel inp.wheel))
  else r.editingKey inp

/-- All branches on the key. -/
def key (r : RawEditor) (inp : EditorInput) (v : ℤ × ℤ) : Option RawOutcome :=
  if inp.ch = keyErr ∧ r.dirty = 0 then some (.continue r)
  else if inp.ch = keyErr ∨ inp.ch = 19 ∨ inp.ch = keyF2 ∨ inp.ch = 23 then r.saveKey
  else if inp.ch = 27 then some r.escape
  else r.navigationKey inp v

/-- One iteration of the loop. -/
def iterate (r : RawEditor) (inp : EditorInput) : Option RawOutcome := do
  let v ← Raw.getVpos r.buf r.bufLen r.cursor inp.cols
  let r := r.frame inp.rows v.1
  let _ ← Raw.drawLoop r.buf r.bufLen inp.rows inp.cols r.viewTop r.bufLen 0 (0, 0)
  r.key inp v

/-- What the loop does with the id a save returned. -/
def finishSave (r : RawEditor) (newId : Int32) : RawEditor :=
  if 0 < newId.toInt then
    { r with
      entryId := if r.entryId.toInt ≤ 0 then newId else r.entryId
      dirty := 0
      status := .saved }
  else { r with status := .saveFailed (0 < r.entryId.toInt) }

end RawEditor

/-! ### The scans read the text -/

section Scans

variable {m : Block UInt8} {s : Bytes}

theorem sub_eq {a b : ℕ} (h : b ≤ a) : Raw.sub a b = some (a - b) := if_pos h

theorem load_text (h : Holds m s) {i : ℕ} (hi : i < s.length) : m.load i = some s[i] := by
  rw [load_eq h hi, List.getElem?_eq_getElem hi]

theorem charLenLoop_eq (h : Holds m s) (i : ℕ) {k n : ℕ} (hk : s.length ≤ i + n + k) :
    Raw.charLenLoop m s.length i k n
      = some (n + ((s.drop (i + n)).takeWhile u8IsCont).length) := by
  induction k generalizing n with
  | zero =>
      rw [List.drop_eq_nil_of_le (by omega)]
      rfl
  | succ k ih =>
      rw [Raw.charLenLoop]
      split
      · next hi =>
        rw [load_text h hi, List.drop_eq_getElem_cons hi]
        show (if u8IsCont s[i + n] = true then _ else _) = _
        split
        · next hcont =>
          rw [ih (by omega), List.takeWhile_cons_of_pos hcont, List.length_cons, Nat.add_assoc,
            Nat.add_assoc, Nat.add_comm 1]
        · next hcont => rw [List.takeWhile_cons_of_neg hcont]; rfl
      · next hi =>
        rw [List.drop_eq_nil_of_le (Nat.le_of_not_lt hi)]
        rfl

theorem rawCharLen_eq (h : Holds m s) (i : ℕ) :
    Raw.u8CharLen m s.length i = some (u8CharLen s i) :=
  charLenLoop_eq h i (by omega)

theorem vposLoop_eq (h : Holds m s) (cursor : ℕ) (cols : ℤ) {k i : ℕ} (hk : s.length ≤ i + k)
    (p : ℤ × ℤ) :
    Raw.vposLoop m s.length cursor cols k i p
      = some (((s.take cursor).drop i).foldl (vposStep cols) p) := by
  induction k generalizing i p with
  | zero =>
      rw [List.drop_eq_nil_of_le (by rw [List.length_take]; omega)]
      rfl
  | succ k ih =>
      rw [Raw.vposLoop]
      split
      · next hi =>
        have hlen : i < (s.take cursor).length := by
          rw [List.length_take]
          omega
        rw [load_text h hi.2, List.drop_eq_getElem_cons hlen, List.foldl_cons, List.getElem_take]
        exact ih (by omega) _
      · next hi =>
        rw [List.drop_eq_nil_of_le (by rw [List.length_take]; omega)]
        rfl

theorem rawGetVpos_eq (h : Holds m s) (cursor : ℕ) (cols : ℤ) :
    Raw.getVpos m s.length cursor cols = some (getVpos s cursor cols) :=
  vposLoop_eq h cursor cols (by omega) (0, 0)

theorem idxLoop_eq (h : Holds m s) (cols tvr tvc : ℤ) {k i : ℕ} (hi : i ≤ s.length)
    (hk : s.length < i + k) (p : ℤ × ℤ) :
    Raw.idxLoop m s.length cols tvr tvc k i p
      = some (vposScan cols tvr tvc (s.drop i) i p) := by
  induction k generalizing i p with
  | zero => exact absurd hk (by omega)
  | succ k ih =>
      rw [Raw.idxLoop]
      rcases hi.eq_or_lt with rfl | hlt
      · rw [List.drop_length, if_neg (Nat.lt_irrefl _)]
        show (if p.1 = tvr ∧ p.2 = tvc then _ else if s.length = s.length then _ else _) = _
        rw [if_pos rfl, ite_self]
        rfl
      · rw [if_pos hlt, load_text h hlt, List.drop_eq_getElem_cons hlt, vposScan]
        show (if u8IsCont s[i] = true then _ else if p.1 = tvr ∧ p.2 = tvc then _
          else if i = s.length then _ else if (s[i] = 10 ∨ cols - 1 ≤ p.2) ∧ p.1 = tvr then _
          else _) = _
        rw [ih hlt (by omega), ih hlt (by omega), if_neg hlt.ne]
        split
        · rfl
        split
        · rfl
        split <;> rfl

theorem rawVposToIdx_eq (h : Holds m s) (cols tvr tvc : ℤ) :
    Raw.vposToIdx m s.length cols tvr tvc = some (vposToIdx s cols tvr tvc) :=
  idxLoop_eq h cols tvr tvc (Nat.zero_le _) (by omega) (0, 0)

theorem rawBack_eq (h : Holds m s) {i : ℕ} (hi : i < s.length) :
    Raw.back m i = some (u8Back s i) := by
  induction i with
  | zero => rfl
  | succ i ih =>
      rw [Raw.back, load_text h hi, u8Back, List.getD_eq_getElem _ _ hi, ih (Nat.lt_of_succ_lt hi)]
      show (if u8IsCont s[i + 1] = true then _ else _) = _
      split <;> rfl

/-- The glyphs in a window of `rows` rows whose view starts at `top`. -/
def inWindow (rows top : ℤ) (drawn : List Glyph) : List Glyph :=
  drawn.filterMap fun g =>
    if 1 ≤ g.vrow - top + 1 ∧ g.vrow - top + 1 < rows - 1 then
      some { g with vrow := g.vrow - top + 1 }
    else none

theorem inWindow_cons (rows top : ℤ) (g : Glyph) (drawn : List Glyph) :
    inWindow rows top (g :: drawn) = inWindow rows top [g] ++ inWindow rows top drawn := by
  rw [inWindow, ← List.singleton_append, List.filterMap_append]
  rfl

theorem addChar_eq (h : Holds m s) (rows top : ℤ) {i clen : ℕ} (hi : i + clen ≤ s.length)
    (q : ℤ × ℤ) :
    Raw.addChar m rows top i clen q
      = some (inWindow rows top [⟨i, (s.drop i).take clen, q.1, q.2⟩]) := by
  rw [Raw.addChar, loads_eq h hi, inWindow, List.filterMap_cons]
  simp only [List.filterMap_nil]
  split <;> rfl

theorem rawDrawLoop_eq (h : Holds m s) (rows cols top : ℤ) {k i : ℕ} (p : ℤ × ℤ) :
    Raw.drawLoop m s.length rows cols top k i p
      = some (inWindow rows top (drawLoop s cols k i p).1) := by
  induction k generalizing i p with
  | zero => rfl
  | succ k ih =>
      rw [Raw.drawLoop, drawLoop]
      split
      · next hi =>
        rw [load_text h hi, rawCharLen_eq h, List.getElem?_eq_getElem hi]
        simp only [Option.bind_eq_bind, Option.bind_some, ih, addChar_eq h rows top
          (add_u8CharLen_le hi)]
        split
        · rfl
        · exact congrArg some (inWindow_cons _ _ _ _).symm
      · next hi =>
        rw [List.getElem?_eq_none (Nat.le_of_not_lt hi)]
        rfl

end Scans

/-! ### The representation invariant -/

/-- The block begins with the text, which has no NUL; there is room for one
byte more, and the cursor is in the text or at its end. -/
structure StoresText (r : RawEditor) (text : Bytes) : Prop where
  holds : Holds r.buf text
  size_eq : r.buf.size = r.bufSz
  len_eq : r.bufLen = text.length
  len_lt : text.length < r.bufSz
  cursor_le : r.cursor ≤ text.length
  nul_free : 0 ∉ text

/-- The editor over lists. -/
def RawEditor.withText (r : RawEditor) (text : Bytes) : Editor :=
  { buf := text
    bufSz := r.bufSz
    cursor := r.cursor
    entryId := r.entryId
    viewTop := r.viewTop
    dirty := r.dirty
    status := r.status }

/-- The outcome is that of the editor over lists.  A save writes and sends
the text. -/
def RawOutcome.Refines : RawOutcome → Outcome → Prop
  | .continue r, o => ∃ text, StoresText r text ∧ o = .continue (r.withText text)
  | .leave _, o => ∃ e, o = .leave e
  | .save r backup sent, o =>
      StoresText r sent ∧ backup = sent ∧ o = .save (r.withText sent)

/-- An iteration is defined, and its outcome is that of the editor over
lists. -/
def Matches (ro : Option RawOutcome) (o : Outcome) : Prop := ∃ a, ro = some a ∧ a.Refines o

/-- A branch that goes on in an editor that stores `text`. -/
def GoesTo (ro : Option RawEditor) (text : Bytes) (e : Editor) : Prop :=
  ∃ r, ro = some r ∧ StoresText r text ∧ e = r.withText text

theorem GoesTo.matches {ro : Option RawEditor} {text : Bytes} {e : Editor}
    (h : GoesTo ro text e) : Matches (ro.map .continue) (.continue e) := by
  obtain ⟨r, rfl, hr, rfl⟩ := h
  exact ⟨.continue r, rfl, text, hr, rfl⟩

section Step

variable {r : RawEditor} {text : Bytes}

theorem StoresText.stay (h : StoresText r text) :
    Matches (some (.continue r)) (.continue (r.withText text)) :=
  ⟨.continue r, rfl, text, h, rfl⟩

theorem StoresText.frame (h : StoresText r text) (rows vr : ℤ) :
    StoresText (r.frame rows vr) text :=
  { h with }

theorem goTo_refines (h : StoresText r text) (cols tvr tvc : ℤ) :
    GoesTo (r.goTo cols tvr tvc) text ((r.withText text).goTo cols tvr tvc) := by
  refine ⟨{ r with cursor := vposToIdx text cols tvr tvc }, ?_, ?_, rfl⟩
  · rw [RawEditor.goTo, h.len_eq, rawVposToIdx_eq h.holds]
    rfl
  · exact { h with cursor_le := vposToIdx_le text cols tvr tvc }

theorem left_refines (h : StoresText r text) (hpos : 0 < r.cursor) :
    GoesTo r.left text { r.withText text with cursor := u8Back text (r.cursor - 1) } := by
  have hle := h.cursor_le
  have hback := u8Back_le text (r.cursor - 1)
  refine ⟨{ r with cursor := u8Back text (r.cursor - 1) }, ?_, ?_, rfl⟩
  · rw [RawEditor.left, sub_eq hpos]
    show (Raw.back r.buf (r.cursor - 1)).bind _ = _
    rw [rawBack_eq h.holds (by omega)]
    rfl
  · exact { h with cursor_le := by show u8Back text (r.cursor - 1) ≤ _; omega }

theorem right_refines (h : StoresText r text) (hlt : r.cursor < text.length) :
    GoesTo r.right text { r.withText text with cursor := r.cursor + u8CharLen text r.cursor } := by
  refine ⟨{ r with cursor := r.cursor + u8CharLen text r.cursor }, ?_, ?_, rfl⟩
  · rw [RawEditor.right, h.len_eq, rawCharLen_eq h.holds]
    rfl
  · exact { h with cursor_le := add_u8CharLen_le hlt }

/-- The `memmove` of a removal. -/
theorem StoresText.remove (h : StoresText r text) {dst src : ℕ} (hdst : dst ≤ src)
    (hsrc : src ≤ text.length) :
    ∃ m, r.buf.move dst src (text.length - src) = some m ∧
      StoresText { r with buf := m, bufLen := text.length - (src - dst), cursor := dst, dirty := 1 }
        (text.take dst ++ text.drop src) := by
  have hlen : (text.take dst ++ text.drop src).length = text.length - (src - dst) := by
    rw [List.length_append, List.length_take, List.length_drop]
    omega
  obtain ⟨m, hmove, hm, hsize⟩ := h.holds.remove hdst hsrc
  refine ⟨m, hmove, hm, hsize.trans h.size_eq, hlen.symm, ?_, ?_, ?_⟩
  · rw [hlen]
    exact Nat.lt_of_le_of_lt (Nat.sub_le _ _) h.len_lt
  · rw [hlen]
    show dst ≤ _
    omega
  · exact zero_notMem_take_append_drop h.nul_free dst src

theorem backspace_refines (h : StoresText r text) :
    ∃ text', GoesTo r.backspace text' (r.withText text).backspace := by
  rw [RawEditor.backspace, Editor.backspace]
  split
  · next hpos =>
    have hle := h.cursor_le
    have hback := u8Back_le text (r.cursor - 1)
    obtain ⟨m, hmove, hm⟩ := h.remove (hback.trans (Nat.sub_le _ _)) hle
    refine ⟨_, _, ?_, hm, if_pos hpos⟩
    rw [h.len_eq, sub_eq hpos, sub_eq hle]
    simp only [Option.bind_eq_bind, Option.bind_some, rawBack_eq h.holds
      (show r.cursor - 1 < text.length by omega), hmove]
    rw [sub_eq (hback.trans (Nat.sub_le _ _))]
    simp only [Option.bind_some]
    rw [sub_eq ((Nat.sub_le _ _).trans hle)]
    rfl
  · next hpos => exact ⟨text, r, rfl, h, if_neg hpos⟩

theorem deleteChar_refines (h : StoresText r text) :
    ∃ text', GoesTo r.deleteChar text' (r.withText text).deleteChar := by
  have hlen := h.len_eq
  rw [RawEditor.deleteChar, Editor.deleteChar]
  split
  · next hlt =>
    rw [hlen] at hlt
    have hchar := add_u8CharLen_le hlt
    obtain ⟨m, hmove, hm⟩ := h.remove (Nat.le_add_right r.cursor (u8CharLen text r.cursor)) hchar
    rw [Nat.add_sub_cancel_left] at hm
    refine ⟨_, _, ?_, hm, if_pos hlt⟩
    rw [hlen, rawCharLen_eq h.holds, sub_eq h.cursor_le]
    simp only [Option.bind_eq_bind, Option.bind_some]
    rw [sub_eq (by omega), Nat.sub_sub]
    simp only [Option.bind_some, hmove]
    rw [sub_eq (by omega)]
    rfl
  · next hlt =>
    rw [hlen] at hlt
    exact ⟨text, r, rfl, h, if_neg hlt⟩

theorem insertAt_refines (h : StoresText r text) (hroom : text.length + 1 < r.bufSz) {b : UInt8}
    (hb : b ≠ 0) :
    GoesTo (r.insertAt b) (text.take r.cursor ++ b :: text.drop r.cursor)
      { r.withText text with
        buf := text.take r.cursor ++ b :: text.drop r.cursor
        cursor := r.cursor + 1
        dirty := 1 } := by
  have hle := h.cursor_le
  have hlen : (text.take r.cursor ++ b :: text.drop r.cursor).length = text.length + 1 := by
    rw [List.length_append, List.length_take, List.length_cons, List.length_drop]
    omega
  -- the tail moves up by one, then the byte is stored in the gap
  obtain ⟨m, m', hmove, hstore, hm, hsize⟩ :=
    h.holds.insert hle (by rw [h.size_eq]; exact h.len_lt) b
  refine ⟨{ r with buf := m', bufLen := r.bufLen + 1, cursor := r.cursor + 1, dirty := 1 }, ?_,
    ⟨hm, hsize.trans h.size_eq, ?_, ?_, ?_, ?_⟩, rfl⟩
  · rw [RawEditor.insertAt, h.len_eq, sub_eq hle]
    simp only [Option.bind_eq_bind, Option.bind_some, hmove, hstore]
  · rw [hlen, ← h.len_eq]
  · rw [hlen]
    exact hroom
  · rw [hlen]
    exact Nat.succ_le_succ hle
  · intro hmem
    rcases List.mem_append.mp hmem with hmem | hmem
    · exact h.nul_free (List.mem_of_mem_take hmem)
    · rcases List.mem_cons.mp hmem with hmem | hmem
      · exact hb hmem.symm
      · exact h.nul_free (List.mem_of_mem_drop hmem)

/-- A buffer that is full is doubled, which makes room for the byte. -/
theorem StoresText.grow (h : StoresText r text) :
    StoresText { r with buf := r.buf.realloc (2 * r.bufSz), bufSz := 2 * r.bufSz } text := by
  have hsize := h.size_eq
  have hlt := h.len_lt
  have hle : r.buf.size ≤ 2 * r.bufSz := by omega
  exact { h with
    holds := h.holds.realloc hle
    size_eq := Block.size_realloc hle
    len_lt := by show text.length < 2 * r.bufSz; omega }

theorem insertByte_refines (h : StoresText r text) (realloc : Bool) {b : UInt8} (hb : b ≠ 0) :
    Matches (r.insertByte realloc b) ((r.withText text).insertByte realloc b) := by
  have hlt := h.len_lt
  have hlen := h.len_eq
  rw [RawEditor.insertByte, Editor.insertByte]
  show Matches _ (if r.bufSz ≤ text.length + 1 ∧ realloc = false then _
    else .continue { r.withText text with
      buf := text.take r.cursor ++ b :: text.drop r.cursor
      bufSz := if r.bufSz ≤ text.length + 1 then 2 * r.bufSz else r.bufSz
      cursor := r.cursor + 1
      dirty := 1 })
  rw [← hlen]
  by_cases hfull : r.bufSz ≤ r.bufLen + 1
  · rw [if_pos hfull, if_pos hfull]
    cases realloc with
    | true =>
        rw [if_pos rfl, if_neg (by simp)]
        exact (insertAt_refines h.grow (by show _ < 2 * r.bufSz; omega) hb).matches
    | false =>
        rw [if_neg Bool.false_ne_true, if_pos ⟨hfull, rfl⟩]
        exact ⟨_, rfl, _, rfl⟩
  · rw [if_neg hfull, if_neg hfull, if_neg fun hno => hfull hno.1]
    exact (insertAt_refines h (by omega) hb).matches

theorem saveKey_refines (h : StoresText r text) : Matches r.saveKey (r.withText text).saveKey := by
  rw [RawEditor.saveKey, Editor.saveKey]
  split
  · next hclean =>
    exact ⟨_, rfl, text, { h with }, if_pos hclean⟩
  · next hdue =>
    obtain ⟨m, hstore, hm, hsize⟩ := h.holds.store_end (a := 0) (by rw [h.size_eq]; exact h.len_lt)
    have hprefix : Holds m text := by
      refine List.IsPrefix.trans ?_ hm
      rw [List.map_append]
      exact List.prefix_append _ _
    have hbackup : m.loads 0 text.length = some text := by
      rw [loads_eq hprefix (by omega), List.drop_zero, List.take_length]
    refine ⟨.save { r with buf := m } text text, ?_, ?_, rfl, if_neg hdue⟩
    · rw [h.len_eq, hstore]
      simp only [Option.bind_eq_bind, Option.bind_some, hbackup, string_eq hm]
      rw [show text.takeWhile (· ≠ 0) = text from cstr_eq_self h.nul_free]
    · exact { h with holds := hprefix, size_eq := hsize.trans h.size_eq }

theorem editingKey_refines (h : StoresText r text) (inp : EditorInput) :
    Matches (r.editingKey inp) ((r.withText text).editingKey inp) := by
  rw [RawEditor.editingKey, Editor.editingKey]
  split
  · obtain ⟨text', hgoes⟩ := backspace_refines h
    exact hgoes.matches
  split
  · obtain ⟨text', hgoes⟩ := deleteChar_refines h
    exact hgoes.matches
  split
  · exact insertByte_refines h inp.realloc (by decide)
  split
  · next hkey => exact insertByte_refines h inp.realloc (ofNat_key_ne_zero hkey)
  · exact h.stay

theorem wheel_refines (h : StoresText r text) (w : Wheel) :
    Matches (some (.continue (r.wheel w))) (.continue ((r.withText text).wheel w)) := by
  cases w with
  | up => exact ⟨_, rfl, text, { h with }, rfl⟩
  | down => exact ⟨_, rfl, text, { h with }, rfl⟩
  | other => exact h.stay

theorem navigationKey_refines (h : StoresText r text) (inp : EditorInput) :
    Matches (r.navigationKey inp (getVpos text r.cursor inp.cols))
      ((r.withText text).navigationKey inp) := by
  -- up, down, home and end go to a place of the layout
  have hgoTo := fun tvr tvc => (goTo_refines h inp.cols tvr tvc).matches
  rw [RawEditor.navigationKey, Editor.navigationKey]
  split
  · by_cases hrow : 0 < (getVpos text r.cursor inp.cols).1
    · rw [if_pos hrow, if_pos (show 0 < (r.withText text).curVrow inp.cols from hrow)]
      exact hgoTo _ _
    · rw [if_neg hrow, if_neg (show ¬ 0 < (r.withText text).curVrow inp.cols from hrow)]
      exact h.stay
  split
  · exact hgoTo _ _
  split
  · next hleft =>
    rw [if_pos (show _ ∧ 0 < (r.withText text).cursor from hleft)]
    exact (left_refines h hleft.2).matches
  next hleft =>
  rw [if_neg (show ¬ (_ ∧ 0 < (r.withText text).cursor) from hleft)]
  split
  · next hright =>
    rw [h.len_eq] at hright
    rw [if_pos (show _ ∧ (r.withText text).cursor < (r.withText text).buf.length from hright)]
    exact (right_refines h hright.2).matches
  next hright =>
  rw [h.len_eq] at hright
  rw [if_neg (show ¬ (_ ∧ (r.withText text).cursor < (r.withText text).buf.length) from hright)]
  split
  · exact hgoTo _ _
  split
  · exact hgoTo _ _
  split
  · exact wheel_refines h inp.wheel
  · exact editingKey_refines h inp

theorem key_refines (h : StoresText r text) (inp : EditorInput) :
    Matches (r.key inp (getVpos text r.cursor inp.cols)) ((r.withText text).key inp) := by
  rw [RawEditor.key, Editor.key]
  show Matches _ (if inp.ch = keyErr ∧ r.dirty = 0 then _ else _)
  split
  · exact h.stay
  split
  · exact saveKey_refines h
  split
  · rw [RawEditor.escape, Editor.escape]
    show Matches _ (if r.dirty ≠ 0 then _ else _)
    split
    · exact ⟨_, rfl, text, { h with }, rfl⟩
    · exact ⟨_, rfl, _, rfl⟩
  · exact navigationKey_refines h inp

/-- **Step lemma of the raw editor.** -/
theorem iterate_refines (h : StoresText r text) (inp : EditorInput) :
    Matches (r.iterate inp) ((r.withText text).iterate inp) := by
  have hframe := h.frame inp.rows (getVpos text r.cursor inp.cols).1
  rw [RawEditor.iterate, h.len_eq, rawGetVpos_eq h.holds]
  simp only [Option.bind_eq_bind, Option.bind_some]
  rw [show (r.frame inp.rows (getVpos text r.cursor inp.cols).1).bufLen = text.length from h.len_eq,
    rawDrawLoop_eq hframe.holds]
  exact key_refines hframe inp

theorem finishSave_refines (h : StoresText r text) (newId : Int32) :
    StoresText (r.finishSave newId) text ∧
      (r.finishSave newId).withText text = (r.withText text).finishSave newId := by
  rw [RawEditor.finishSave, Editor.finishSave]
  split
  · exact ⟨{ h with }, rfl⟩
  · exact ⟨{ h with }, rfl⟩

end Step

/-! ### Opening -/

theorem le_growSize (len n sz : ℕ) : sz ≤ growSize len n sz := by
  induction n generalizing sz with
  | zero => exact le_refl _
  | succ n ih =>
      rw [growSize]
      split
      · exact (Nat.le_mul_of_pos_left sz two_pos).trans (ih (2 * sz))
      · exact le_refl _

/-- The size is doubled until the text and its NUL fit. -/
theorem lt_growSize {len n sz : ℕ} (h : len + 1 < sz * 2 ^ n) : len + 1 < growSize len n sz := by
  induction n generalizing sz with
  | zero => rwa [pow_zero, Nat.mul_one] at h
  | succ n ih =>
      rw [growSize]
      split
      · apply ih
        rwa [Nat.mul_comm 2 sz, Nat.mul_assoc, ← Nat.pow_succ']
      · next hroom => exact Nat.lt_of_not_le hroom

/-- A text is copied into a block that was made large enough for it. -/
theorem write_realloc {m : Block UInt8} {sz : ℕ} (hsz : m.size ≤ sz) {t : Bytes}
    (ht : t.length ≤ sz) :
    ∃ m', (m.realloc sz).write 0 t = some m' ∧ Holds m' t ∧ m'.size = sz := by
  have hsize := Block.size_realloc hsz
  obtain ⟨m', hwrite, hm', hsize'⟩ := (holds_nil (m.realloc sz)).write (t := t)
    (by rw [hsize, List.length_nil, Nat.zero_add]; exact ht)
  exact ⟨m', hwrite, hm', hsize'.trans hsize⟩

theorem opened_refines (entryId : Int32) (initialText : Option Bytes) :
    GoesTo (RawEditor.opened entryId initialText) (cstr (initialText.getD []))
      (Editor.opened entryId initialText) := by
  cases initialText with
  | none =>
      refine ⟨_, rfl, ⟨holds_nil _, Block.size_calloc _ _, rfl, ?_, le_refl _, nofun⟩, rfl⟩
      exact Nat.succ_pos 4095
  | some text =>
      have hroom : (cstr text).length + 1
          < growSize (cstr text).length (cstr text).length 4096 := by
        apply lt_growSize
        have hpow := Nat.lt_two_pow_self (n := (cstr text).length)
        omega
      have hsize : (Block.calloc (0 : UInt8) 4096).size
          ≤ growSize (cstr text).length (cstr text).length 4096 := by
        rw [Block.size_calloc]
        exact le_growSize _ _ _
      obtain ⟨m, hwrite, hm, hmsize⟩ := write_realloc hsize (t := cstr text) (by omega)
      refine ⟨⟨m, _, (cstr text).length, (cstr text).length, entryId, 0, 0, .none⟩, ?_,
        ⟨hm, hmsize, rfl, Nat.lt_of_succ_lt hroom, le_refl _, zero_notMem_cstr text⟩, rfl⟩
      rw [RawEditor.opened]
      show Option.bind _ _ = _
      rw [hwrite]
      rfl

/-! ### Runs -/

/-- The loop, while it runs, after it, and after undefined behaviour. -/
inductive RawRun
  | running (r : RawEditor)
  | ended
  | undefined

def RawRun.opened (entryId : Int32) (initialText : Option Bytes) : RawRun :=
  match RawEditor.opened entryId initialText with
  | none => .undefined
  | some r => .running r

/-- The loop over events; its output is the bytes a save writes to the backup
file, and those it sends. -/
def rawStep (s : RawRun) (ev : EditorEvent) : RawRun × Option (Bytes × Bytes) :=
  match s with
  | .running r =>
      match r.iterate ev.inp with
      | none => (.undefined, none)
      | some (.continue r) => (.running r, none)
      | some (.leave _) => (.ended, none)
      | some (.save r backup sent) => (.running (r.finishSave ev.newId), some (backup, sent))
  | s => (s, none)

/-- What holds of the buffer at the head of the loop, and in the iteration
that follows. -/
structure BufferSound (r : RawEditor) (ev : EditorEvent) : Prop where
  cursor_le : r.cursor ≤ r.bufLen
  len_lt : r.bufLen < r.bufSz
  size_eq : r.buf.size = r.bufSz
  /-- the bytes below `buf_len` are a text without NUL, and what a save in
  this iteration writes and sends is that text -/
  text : ∃ text, r.buf.loads 0 r.bufLen = some text ∧ 0 ∉ text ∧
    ∀ saved ∈ (rawStep (.running r) ev).2, saved = (text, text)
  defined : (r.iterate ev.inp).isSome

/-- A save leaves the text as it is. -/
theorem save_buf {e e' : Editor} {inp : EditorInput} (h : e.iterate inp = .save e') :
    e'.buf = e.buf := by
  have heffect := iterate_effect e inp
  rw [h] at heffect
  cases heffect
  rfl

theorem bufferSound_of_stores {r : RawEditor} {text : Bytes} (h : StoresText r text)
    (ev : EditorEvent) : BufferSound r ev := by
  have hload : r.buf.loads 0 r.bufLen = some text := by
    rw [h.len_eq, loads_eq h.holds (by omega), List.drop_zero, List.take_length]
  obtain ⟨o, ho, hrefines⟩ := iterate_refines h ev.inp
  refine ⟨?_, ?_, h.size_eq, ⟨text, hload, h.nul_free, ?_⟩, ?_⟩
  · rw [h.len_eq]
    exact h.cursor_le
  · rw [h.len_eq]
    exact h.len_lt
  · rw [rawStep, ho]
    cases o with
    | «continue» r' => exact nofun
    | leave r' => exact nofun
    | save r' backup sent =>
        obtain ⟨-, hbackup, hsave⟩ := hrefines
        rintro _ ⟨⟩
        have hbuf : sent = text := save_buf hsave
        rw [hbackup, hbuf]
  · rw [ho]
    rfl

/-- The loop runs on a text that is stored, or is over. -/
def RawRun.Sound (s : RawRun) : Prop :=
  s = .ended ∨ ∃ r text, s = .running r ∧ StoresText r text

theorem sound_rawStep (s : RawRun) (ev : EditorEvent) (h : s.Sound) : (rawStep s ev).1.Sound := by
  rcases h with rfl | ⟨r, text, rfl, hr⟩
  · exact Or.inl rfl
  obtain ⟨o, ho, hrefines⟩ := iterate_refines hr ev.inp
  rw [rawStep, ho]
  cases o with
  | «continue» r' =>
      obtain ⟨text', hr', -⟩ := hrefines
      exact Or.inr ⟨r', text', rfl, hr'⟩
  | leave r' => exact Or.inl rfl
  | save r' backup sent =>
      exact Or.inr ⟨_, sent, rfl, (finishSave_refines hrefines.1 ev.newId).1⟩

theorem sound_rawOpened (entryId : Int32) (initialText : Option Bytes) :
    (RawRun.opened entryId initialText).Sound := by
  obtain ⟨r, hr, hstores, -⟩ := opened_refines entryId initialText
  rw [RawRun.opened, hr]
  exact Or.inr ⟨r, _, rfl, hstores⟩

/-- **The editor's buffer is never left.**  Opened on any text, or for a new
entry, and after any events, the loop has not run into undefined behaviour,
and while it runs the cursor is within the text, the text within the buffer
and free of NUL, a save writes and sends exactly the text, and the next
iteration, whatever its event, has only accesses inside the buffer and no
subtraction below zero. -/
theorem editor_buffer_safe (entryId : Int32) (initialText : Option Bytes)
    (events : List EditorEvent) :
    final rawStep (RawRun.opened entryId initialText) events ≠ .undefined ∧
      ∀ r, final rawStep (RawRun.opened entryId initialText) events = .running r →
        ∀ ev, BufferSound r ev := by
  have hsound := final_invariant sound_rawStep (sound_rawOpened entryId initialText) events
  rcases hsound with hend | ⟨r, text, hrun, hr⟩
  · rw [hend]
    exact ⟨nofun, nofun⟩
  · rw [hrun]
    refine ⟨nofun, ?_⟩
    rintro r ⟨⟩ ev
    exact bufferSound_of_stores hr ev

end Diary
