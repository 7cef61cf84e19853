/-
Diary/Layout.lean

The layout of a text on the screen in client/ui.c, which five loops
compute: `get_vpos`, `vpos_to_idx`, the count of rows in `screen_view`, and
the draw loops of `screen_view` and `screen_editor`.

The loops are instances of one rule (`byteRule`), the draw loops step by
characters (`charRule`).

* `vpos_to_idx` inverts `get_vpos`, which is injective and monotone on the
  boundaries of characters (`vposToIdx_getVpos`);
* all loops count the same rows (`loops_count_same_rows`);
* a character is drawn where `get_vpos` puts the cursor, except behind a full
  row (`cursorOnCharacter_iff`).
-/
import Diary.CharEditor
import Diary.Wrap

namespace Diary

open CString CodeText Wrap

/-! ### The rule of `get_vpos` -/

/-- The layout of bytes at `cols` columns. -/
def byteRule (cols : ℤ) : Rule UInt8 where
  skip := u8IsCont
  brk := fun b => b == 10
  width := cols - 1

theorem vposStep_eq (cols : ℤ) : vposStep cols = (byteRule cols).advance := by
  funext p b
  by_cases hbrk : b = 10
  · simp [vposStep, Rule.advance, byteRule, hbrk]
  · simp [vposStep, Rule.advance, byteRule, hbrk]

theorem getVpos_eq (buf : Bytes) (cursor : ℕ) (cols : ℤ) :
    getVpos buf cursor cols = (byteRule cols).pos buf cursor := by
  rw [getVpos, vposStep_eq]
  rfl

theorem vposScan_eq (cols tvr tvc : ℤ) (bs : Bytes) (i : ℕ) (p : ℤ × ℤ) :
    vposScan cols tvr tvc bs i p = (byteRule cols).scan (tvr, tvc) bs i p := by
  induction bs generalizing i p with
  | nil => rfl
  | cons b bs ih =>
      have hpos : p = (tvr, tvc) ↔ p.1 = tvr ∧ p.2 = tvc := Prod.ext_iff
      simp only [vposScan, Rule.scan, ih, vposStep_eq, hpos]
      simp only [byteRule, beq_iff_eq]

theorem vposToIdx_eq (buf : Bytes) (cols tvr tvc : ℤ) :
    vposToIdx buf cols tvr tvc = (byteRule cols).scan (tvr, tvc) buf 0 (0, 0) :=
  vposScan_eq cols tvr tvc buf 0 (0, 0)

/-- The end of the buffer, or the index of a byte that is no continuation. -/
def Boundary (buf : Bytes) (i : ℕ) : Prop :=
  i = buf.length ∨ ∃ b, buf[i]? = some b ∧ u8IsCont b = false

theorem boundary_iff {buf : Bytes} {i : ℕ} (cols : ℤ) :
    Boundary buf i ↔ (byteRule cols).IsStart buf i := by
  constructor
  · rintro (rfl | ⟨b, hb, hskip⟩)
    · exact isStart_length _ _
    · exact isStart_of_skip_eq_false hb hskip
  · intro h
    rcases h.1.eq_or_lt with hend | hlt
    · exact Or.inl hend
    · have hb : buf[i]? = some buf[i] := List.getElem?_eq_getElem hlt
      exact Or.inr ⟨buf[i], hb, skip_eq_false_of_isStart h hb⟩

/-- **`vpos_to_idx` inverts `get_vpos`**, on every buffer, for every number of
columns: at boundaries it finds the index back, so `get_vpos` tells them
apart, and it keeps their order. -/
theorem vposToIdx_getVpos (buf : Bytes) (cols : ℤ) {i j : ℕ} (hi : Boundary buf i)
    (hj : Boundary buf j) :
    vposToIdx buf cols (getVpos buf i cols).1 (getVpos buf i cols).2 = i ∧
      (getVpos buf i cols = getVpos buf j cols → i = j) ∧
      (i < j → toLex (getVpos buf i cols) < toLex (getVpos buf j cols)) := by
  rw [boundary_iff cols] at hi hj
  rw [vposToIdx_eq, getVpos_eq, getVpos_eq]
  exact ⟨scan_pos hi, pos_inj hi hj, fun hij => toLex_pos_lt hi hij hj.1⟩

/-- Two boundaries of a text of two rows, three columns wide: `h`, `é`, and a
line break. -/
theorem vposToIdx_getVpos_two_rows :
    let buf : Bytes := [104, 195, 169, 10, 104]
    vposToIdx buf 3 (getVpos buf 1 3).1 (getVpos buf 1 3).2 = 1 ∧
      toLex (getVpos buf 1 3) < toLex (getVpos buf 4 3) := by
  intro buf
  obtain ⟨hback, -, hlt⟩ := vposToIdx_getVpos buf 3 (i := 1) (j := 4)
    (Or.inr ⟨195, by decide, by decide⟩) (Or.inr ⟨104, by decide, by decide⟩)
  exact ⟨hback, hlt (by decide)⟩

/-! ### The loops by characters -/

/-- The layout of characters at `cols` columns. -/
def charRule (cols : ℤ) : Rule Char where
  skip := fun _ => false
  brk := fun c => c == '\n'
  width := cols - 1

@[simp] theorem charRule_width (cols : ℤ) : (charRule cols).width = cols - 1 := rfl

/-- The bytes of a character after the first take no place. -/
theorem foldl_advance_of_cont (cols : ℤ) {bs : Bytes} (h : ∀ b ∈ bs, u8IsCont b = true)
    (p : ℤ × ℤ) : bs.foldl (byteRule cols).advance p = p := by
  induction bs with
  | nil => rfl
  | cons b bs ih =>
      have hskip : (byteRule cols).skip b = true := h b List.mem_cons_self
      rw [List.foldl_cons, advance_of_skip hskip]
      exact ih fun x hx => h x (List.mem_cons_of_mem b hx)

theorem newline_iff {c : Char} {b : UInt8} {bs : Bytes} (h : String.utf8EncodeChar c = b :: bs) :
    b = 10 ↔ c = '\n' := by
  by_cases hc : 0x80 ≤ c.toNat
  · have hb : 0x80 ≤ b.toNat := le_of_mem_utf8EncodeChar hc (by rw [h]; exact List.mem_cons_self)
    refine iff_of_false ?_ ?_
    · rintro rfl
      exact absurd hb (by decide)
    · rintro rfl
      exact absurd hc (by decide)
  · rw [utf8EncodeChar_ascii (Nat.lt_of_not_le hc)] at h
    obtain rfl : UInt8.ofNat c.toNat = b := List.head_eq_of_cons_eq h
    rw [← UInt8.toNat_inj, ← Char.toNat_inj, UInt8.toNat_ofNat', Nat.mod_eq_of_lt (by omega)]
    rfl

/-- The bytes of a character advance the position as the character does. -/
theorem foldl_advance_utf8 (cols : ℤ) (c : Char) (p : ℤ × ℤ) :
    (String.utf8EncodeChar c).foldl (byteRule cols).advance p = (charRule cols).advance p c := by
  obtain ⟨b, bs, hc, hb, hbs⟩ := selfSync_utf8 c
  have hnl := newline_iff hc
  rw [hc, List.foldl_cons, foldl_advance_of_cont cols hbs]
  by_cases hbrk : c = '\n'
  · simp [Rule.advance, byteRule, charRule, hb, hnl, hbrk]
  · simp [Rule.advance, byteRule, charRule, hb, hnl, hbrk]

theorem foldl_advance_encode (cols : ℤ) (cs : List Char) (p : ℤ × ℤ) :
    (encode String.utf8EncodeChar cs).foldl (byteRule cols).advance p
      = cs.foldl (charRule cols).advance p := by
  induction cs generalizing p with
  | nil => rfl
  | cons c cs ih =>
      rw [encode_cons, List.foldl_append, foldl_advance_utf8, ih]
      rfl

/-- `get_vpos` behind the characters `l` of a text. -/
theorem getVpos_encode (cols : ℤ) (l r : List Char) :
    getVpos (encode String.utf8EncodeChar (l ++ r)) (encode String.utf8EncodeChar l).length cols
      = (charRule cols).pos l l.length := by
  rw [getVpos_eq, pos_length, Rule.pos, encode_append, List.take_left, foldl_advance_encode]

/-! ### Counting rows -/

/-- The loop of `screen_view` that counts rows, over one byte. -/
def totalStep (cols : ℤ) (t : ℤ × ℤ) (b : UInt8) : ℤ × ℤ :=
  if u8IsCont b then t
  else if b = 10 ∨ cols - 1 ≤ t.2 then
    if b = 10 then (t.1 + 1, 0) else (t.1 + 1, 0 + 1)
  else (t.1, t.2 + 1)

/-- `total_vrows`. -/
def totalVrows (text : Bytes) (cols : ℤ) : ℤ := (text.foldl (totalStep cols) (1, 0)).1

theorem totalStep_eq (cols : ℤ) (p : ℤ × ℤ) (b : UInt8) :
    totalStep cols (p.1 + 1, p.2) b
      = (((byteRule cols).advance p b).1 + 1, ((byteRule cols).advance p b).2) := by
  rw [← vposStep_eq, totalStep, vposStep]
  by_cases hbrk : b = 10
  · simp only [hbrk, true_or, if_true]
    split <;> rfl
  · simp only [hbrk, false_or, if_false]
    split
    · rfl
    split <;> rfl

/-- The rows counted are one more than the row of the end. -/
theorem totalVrows_eq (text : Bytes) (cols : ℤ) :
    totalVrows text cols = (getVpos text text.length cols).1 + 1 := by
  have hfold : ∀ (bs : Bytes) (p : ℤ × ℤ), bs.foldl (totalStep cols) (p.1 + 1, p.2)
      = ((bs.foldl (byteRule cols).advance p).1 + 1, (bs.foldl (byteRule cols).advance p).2) := by
    intro bs
    induction bs with
    | nil => exact fun p => rfl
    | cons b bs ih =>
        intro p
        rw [List.foldl_cons, List.foldl_cons, totalStep_eq]
        exact ih _
  rw [getVpos_eq, pos_length]
  exact congrArg Prod.fst (hfold text (0, 0))

/-! ### Drawing -/

/-- A character that is drawn: its index and bytes, and the visual position
it is drawn at. -/
structure Glyph where
  idx : ℕ
  bytes : Bytes
  vrow : ℤ
  vcol : ℤ
deriving DecidableEq

/-- The loop that draws a text, from index `i` at position `p`: what it draws
and the position it ends with.  The index grows in every round, so as many
rounds as the text has bytes are enough. -/
def drawLoop (text : Bytes) (cols : ℤ) : ℕ → ℕ → ℤ × ℤ → List Glyph × (ℤ × ℤ)
  | 0, _, p => ([], p)
  | n + 1, i, p =>
      match text[i]? with
      | none => ([], p)
      | some c =>
          let clen := u8CharLen text i
          let q := if c = 10 ∨ cols - 1 ≤ p.2 then (p.1 + 1, 0) else p
          if c = 10 then drawLoop text cols n (i + 1) q
          else
            let rest := drawLoop text cols n (i + clen) (q.1, q.2 + 1)
            (⟨i, (text.drop i).take clen, q.1, q.2⟩ :: rest.1, rest.2)

/-- The draw loop of `screen_view`. -/
def screenViewDraw (text : Bytes) (cols : ℤ) : List Glyph × (ℤ × ℤ) :=
  drawLoop text cols text.length 0 (0, 0)

/-- The draw loop of `screen_editor`. -/
def screenEditorDraw (buf : Bytes) (cols : ℤ) : List Glyph × (ℤ × ℤ) :=
  drawLoop buf cols buf.length 0 (0, 0)

/-- Where a character is drawn that comes at position `p`. -/
def drawnAt (cols : ℤ) (p : ℤ × ℤ) : ℤ × ℤ := if cols - 1 ≤ p.2 then (p.1 + 1, 0) else p

/-- The glyphs of characters from index `i` at position `p`. -/
def glyphs (cols : ℤ) : List Char → ℕ → ℤ × ℤ → List Glyph
  | [], _, _ => []
  | c :: cs, i, p =>
      let rest :=
        glyphs cols cs (i + (String.utf8EncodeChar c).length) ((charRule cols).advance p c)
      if c = '\n' then rest
      else ⟨i, String.utf8EncodeChar c, (drawnAt cols p).1, (drawnAt cols p).2⟩ :: rest

theorem advance_eq_drawnAt {cols : ℤ} {c : Char} (h : c ≠ '\n') (p : ℤ × ℤ) :
    (charRule cols).advance p c = ((drawnAt cols p).1, (drawnAt cols p).2 + 1) := by
  have hskip : ¬ (charRule cols).skip c = true := Bool.false_ne_true
  have hbrk : ¬ (charRule cols).brk c = true := by simpa [charRule] using h
  rw [Rule.advance, if_neg hskip, if_neg hbrk]
  show (if cols - 1 ≤ p.2 then (p.1 + 1, 1) else (p.1, p.2 + 1)) = _
  by_cases hfull : cols - 1 ≤ p.2
  · rw [drawnAt, if_pos hfull, if_pos hfull]
    rfl
  · rw [drawnAt, if_neg hfull, if_neg hfull]

/-- The draw loop by characters. -/
theorem drawLoop_eq {text : Bytes} {cols : ℤ} {i n : ℕ} {l r : List Char} {p : ℤ × ℤ}
    (h : Shows String.utf8EncodeChar text i ⟨l, r⟩) (hn : r.length ≤ n) :
    drawLoop text cols n i p = (glyphs cols r i p, r.foldl (charRule cols).advance p) := by
  induction n generalizing i l r p with
  | zero =>
      obtain rfl := List.length_eq_zero_iff.mp (Nat.le_zero.mp hn)
      rfl
  | succ n ih =>
      have hdrop := h.drop_eq
      cases r with
      | nil =>
          have hnone : text[i]? = none := by
            rw [← List.head?_drop, hdrop]
            rfl
          rw [drawLoop, hnone]
          rfl
      | cons c r =>
          obtain ⟨b, bs, hc, -, -⟩ := selfSync_utf8 c
          have hb : text[i]? = some b := by
            rw [← List.head?_drop, hdrop, encode_cons, hc]
            rfl
          have hlen := u8CharLen_eq h
          have htake : (text.drop i).take (u8CharLen text i) = String.utf8EncodeChar c := by
            rw [hdrop, hlen, encode_cons, List.take_left]
          have hrest := fun p => ih (p := p) h.next (Nat.le_of_succ_le_succ hn)
          have hnl := newline_iff hc
          rw [drawLoop, hb]
          simp only [htake, hnl]
          by_cases hbrk : c = '\n'
          · -- a line break is one byte
            subst hbrk
            have hstep : i + 1 = i + (String.utf8EncodeChar '\n').length := rfl
            simp only [true_or, if_true, hstep, hrest]
            rfl
          · simp only [hbrk, false_or, if_false, hlen, hrest, glyphs, List.foldl_cons,
              advance_eq_drawnAt hbrk]
            rfl

theorem length_le_length_encode (cs : List Char) :
    cs.length ≤ (encode String.utf8EncodeChar cs).length := by
  induction cs with
  | nil => exact le_refl _
  | cons c cs ih =>
      have hpos := selfSync_utf8.length_pos c
      simp only [encode_cons, List.length_cons, List.length_append]
      omega

/-- Both screens draw a text character by character. -/
theorem drawLoop_encode (cs : List Char) (cols : ℤ) :
    drawLoop (encode String.utf8EncodeChar cs) cols (encode String.utf8EncodeChar cs).length 0
        (0, 0) = (glyphs cols cs 0 (0, 0), (charRule cols).pos cs cs.length) := by
  have h : Shows String.utf8EncodeChar (encode String.utf8EncodeChar cs) 0 ⟨[], cs⟩ := ⟨rfl, rfl⟩
  rw [drawLoop_eq h (length_le_length_encode cs), pos_length]

/-- The rows a draw loop ends with are those that are counted. -/
theorem drawLoop_rows (cs : List Char) (cols : ℤ) :
    (drawLoop (encode String.utf8EncodeChar cs) cols (encode String.utf8EncodeChar cs).length 0
        (0, 0)).2.1 + 1 = totalVrows (encode String.utf8EncodeChar cs) cols := by
  have hend := getVpos_encode cols cs []
  rw [List.append_nil] at hend
  rw [drawLoop_encode, totalVrows_eq, hend]

/-- **All loops count the same rows**: of every text, at every number of
columns. -/
theorem loops_count_same_rows (cs : List Char) (cols : ℤ) :
    let text := encode String.utf8EncodeChar cs
    totalVrows text cols = (getVpos text text.length cols).1 + 1 ∧
      (screenViewDraw text cols).2.1 + 1 = (getVpos text text.length cols).1 + 1 ∧
      (screenEditorDraw text cols).2.1 + 1 = (getVpos text text.length cols).1 + 1 := by
  intro text
  rw [← totalVrows_eq]
  exact ⟨rfl, drawLoop_rows cs cols, drawLoop_rows cs cols⟩

/-! ### The cursor on the screen -/

theorem le_idx_of_mem_glyphs {cols : ℤ} {cs : List Char} {i : ℕ} {p : ℤ × ℤ} {g : Glyph}
    (h : g ∈ glyphs cols cs i p) : i ≤ g.idx := by
  induction cs generalizing i p with
  | nil => cases h
  | cons c cs ih =>
      rw [glyphs] at h
      split at h
      · exact (Nat.le_add_right _ _).trans (ih h)
      · rcases List.mem_cons.mp h with rfl | h
        · exact le_refl _
        · exact (Nat.le_add_right _ _).trans (ih h)

/-- The one glyph of a character that is no line break. -/
theorem mem_glyphs_iff {cols : ℤ} {l r : List Char} {c : Char} (hc : c ≠ '\n') {i : ℕ} {p : ℤ × ℤ}
    {g : Glyph} :
    g ∈ glyphs cols (l ++ c :: r) i p ∧ g.idx = i + (encode String.utf8EncodeChar l).length ↔
      g = ⟨i + (encode String.utf8EncodeChar l).length, String.utf8EncodeChar c,
        (drawnAt cols (l.foldl (charRule cols).advance p)).1,
        (drawnAt cols (l.foldl (charRule cols).advance p)).2⟩ := by
  induction l generalizing i p with
  | nil =>
      rw [List.nil_append, glyphs, if_neg hc]
      constructor
      · rintro ⟨hg, hidx⟩
        rcases List.mem_cons.mp hg with rfl | hg
        · rfl
        · -- every later glyph starts past this one
          have hle := le_idx_of_mem_glyphs hg
          have hpos := selfSync_utf8.length_pos c
          rw [hidx, encode_nil, List.length_nil] at hle
          omega
      · rintro rfl
        exact ⟨List.mem_cons_self, rfl⟩
  | cons a l ih =>
      have hidx : i + (encode String.utf8EncodeChar (a :: l)).length
          = i + (String.utf8EncodeChar a).length + (encode String.utf8EncodeChar l).length := by
        rw [encode_cons, List.length_append, add_assoc]
      have hpos := selfSync_utf8.length_pos a
      rw [hidx, List.foldl_cons, ← ih, List.cons_append, glyphs]
      split
      · rfl
      · rw [List.mem_cons]
        refine and_congr_left fun hg => or_iff_right ?_
        rintro rfl
        simp only at hg
        omega

/-- The character at the cursor is drawn where `get_vpos` puts the cursor. -/
def CursorOnCharacter (buf : Bytes) (cursor : ℕ) (cols : ℤ) : Prop :=
  ∃ g ∈ (screenEditorDraw buf cols).1, g.idx = cursor ∧ (g.vrow, g.vcol) = getVpos buf cursor cols

/-- The number of characters between the last line break and the end. -/
def lineLength (l : List Char) : ℕ := (l.reverse.takeWhile fun c => c != '\n').length

theorem lineLength_eq_rule (cols : ℤ) (l : List Char) :
    (charRule cols).lineLength l = lineLength l := by
  simp [Rule.lineLength, lineLength, charRule, bne]

theorem drawnAt_eq_self_iff {cols : ℤ} {p : ℤ × ℤ} : drawnAt cols p = p ↔ p.2 < cols - 1 := by
  rw [drawnAt]
  split
  · next hfull =>
    refine iff_of_false (fun h => ?_) (not_lt.mpr hfull)
    have hrow := congrArg Prod.fst h
    simp only at hrow
    omega
  · next hroom => exact iff_of_true rfl (not_le.mp hroom)

/-- **When the cursor sits on the character it edits.**  Before every
character that is no line break, except behind a full row: when the line up
to the cursor fills one row or more and no part of another. -/
theorem cursorOnCharacter_iff (cols : ℤ) (hcols : 2 ≤ cols) (l : List Char) (c : Char)
    (r : List Char) (hc : c ≠ '\n') :
    CursorOnCharacter (encode String.utf8EncodeChar (l ++ c :: r))
        (encode String.utf8EncodeChar l).length cols ↔
      ¬ (0 < lineLength l ∧ cols - 1 ∣ (lineLength l : ℤ)) := by
  have hpos := getVpos_encode cols l (c :: r)
  have hwidth : 1 ≤ (charRule cols).width := by
    rw [charRule_width]
    omega
  have hfull := column_eq_width_iff hwidth l
  have hbound := (column_bounds hwidth l l.length).2
  rw [charRule_width] at hfull hbound
  rw [lineLength_eq_rule] at hfull
  -- exactly one glyph starts at the cursor
  have hglyph : ∀ g, g ∈ glyphs cols (l ++ c :: r) 0 (0, 0) ∧
      g.idx = (encode String.utf8EncodeChar l).length ↔
        g = ⟨(encode String.utf8EncodeChar l).length, String.utf8EncodeChar c,
          (drawnAt cols ((charRule cols).pos l l.length)).1,
          (drawnAt cols ((charRule cols).pos l l.length)).2⟩ := by
    intro g
    have h := @mem_glyphs_iff cols l r c hc 0 (0, 0) g
    rwa [Nat.zero_add, ← pos_length] at h
  -- so the cursor is on it where drawing does not wrap first
  have hon : CursorOnCharacter (encode String.utf8EncodeChar (l ++ c :: r))
      (encode String.utf8EncodeChar l).length cols ↔
        drawnAt cols ((charRule cols).pos l l.length) = (charRule cols).pos l l.length := by
    rw [CursorOnCharacter, screenEditorDraw, drawLoop_encode, hpos]
    constructor
    · rintro ⟨g, hg, hidx, hat⟩
      obtain rfl := (hglyph g).mp ⟨hg, hidx⟩
      exact hat
    · intro hat
      obtain ⟨hg, hidx⟩ := (hglyph _).mpr rfl
      exact ⟨_, hg, hidx, hat⟩
  rw [hon, drawnAt_eq_self_iff, ← hfull]
  omega

/-- The second character of `hi`, three columns wide. -/
theorem cursorOnCharacter_hi : CursorOnCharacter (lit "hi") 1 3 :=
  (cursorOnCharacter_iff 3 (by decide) ['h'] 'i' [] (by decide)).mpr (by decide)

/-- The row of `hi` is full: the next character is drawn on the row below, and
the cursor stays behind the `i`. -/
theorem not_cursorOnCharacter_his : ¬ CursorOnCharacter (lit "his") 2 3 := by
  rintro ⟨g, hg, hidx, hat⟩
  have hglyphs : (screenEditorDraw (lit "his") 3).1
      = [⟨0, lit "h", 0, 0⟩, ⟨1, lit "i", 0, 1⟩, ⟨2, lit "s", 1, 0⟩] := by decide
  have hcursor : getVpos (lit "his") 2 3 = (0, 2) := by decide
  rw [hglyphs] at hg
  simp only [List.mem_cons, List.not_mem_nil, or_false] at hg
  rcases hg with rfl | rfl | rfl
  · cases hidx
  · cases hidx
  · rw [hcursor] at hat
    exact absurd hat (by decide)

end Diary
