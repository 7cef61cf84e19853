/-
Diary/WideCharacters.lean

The cells the characters of a text take on the screen.

The draw loops of client/ui.c count one column for each character, the
terminal may give it two.  `Separate` says that the characters drawn in one
row share no cell and that none leaves the screen.  The layout leaves the
last column free, so a wide character always fits; it meets the character
after it unless that one is drawn in the next row (`separate_iff`).
-/
import Diary.Layout

namespace Diary

open CString CodeText Wrap

/-! ### Cells -/

/-- The cells of a character drawn, for the widths the terminal gives. -/
def Glyph.cells (wcwidth : Bytes → ℤ) (g : Glyph) : Set ℤ :=
  Set.Ico g.vcol (g.vcol + wcwidth g.bytes)

/-- The characters drawn stay within the columns, and two of one row have no
cell in common. -/
def Separate (wcwidth : Bytes → ℤ) (cols : ℤ) (drawn : List Glyph) : Prop :=
  (∀ g ∈ drawn, g.cells wcwidth ⊆ Set.Ico 0 cols) ∧
    drawn.Pairwise fun g g' => g.vrow = g'.vrow → Disjoint (g.cells wcwidth) (g'.cells wcwidth)

/-- The terminal gives every character of a text one or two columns. -/
def Printable (wcwidth : Bytes → ℤ) (text : List Char) : Prop :=
  ∀ c ∈ text, c ≠ '\n' →
    wcwidth (String.utf8EncodeChar c) = 1 ∨ wcwidth (String.utf8EncodeChar c) = 2

variable {wcwidth : Bytes → ℤ} {cols : ℤ}

/-! ### Where the rest of a text is drawn -/

theorem toLex_le_drawnAt (cols : ℤ) (p : ℤ × ℤ) : toLex p ≤ toLex (drawnAt cols p) := by
  rw [Prod.Lex.toLex_le_toLex, drawnAt]
  split
  · exact Or.inl (Int.lt_succ p.1)
  · exact Or.inr ⟨rfl, le_refl _⟩

/-- Nothing is drawn before the position the loop has reached. -/
theorem le_of_mem_glyphs {cs : List Char} {i : ℕ} {p : ℤ × ℤ} {g : Glyph}
    (hg : g ∈ glyphs cols cs i p) : toLex p ≤ toLex (g.vrow, g.vcol) := by
  induction cs generalizing i p with
  | nil => cases hg
  | cons c cs ih =>
      rw [glyphs] at hg
      split at hg
      · exact (toLex_le_advance p c).trans (ih hg)
      · rcases List.mem_cons.mp hg with rfl | hg
        · exact toLex_le_drawnAt cols p
        · exact (toLex_le_advance p c).trans (ih hg)

/-- Behind a line break or a full row all is drawn in the rows below. -/
theorem row_lt_of_mem_glyphs {c : Char} {cs : List Char} {i : ℕ} {p : ℤ × ℤ} {g : Glyph}
    (hends : c = '\n' ∨ cols - 1 ≤ p.2) (hg : g ∈ glyphs cols (c :: cs) i p) : p.1 < g.vrow := by
  have hrest : ∀ j, g ∈ glyphs cols cs j ((charRule cols).advance p c) → p.1 < g.vrow := by
    intro j hmem
    have hrow : ((charRule cols).advance p c).1 = p.1 + 1 :=
      advance_of_ends rfl (hends.imp (fun h => by simp [charRule, h]) id)
    have hle := Prod.Lex.toLex_le_toLex.mp (le_of_mem_glyphs hmem)
    simp only [hrow] at hle
    omega
  rw [glyphs] at hg
  split at hg
  · exact hrest _ hg
  · next hc =>
    rcases List.mem_cons.mp hg with rfl | hg
    · rw [drawnAt, if_pos (hends.resolve_left hc)]
      exact Int.lt_succ p.1
    · exact hrest _ hg

/-- A glyph is a character of the text, and the column behind it is free. -/
theorem exists_of_mem_glyphs (hcols : 2 ≤ cols) {cs : List Char} {i : ℕ} {p : ℤ × ℤ}
    (hp : 0 ≤ p.2) {g : Glyph} (hg : g ∈ glyphs cols cs i p) :
    (∃ c ∈ cs, c ≠ '\n' ∧ g.bytes = String.utf8EncodeChar c) ∧
      0 ≤ g.vcol ∧ g.vcol + 2 ≤ cols := by
  -- a character that does not fit is drawn in the next row
  have hdrawn : ∀ p : ℤ × ℤ, 0 ≤ p.2 → 0 ≤ (drawnAt cols p).2 ∧ (drawnAt cols p).2 + 2 ≤ cols := by
    intro p hp
    rw [drawnAt]
    split
    · exact ⟨le_refl _, by simpa using hcols⟩
    · exact ⟨hp, by omega⟩
  induction cs generalizing i p with
  | nil => cases hg
  | cons c cs ih =>
      rw [glyphs] at hg
      split at hg
      · next hc =>
        have hadv : 0 ≤ ((charRule cols).advance p c).2 := by simp [Rule.advance, charRule, hc]
        obtain ⟨⟨d, hd, hchar⟩, hcol⟩ := ih hadv hg
        exact ⟨⟨d, List.mem_cons_of_mem c hd, hchar⟩, hcol⟩
      · next hc =>
        rcases List.mem_cons.mp hg with rfl | hg
        · exact ⟨⟨c, List.mem_cons_self, hc, rfl⟩, hdrawn p hp⟩
        · have hadv : 0 ≤ ((charRule cols).advance p c).2 := by
            rw [advance_eq_drawnAt hc]
            exact Int.add_nonneg (hdrawn p hp).1 zero_le_one
          obtain ⟨⟨d, hd, hchar⟩, hcol⟩ := ih hadv hg
          exact ⟨⟨d, List.mem_cons_of_mem c hd, hchar⟩, hcol⟩

/-! ### Which characters meet -/

/-- A wide character that comes at `p` and is followed, in its row, by another
character. -/
def Meets (wcwidth : Bytes → ℤ) (cols : ℤ) (p : ℤ × ℤ) (c d : Char) : Prop :=
  c ≠ '\n' ∧ d ≠ '\n' ∧ wcwidth (String.utf8EncodeChar c) = 2 ∧
    ((charRule cols).advance p c).2 < cols - 1

/-- A character and all that is drawn behind it. -/
theorem head_disjoint_iff {c : Char} {cs : List Char} (hw : Printable wcwidth (c :: cs))
    (hc : c ≠ '\n') {i j : ℕ} {p : ℤ × ℤ} :
    let head : Glyph := ⟨i, String.utf8EncodeChar c, (drawnAt cols p).1, (drawnAt cols p).2⟩
    (∀ g ∈ glyphs cols cs j ((charRule cols).advance p c), head.vrow = g.vrow →
        Disjoint (head.cells wcwidth) (g.cells wcwidth)) ↔
      ∀ d r, cs = d :: r → ¬ Meets wcwidth cols p c d := by
  intro head
  rw [advance_eq_drawnAt hc]
  constructor
  · rintro hdisj d r rfl ⟨-, hd, hwide, hroom⟩
    rw [advance_eq_drawnAt hc] at hroom
    -- `d` is drawn in the second cell of `c`
    have hat : drawnAt cols ((drawnAt cols p).1, (drawnAt cols p).2 + 1)
        = ((drawnAt cols p).1, (drawnAt cols p).2 + 1) := drawnAt_eq_self_iff.mpr hroom
    have hmem : ⟨j, String.utf8EncodeChar d, (drawnAt cols p).1, (drawnAt cols p).2 + 1⟩
        ∈ glyphs cols (d :: r) j ((drawnAt cols p).1, (drawnAt cols p).2 + 1) := by
      rw [glyphs, if_neg hd, hat]
      exact List.mem_cons_self
    have hwd := hw d (List.mem_cons_of_mem c List.mem_cons_self) hd
    have hfirst : (drawnAt cols p).2 + 1 ∈ head.cells wcwidth := by
      refine ⟨Int.le_of_lt (Int.lt_succ _), ?_⟩
      show (drawnAt cols p).2 + 1 < (drawnAt cols p).2 + wcwidth (String.utf8EncodeChar c)
      omega
    apply Set.disjoint_left.mp (hdisj _ hmem rfl) hfirst
    refine ⟨le_refl _, ?_⟩
    show (drawnAt cols p).2 + 1 < (drawnAt cols p).2 + 1 + wcwidth (String.utf8EncodeChar d)
    omega
  · intro hnot g hg hrow
    have hwc := hw c List.mem_cons_self hc
    -- what follows in the row comes after the first cell of `c`
    have hcol : head.vcol + 1 ≤ g.vcol := by
      rcases Prod.Lex.toLex_le_toLex.mp (le_of_mem_glyphs hg) with hlt | ⟨-, hle⟩
      · exact absurd hrow hlt.ne
      · exact hle
    have hnarrow : wcwidth (String.utf8EncodeChar c) = 1 := by
      refine hwc.resolve_right fun hwide => ?_
      rcases cs with - | ⟨d, r⟩
      · cases hg
      · refine absurd hrow (row_lt_of_mem_glyphs (p := (head.vrow, head.vcol + 1)) ?_ hg).ne
        by_contra! hroom
        refine hnot d r rfl ⟨hc, hroom.1, hwide, ?_⟩
        rw [advance_eq_drawnAt hc]
        exact hroom.2
    rw [Glyph.cells, Glyph.cells, Set.Ico_disjoint_Ico]
    show min (head.vcol + wcwidth (String.utf8EncodeChar c)) _ ≤ _
    rw [hnarrow]
    exact (min_le_left _ _).trans (hcol.trans (le_max_right _ _))

/-- The adjacent pairs of a list that starts with `c`. -/
theorem forall_adjacent_cons {P : List Char → Char → Char → Prop} (c : Char) (cs : List Char) :
    (∀ l a b r, c :: cs = l ++ a :: b :: r → P l a b) ↔
      (∀ b r, cs = b :: r → P [] c b) ∧ ∀ l a b r, cs = l ++ a :: b :: r → P (c :: l) a b := by
  constructor
  · intro h
    refine ⟨?_, ?_⟩
    · rintro b r rfl
      exact h [] c b r rfl
    · rintro l a b r rfl
      exact h (c :: l) a b r rfl
  · rintro ⟨hhead, htail⟩ l a b r hsplit
    rcases l with - | ⟨x, l⟩
    · obtain ⟨rfl, hcs⟩ := List.cons.inj hsplit
      exact hhead b r hcs
    · obtain ⟨rfl, hcs⟩ := List.cons.inj hsplit
      exact htail l a b r hcs

/-- The glyphs of a row are disjoint, if and only if no wide character meets
the one after it. -/
theorem pairwise_glyphs_iff {cs : List Char} (hw : Printable wcwidth cs) {i : ℕ} {p : ℤ × ℤ} :
    ((glyphs cols cs i p).Pairwise fun g g' =>
        g.vrow = g'.vrow → Disjoint (g.cells wcwidth) (g'.cells wcwidth)) ↔
      ∀ l c d r, cs = l ++ c :: d :: r →
        ¬ Meets wcwidth cols (l.foldl (charRule cols).advance p) c d := by
  induction cs generalizing i p with
  | nil => exact iff_of_true List.Pairwise.nil fun l c d r h => by simp at h
  | cons c cs ih =>
      have hrest := fun j p => ih (fun d hd => hw d (List.mem_cons_of_mem c hd)) (i := j) (p := p)
      rw [forall_adjacent_cons (P := fun l c d =>
        ¬ Meets wcwidth cols (l.foldl (charRule cols).advance p) c d), glyphs]
      split
      · next hc =>
        rw [hrest]
        exact (and_iff_right fun d r _ hmeets => hmeets.1 hc).symm
      · next hc =>
        rw [List.pairwise_cons, hrest]
        exact and_congr_left' (head_disjoint_iff hw hc)

/-- Whether the next character is drawn in the next row, by the length of the
line. -/
theorem meets_iff (hcols : 2 ≤ cols) {l : List Char} {c d : Char} :
    Meets wcwidth cols (l.foldl (charRule cols).advance (0, 0)) c d ↔
      c ≠ '\n' ∧ d ≠ '\n' ∧ wcwidth (String.utf8EncodeChar c) = 2 ∧
        ¬ (cols - 1 ∣ (lineLength (l ++ [c]) : ℤ)) := by
  have hwidth : 1 ≤ (charRule cols).width := by
    rw [charRule_width]
    omega
  have hfull := column_eq_width_iff hwidth (l ++ [c])
  have hbound := (column_bounds hwidth (l ++ [c]) (l ++ [c]).length).2
  rw [pos_snoc, pos_length, charRule_width, lineLength_eq_rule] at hfull
  rw [pos_snoc, pos_length, charRule_width] at hbound
  refine and_congr_right fun hc => and_congr_right fun _ => and_congr_right fun _ => ?_
  have hpos : 0 < lineLength (l ++ [c]) := by simp [lineLength, hc]
  rw [and_iff_right hpos] at hfull
  rw [← hfull]
  exact hbound.lt_iff_ne

theorem separate_drawLoop_iff (hcols : 3 ≤ cols) {text : List Char}
    (hw : Printable wcwidth text) :
    Separate wcwidth cols (drawLoop (encode String.utf8EncodeChar text) cols
        (encode String.utf8EncodeChar text).length 0 (0, 0)).1 ↔
      ∀ l c d r, text = l ++ c :: d :: r → c ≠ '\n' → d ≠ '\n' →
        wcwidth (String.utf8EncodeChar c) = 2 → cols - 1 ∣ (lineLength (l ++ [c]) : ℤ) := by
  have hcols' : 2 ≤ cols := by omega
  have hwithin : ∀ g ∈ glyphs cols text 0 (0, 0), g.cells wcwidth ⊆ Set.Ico 0 cols := by
    intro g hg
    obtain ⟨⟨c, hc, hnl, hbytes⟩, hlow, hhigh⟩ := exists_of_mem_glyphs hcols' (le_refl _) hg
    have hwc := hw c hc hnl
    rw [← hbytes] at hwc
    exact Set.Ico_subset_Ico hlow (by omega)
  rw [drawLoop_encode, Separate, and_iff_right hwithin, pairwise_glyphs_iff hw]
  refine forall₄_congr fun l c d r => forall_congr' fun _ => ?_
  rw [meets_iff hcols']
  tauto

/-- **When the characters of a text keep apart on the screen.**  In both
screens, if and only if every wide character with another one behind it in
its line is the last of its row. -/
theorem separate_iff (wcwidth : Bytes → ℤ) (cols : ℤ) (hcols : 3 ≤ cols) (text : List Char)
    (hw : Printable wcwidth text) :
    (Separate wcwidth cols (screenViewDraw (encode String.utf8EncodeChar text) cols).1 ∧
        Separate wcwidth cols (screenEditorDraw (encode String.utf8EncodeChar text) cols).1) ↔
      ∀ l c d r, text = l ++ c :: d :: r → c ≠ '\n' → d ≠ '\n' →
        wcwidth (String.utf8EncodeChar c) = 2 → cols - 1 ∣ (lineLength (l ++ [c]) : ℤ) := by
  rw [screenViewDraw, screenEditorDraw, and_self]
  exact separate_drawLoop_iff hcols hw

/-- `日` and `記` are wide. -/
def wideDiary (bytes : Bytes) : ℤ :=
  if bytes = String.utf8EncodeChar '日' ∨ bytes = String.utf8EncodeChar '記' then 2 else 1

theorem printable_wideDiary (text : List Char) : Printable wideDiary text := by
  intro c _ _
  rw [wideDiary]
  split
  · exact Or.inr rfl
  · exact Or.inl rfl

/-- A wide character at the end of its line. -/
theorem separate_line_end :
    let text := ['a', '日', '\n', 'b']
    Separate wideDiary 80 (screenViewDraw (encode String.utf8EncodeChar text) 80).1 ∧
      Separate wideDiary 80 (screenEditorDraw (encode String.utf8EncodeChar text) 80).1 := by
  intro text
  apply (separate_iff wideDiary 80 (by decide) text (printable_wideDiary text)).mpr
  intro l c d r hsplit hc hd hwide
  rcases l with - | ⟨x, - | ⟨y, - | ⟨z, l⟩⟩⟩
  · obtain ⟨rfl, -⟩ := List.cons.inj hsplit
    exact absurd hwide (by decide)
  · obtain ⟨rfl, rfl, rfl, -⟩ : _ = x ∧ _ = c ∧ _ = d ∧ _ := by simpa [text] using hsplit
    exact absurd rfl hd
  · obtain ⟨rfl, rfl, rfl, -⟩ : _ = x ∧ _ = y ∧ _ = c ∧ _ := by simpa [text] using hsplit
    exact absurd rfl hc
  · have hlen := congrArg List.length hsplit
    simp [text] at hlen
    omega

/-- `日記`, the diary: the second character is drawn on the right half of the
first. -/
theorem not_separate_wide :
    let text := ['日', '記']
    Printable wideDiary text ∧
      ¬ Separate wideDiary 80 (screenViewDraw (encode String.utf8EncodeChar text) 80).1 ∧
      ¬ Separate wideDiary 80 (screenEditorDraw (encode String.utf8EncodeChar text) 80).1 := by
  intro text
  have hnot :
      ¬ Separate wideDiary 80 (screenViewDraw (encode String.utf8EncodeChar text) 80).1 := by
    rintro ⟨-, hpair⟩
    have hdrawn : (screenViewDraw (encode String.utf8EncodeChar text) 80).1
        = [⟨0, String.utf8EncodeChar '日', 0, 0⟩, ⟨3, String.utf8EncodeChar '記', 0, 1⟩] := by decide
    rw [hdrawn] at hpair
    have hdisj := List.rel_of_pairwise_cons hpair (List.mem_singleton_self _) rfl
    have hleft : (1 : ℤ) ∈ Set.Ico 0 (0 + wideDiary (String.utf8EncodeChar '日')) :=
      ⟨by decide, by decide⟩
    exact Set.disjoint_left.mp hdisj hleft ⟨by decide, by decide⟩
  exact ⟨printable_wideDiary text, hnot, hnot⟩

end Diary
