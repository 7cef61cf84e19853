/-
Diary/Rows.lean

The rows a text is wrapped into.

`rows w brk s` says it of the whole text: `s` is cut into lines at the
symbols that break, and every line into rows of `w`.  `fill` says it symbol by
symbol, behind a row that holds `c` symbols already.  They are the same
(`fill_zero`), and the layout of `Wrap` is a walk over them: the position
behind a text is the end of its last row (`exists_foldl_advance`), and of a
text cut in two the rows above the cut, and the row up to it, are those of its
first part (`upToCut_fill`).

`placesOf` lists the symbols of rows with their places, one column for each
symbol; a window on it holds the rows in the window (`filter_placesOf`).
-/
import Diary.Wrap

namespace Wrap

variable {β γ : Type*}

/-! ### Rows -/

/-- The rows of a line; an empty line is an empty row. -/
def lineRows (w : ℕ) (l : List β) : List (List β) :=
  (List.range ((l.length - 1) / w + 1)).map fun k => (l.drop (k * w)).take w

/-- The rows of a text. -/
def rows (w : ℕ) (brk : β → Bool) (s : List β) : List (List β) :=
  (s.splitOnP brk).flatMap (lineRows w)

/-- A symbol before the first row. -/
def push (b : β) : List (List β) → List (List β)
  | [] => [[b]]
  | r :: rs => (b :: r) :: rs

/-- The rows of a text that goes on behind a row of `c` symbols: what is added
to that row, and the rows below it. -/
def fill (w : ℕ) (brk : β → Bool) : ℕ → List β → List (List β)
  | _, [] => [[]]
  | c, b :: s =>
      if brk b = true then [] :: fill w brk 0 s
      else if w ≤ c then [] :: push b (fill w brk 1 s)
      else push b (fill w brk (c + 1) s)

variable {w : ℕ} {brk : β → Bool}

theorem push_ne_nil (b : β) (rs : List (List β)) : push b rs ≠ [] := by
  cases rs <;> exact List.cons_ne_nil _ _

theorem push_append (b : β) {rs : List (List β)} (h : rs ≠ []) (rs' : List (List β)) :
    push b (rs ++ rs') = push b rs ++ rs' := by
  cases rs with
  | nil => exact absurd rfl h
  | cons r rs => rfl

theorem fill_cons_break {b : β} (h : brk b = true) (c : ℕ) (s : List β) :
    fill w brk c (b :: s) = [] :: fill w brk 0 s := if_pos h

theorem fill_cons_full {b : β} (h : brk b = false) {c : ℕ} (hc : w ≤ c) (s : List β) :
    fill w brk c (b :: s) = [] :: push b (fill w brk 1 s) := by
  rw [fill, if_neg (Bool.eq_false_iff.mp h), if_pos hc]

theorem fill_cons {b : β} (h : brk b = false) {c : ℕ} (hc : c < w) (s : List β) :
    fill w brk c (b :: s) = push b (fill w brk (c + 1) s) := by
  rw [fill, if_neg (Bool.eq_false_iff.mp h), if_neg (not_le.mpr hc)]

theorem fill_ne_nil (c : ℕ) (s : List β) : fill w brk c s ≠ [] := by
  cases s with
  | nil => exact List.cons_ne_nil _ _
  | cons b s =>
      rw [fill]
      split
      · exact List.cons_ne_nil _ _
      split
      · exact List.cons_ne_nil _ _
      · exact push_ne_nil b _

/-! ### Line by line -/

theorem fill_append_break {l : List β} (hl : ∀ a ∈ l, brk a = false) {b : β} (hb : brk b = true)
    (c : ℕ) (s : List β) :
    fill w brk c (l ++ b :: s) = fill w brk c l ++ fill w brk 0 s := by
  induction l generalizing c with
  | nil => exact fill_cons_break hb c s
  | cons a l ih =>
      have ha := hl a List.mem_cons_self
      have hrest := fun c => ih (fun x hx => hl x (List.mem_cons_of_mem a hx)) c
      rw [List.cons_append]
      by_cases hc : w ≤ c
      · rw [fill_cons_full ha hc, fill_cons_full ha hc, hrest, push_append a (fill_ne_nil 1 l)]
        rfl
      · rw [fill_cons ha (not_le.mp hc), fill_cons ha (not_le.mp hc), hrest,
          push_append a (fill_ne_nil _ l)]

/-- The rest of the row is filled first. -/
theorem fill_line (hw : 0 < w) {l : List β} (hl : ∀ a ∈ l, brk a = false) {c : ℕ} (hc : c ≤ w) :
    fill w brk c l
      = l.take (w - c) :: if l.length ≤ w - c then [] else fill w brk 0 (l.drop (w - c)) := by
  induction l generalizing c with
  | nil => rw [List.take_nil, if_pos (by exact Nat.zero_le _), fill]
  | cons a l ih =>
      have ha := hl a List.mem_cons_self
      rcases hc.eq_or_lt with rfl | hlt
      · -- the row is full
        rw [fill_cons_full ha le_rfl, Nat.sub_self, List.take_zero, List.drop_zero,
          if_neg (by exact Nat.not_succ_le_zero _), fill_cons ha hw]
      · obtain ⟨n, hn⟩ : ∃ n, w - c = n + 1 := ⟨w - c - 1, by omega⟩
        have hn' : w - (c + 1) = n := by omega
        rw [fill_cons ha hlt, ih (fun x hx => hl x (List.mem_cons_of_mem a hx)) hlt, hn, hn',
          List.take_succ_cons, List.drop_succ_cons, List.length_cons]
        simp only [Nat.succ_le_succ_iff]
        rfl

theorem lineRows_of_le {l : List β} (h : l.length ≤ w) : lineRows w l = [l] := by
  have hzero : (l.length - 1) / w = 0 := by
    rcases Nat.eq_zero_or_pos w with rfl | hw
    · exact Nat.div_zero _
    · exact Nat.div_eq_of_lt (by omega)
  rw [lineRows, hzero]
  show [(l.drop (0 * w)).take w] = [l]
  rw [Nat.zero_mul, List.drop_zero, List.take_of_length_le h]

theorem lineRows_of_lt (hw : 0 < w) {l : List β} (h : w < l.length) :
    lineRows w l = l.take w :: lineRows w (l.drop w) := by
  have hcount : (l.length - 1) / w + 1 = ((l.drop w).length - 1) / w + 1 + 1 := by
    have hlen : l.length - 1 = (l.drop w).length - 1 + w := by
      rw [List.length_drop]
      omega
    rw [hlen, Nat.add_div_right _ hw]
  rw [lineRows, hcount, List.range_succ_eq_map, List.map_cons, List.map_map, Nat.zero_mul,
    List.drop_zero, lineRows]
  congr 1
  apply List.map_congr_left
  intro k _
  show (l.drop ((k + 1) * w)).take w = _
  rw [List.drop_drop, Nat.succ_mul, Nat.add_comm]

theorem fill_zero_line (hw : 0 < w) {l : List β} (hl : ∀ a ∈ l, brk a = false) :
    fill w brk 0 l = lineRows w l := by
  induction hn : l.length using Nat.strong_induction_on generalizing l with
  | _ n ih =>
      rw [fill_line hw hl (Nat.zero_le w), Nat.sub_zero]
      split
      · next hle => rw [lineRows_of_le hle, List.take_of_length_le hle]
      · next hlt =>
          have hlen : (l.drop w).length < n := by
            rw [List.length_drop]
            omega
          rw [ih _ hlen (fun x hx => hl x (List.mem_of_mem_drop hx)) rfl,
            lineRows_of_lt hw (not_le.mp hlt)]

/-- **Symbol by symbol, the text is wrapped into its rows.** -/
theorem fill_zero (hw : 0 < w) (s : List β) : fill w brk 0 s = rows w brk s := by
  induction hn : s.length using Nat.strong_induction_on generalizing s with
  | _ n ih =>
      have hl : ∀ a ∈ s.takeWhile (fun a => !brk a), brk a = false := fun a ha => by
        simpa using List.mem_takeWhile_imp ha
      have hs := s.takeWhile_append_dropWhile (p := fun a => !brk a)
      rcases hrest : s.dropWhile (fun a => !brk a) with - | ⟨b, rest⟩
      · rw [hrest, List.append_nil] at hs
        rw [hs] at hl
        rw [fill_zero_line hw hl, rows, List.splitOnP_eq_singleton hl, List.flatMap_singleton]
      · have hb : brk b = true := by
          have hhead := List.head?_dropWhile_not (fun a => !brk a) s
          simpa [hrest] using hhead
        rw [hrest] at hs
        have hlen : rest.length < n := by
          have hlength := congrArg List.length hs
          simp only [List.length_append, List.length_cons] at hlength
          omega
        rw [← hs, fill_append_break hl hb, fill_zero_line hw hl, ih _ hlen rest rfl, rows, rows,
          List.splitOnP_append_cons_of_forall_mem hl b hb, List.flatMap_cons]

/-! ### Positions -/

variable {R : Rule β}

/-- **The end of a text is the end of its last row.** -/
theorem exists_foldl_advance (hskip : ∀ b, R.skip b = false) (hwidth : R.width = w) (hw : 0 < w)
    (s : List β) (r : ℤ) {c : ℕ} (hc : c ≤ w) :
    ∃ above last, fill w R.brk c s = above ++ [last] ∧
      s.foldl R.advance (r, (c : ℤ))
        = (r + above.length, (((if above = [] then c else 0) + last.length : ℕ) : ℤ)) := by
  induction s generalizing r c with
  | nil => exact ⟨[], [], rfl, by simp⟩
  | cons b s ih =>
      by_cases hbrk : R.brk b = true
      · obtain ⟨above, last, hfill, hpos⟩ := ih (r + 1) (Nat.zero_le w)
        refine ⟨[] :: above, last, by rw [fill_cons_break hbrk, hfill, List.cons_append], ?_⟩
        have hadvance : R.advance (r, (c : ℤ)) b = (r + 1, ((0 : ℕ) : ℤ)) := by
          simp [Rule.advance, hskip, hbrk]
        rw [List.foldl_cons, hadvance, hpos]
        simp only [List.length_cons, ite_self, List.cons_ne_nil, if_false, Prod.mk.injEq]
        exact ⟨by push_cast; ring, trivial⟩
      have hno : R.brk b = false := Bool.eq_false_iff.mpr hbrk
      by_cases hfull : w ≤ c
      · -- the symbol opens the next row
        obtain ⟨above, last, hfill, hpos⟩ := ih (r + 1) hw
        have hadvance : R.advance (r, (c : ℤ)) b = (r + 1, ((1 : ℕ) : ℤ)) := by
          simp [Rule.advance, hskip, hbrk, hwidth, hfull]
        rw [List.foldl_cons, hadvance, hpos, fill_cons_full hno hfull, hfill]
        rcases above with - | ⟨first, above⟩
        · refine ⟨[[]], b :: last, rfl, ?_⟩
          simp [Nat.add_comm]
        · refine ⟨[] :: (b :: first) :: above, last, rfl, ?_⟩
          simp [add_assoc, add_comm]
      · -- the symbol goes into the row, which is the last only if none follows
        obtain ⟨above, last, hfill, hpos⟩ := ih r (Nat.lt_of_not_le hfull)
        have hadvance : R.advance (r, (c : ℤ)) b = (r, ((c + 1 : ℕ) : ℤ)) := by
          simp [Rule.advance, hskip, hbrk, hwidth, hfull]
        rw [List.foldl_cons, hadvance, hpos, fill_cons hno (not_le.mp hfull), hfill]
        rcases above with - | ⟨first, above⟩
        · refine ⟨[], b :: last, rfl, ?_⟩
          simp [Nat.add_comm, Nat.add_left_comm]
        · exact ⟨(b :: first) :: above, last, rfl, by simp⟩

/-- The rows `rs` are those of a text up to a cut: the last of them may go on. -/
def UpToCut (rs rs' : List (List β)) : Prop :=
  ∀ above last, rs = above ++ [last] → ∃ behind below, rs' = above ++ (last ++ behind) :: below

/-- A row more on top. -/
theorem UpToCut.cons {rs rs' : List (List β)} (h : UpToCut rs rs') (hne : rs ≠ []) (r : List β) :
    UpToCut (r :: rs) (r :: rs') := by
  intro above last hrs
  rcases above with - | ⟨a, above⟩
  · exact absurd (List.cons.inj hrs).2 hne
  · obtain ⟨rfl, htail⟩ := List.cons.inj hrs
    obtain ⟨behind, below, hrs'⟩ := h above last htail
    exact ⟨behind, below, by rw [hrs']; rfl⟩

/-- A symbol more in the first row. -/
theorem UpToCut.push {rs rs' : List (List β)} (h : UpToCut rs rs') (hne : rs ≠ []) (b : β) :
    UpToCut (push b rs) (push b rs') := by
  rcases rs with - | ⟨first, rest⟩
  · exact absurd rfl hne
  intro above last hrs
  rcases above with - | ⟨a, above⟩
  · obtain ⟨rfl, rfl⟩ := List.cons.inj hrs
    obtain ⟨behind, below, hrs'⟩ := h [] first rfl
    exact ⟨behind, below, by rw [hrs']; rfl⟩
  · obtain ⟨rfl, hrest⟩ := List.cons.inj hrs
    obtain ⟨behind, below, hrs'⟩ := h (first :: above) last (by rw [hrest]; rfl)
    exact ⟨behind, below, by rw [hrs']; rfl⟩

/-- **Where a text is cut**, the rows above the cut, and the row up to it, are
those of its first part. -/
theorem upToCut_fill (l s : List β) (c : ℕ) :
    UpToCut (fill w brk c l) (fill w brk c (l ++ s)) := by
  induction l generalizing c with
  | nil =>
      intro above last hrs
      obtain ⟨rfl, rfl⟩ : above = [] ∧ last = [] := by
        rcases above with - | ⟨a, above⟩
        · exact ⟨rfl, (List.cons.inj hrs).1.symm⟩
        · have hlen := congrArg List.length (List.cons.inj hrs).2
          simp at hlen
      rcases hs : fill w brk c s with - | ⟨first, below⟩
      · exact absurd hs (fill_ne_nil c s)
      · exact ⟨first, below, hs⟩
  | cons b l ih =>
      rw [List.cons_append, fill, fill]
      split
      · exact (ih 0).cons (fill_ne_nil 0 l) []
      split
      · exact ((ih 1).push (fill_ne_nil 1 l) b).cons (push_ne_nil b _) []
      · exact (ih (c + 1)).push (fill_ne_nil _ l) b

/-! ### Places -/

variable (f : β → γ)

/-- The places of rows, the first of them row `r`, its first symbol in column
`c`: row, column, and what is there. -/
def placesFrom (r : ℤ) (c : ℕ) : List (List β) → List (ℤ × ℤ × γ)
  | [] => []
  | row :: rest =>
      (row.zipIdx c).map (fun b => (r, (b.2 : ℤ), f b.1)) ++ placesFrom (r + 1) 0 rest

/-- The places of rows, the first of them row `r`. -/
def placesOf (r : ℤ) (rs : List (List β)) : List (ℤ × ℤ × γ) :=
  rs.zipIdx.flatMap fun row => row.1.zipIdx.map fun b => (r + row.2, (b.2 : ℤ), f b.1)

theorem placesFrom_zero (r : ℤ) (rs : List (List β)) : placesFrom f r 0 rs = placesOf f r rs := by
  have hshift : ∀ (rs : List (List β)) (r : ℤ) (n : ℕ), placesFrom f (r + n) 0 rs
      = (rs.zipIdx n).flatMap fun row =>
        row.1.zipIdx.map fun b => (r + row.2, (b.2 : ℤ), f b.1) := by
    intro rs
    induction rs with
    | nil => exact fun _ _ => rfl
    | cons row rs ih =>
        intro r n
        rw [placesFrom, List.zipIdx_cons, List.flatMap_cons, ← ih r (n + 1), Nat.cast_succ,
          add_assoc]
  have h := hshift rs r 0
  rwa [Nat.cast_zero, add_zero] at h

theorem placesOf_cons (r : ℤ) (row : List β) (rs : List (List β)) :
    placesOf f r (row :: rs)
      = row.zipIdx.map (fun b => (r, (b.2 : ℤ), f b.1)) ++ placesOf f (r + 1) rs := by
  rw [← placesFrom_zero, placesFrom, placesFrom_zero]

/-- A row that is empty from its column on. -/
theorem placesFrom_nil_cons (r : ℤ) (c : ℕ) (rs : List (List β)) :
    placesFrom f r c ([] :: rs) = placesFrom f (r + 1) 0 rs := rfl

theorem placesFrom_push (r : ℤ) (c : ℕ) (b : β) (rs : List (List β)) :
    placesFrom f r c (push b rs) = (r, (c : ℤ), f b) :: placesFrom f r (c + 1) rs := by
  cases rs <;> rfl

theorem map_placesOf (r k : ℤ) (rs : List (List β)) :
    (placesOf f r rs).map (fun x => (x.1 + k, x.2)) = placesOf f (r + k) rs := by
  induction rs generalizing r with
  | nil => rfl
  | cons row rs ih =>
      rw [placesOf_cons, placesOf_cons, List.map_append, List.map_map, ih, add_right_comm]
      rfl

theorem row_le_of_mem_placesOf {r : ℤ} {rs : List (List β)} {x : ℤ × ℤ × γ}
    (h : x ∈ placesOf f r rs) : r ≤ x.1 := by
  obtain ⟨row, -, hx⟩ := List.mem_flatMap.mp h
  obtain ⟨b, -, rfl⟩ := List.mem_map.mp hx
  exact Int.le_add_of_nonneg_right (Int.natCast_nonneg _)

/-- **A window on the rows.** -/
theorem filter_placesOf (r top : ℤ) (n : ℕ) (rs : List (List β)) (htop : r ≤ top) :
    (placesOf f r rs).filter (fun x => top ≤ x.1 ∧ x.1 < top + n)
      = placesOf f top ((rs.drop (top - r).toNat).take n) := by
  induction rs generalizing r top n with
  | nil => rw [List.drop_nil, List.take_nil]; rfl
  | cons row rs ih =>
      rw [placesOf_cons, List.filter_append]
      rcases htop.eq_or_lt with rfl | hlt
      · -- the row is the first in the window, if it has any
        rw [Int.sub_self, Int.toNat_zero, List.drop_zero]
        rcases n with - | n
        · rw [List.take_zero, List.append_eq_nil_iff.mpr]
          · rfl
          · exact ⟨List.filter_eq_nil_iff.mpr fun x _ => by simp,
              List.filter_eq_nil_iff.mpr fun x _ => by simp⟩
        · rw [List.take_succ_cons, placesOf_cons, List.filter_eq_self.mpr]
          · congr 1
            have hwindow := ih (r + 1) (r + 1) n le_rfl
            rw [Int.sub_self, Int.toNat_zero, List.drop_zero] at hwindow
            rw [← hwindow]
            apply List.filter_congr
            intro x hx
            have hrow := row_le_of_mem_placesOf f hx
            rw [decide_eq_decide]
            push_cast
            omega
          · intro x hx
            obtain ⟨b, -, rfl⟩ := List.mem_map.mp hx
            simp
      · -- the row is above the window
        obtain ⟨k, hk⟩ : ∃ k, (top - r).toNat = k + 1 := ⟨(top - r).toNat - 1, by omega⟩
        have hk' : (top - (r + 1)).toNat = k := by omega
        rw [hk, List.drop_succ_cons, ← hk', ← ih (r + 1) top n hlt, List.filter_eq_nil_iff.mpr]
        · rfl
        · intro x hx
          obtain ⟨b, -, rfl⟩ := List.mem_map.mp hx
          simp only [decide_eq_true_eq]
          omega

end Wrap
