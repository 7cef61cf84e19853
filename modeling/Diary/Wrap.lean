/-
Diary/Wrap.lean

Texts laid out in rows of a given width, over an arbitrary type of symbols.
A symbol may take no place, like the last bytes of a stored character, or
may break the row; any other symbol takes one column, and goes to the next
row when there is no column left.

The wrap is *lazy*: a full row is left when the next symbol is placed, not
when the row fills.  So the position `pos` of an index that follows a full
row is in that row, one column further than any symbol, and a row that a
wrap began has no index at column 0.

* `toLex_pos_lt`, `pos_inj`: positions of the indices where a symbol starts
  are ordered as the indices are;
* `scan` looks a position up; `scan_pos` says that it inverts `pos`, and
  `nearest_scan_iff` when it finds the nearest index of a row;
* `column_eq_width_iff`: when an index follows a full row.
-/
import Diary.CodeText

namespace Wrap

open CodeText

variable {β : Type*}

/-- How symbols are laid out. -/
structure Rule (β : Type*) where
  /-- takes no place -/
  skip : β → Bool
  /-- ends the row -/
  brk : β → Bool
  width : ℤ

/-- The position after a symbol, from the one before it. -/
def Rule.advance (R : Rule β) (p : ℤ × ℤ) (b : β) : ℤ × ℤ :=
  if R.skip b = true then p
  else if R.brk b = true then (p.1 + 1, 0)
  else if R.width ≤ p.2 then (p.1 + 1, 1)
  else (p.1, p.2 + 1)

/-- The position of an index: row and column. -/
def Rule.pos (R : Rule β) (s : List β) (i : ℕ) : ℤ × ℤ :=
  (s.take i).foldl R.advance (0, 0)

/-- An index where a symbol starts that takes a place, or the end. -/
def Rule.IsStart (R : Rule β) (s : List β) (i : ℕ) : Prop :=
  i ≤ s.length ∧ Starts R.skip (s.drop i)

/-- The search for a position: from index `i` at position `p` on, the index
of the position looked for, or else the last one of its row, or the end. -/
def Rule.scan (R : Rule β) (t : ℤ × ℤ) : List β → ℕ → ℤ × ℤ → ℕ
  | [], i, _ => i
  | b :: rest, i, p =>
      if R.skip b = true then R.scan t rest (i + 1) p
      else if p = t then i
      else if (R.brk b = true ∨ R.width ≤ p.2) ∧ p.1 = t.1 then i
      else R.scan t rest (i + 1) (R.advance p b)

variable {R : Rule β} {s : List β} {i j k : ℕ} {p t : ℤ × ℤ} {b : β}

/-! ### One symbol -/

theorem advance_of_skip (h : R.skip b = true) (p : ℤ × ℤ) : R.advance p b = p := if_pos h

theorem toLex_advance_lt (h : R.skip b = false) (p : ℤ × ℤ) :
    toLex p < toLex (R.advance p b) := by
  have hskip : ¬ R.skip b = true := by simp [h]
  rw [Prod.Lex.toLex_lt_toLex, Rule.advance, if_neg hskip]
  split
  · exact Or.inl (Int.lt_succ p.1)
  split
  · exact Or.inl (Int.lt_succ p.1)
  · exact Or.inr ⟨rfl, Int.lt_succ p.2⟩

theorem toLex_le_advance (p : ℤ × ℤ) (b : β) : toLex p ≤ toLex (R.advance p b) := by
  cases h : R.skip b with
  | true => rw [advance_of_skip h]
  | false => exact (toLex_advance_lt h p).le

/-- A symbol that leaves the row leaves it for the next one, at its first or
second column. -/
theorem advance_fst (p : ℤ × ℤ) (b : β) :
    (R.advance p b).1 = p.1 ∨
      (R.advance p b).1 = p.1 + 1 ∧ 0 ≤ (R.advance p b).2 ∧ (R.advance p b).2 ≤ 1 ∧
        R.skip b = false ∧ (R.brk b = true ∨ R.width ≤ p.2) := by
  rw [Rule.advance]
  split
  · exact Or.inl rfl
  next hskip =>
    have hskip : R.skip b = false := by simpa using hskip
    split
    · next hbrk => exact Or.inr ⟨rfl, le_refl _, zero_le_one, hskip, Or.inl hbrk⟩
    split
    · next hfull => exact Or.inr ⟨rfl, zero_le_one, le_refl _, hskip, Or.inr hfull⟩
    · exact Or.inl rfl

/-- A symbol that ends a row leaves it. -/
theorem advance_of_ends (hskip : R.skip b = false) (h : R.brk b = true ∨ R.width ≤ p.2) :
    (R.advance p b).1 = p.1 + 1 := by
  have hskip : ¬ R.skip b = true := by simp [hskip]
  rw [Rule.advance, if_neg hskip]
  split
  · rfl
  next hbrk => rw [if_pos (h.resolve_left hbrk)]

/-- Within a row the column grows by at most one. -/
theorem advance_snd_le (h : (R.advance p b).1 = p.1) : (R.advance p b).2 ≤ p.2 + 1 := by
  rw [Rule.advance] at h ⊢
  split
  · exact (Int.lt_succ p.2).le
  next hskip =>
    rw [if_neg hskip] at h
    split
    · next hbrk =>
      rw [if_pos hbrk] at h
      simp only at h
      omega
    next hbrk =>
      rw [if_neg hbrk] at h
      split
      · next hfull =>
        rw [if_pos hfull] at h
        simp only at h
        omega
      · exact le_refl _

theorem advance_snd_bounds (hwidth : 1 ≤ R.width) (h : 0 ≤ p.2 ∧ p.2 ≤ R.width) (b : β) :
    0 ≤ (R.advance p b).2 ∧ (R.advance p b).2 ≤ R.width := by
  rw [Rule.advance]
  split
  · exact h
  split
  · exact ⟨le_refl _, by simp only; omega⟩
  split
  · exact ⟨zero_le_one, hwidth⟩
  · simp only
    omega

/-! ### Positions -/

@[simp] theorem pos_zero (R : Rule β) (s : List β) : R.pos s 0 = (0, 0) := rfl

/-- The position of the end. -/
theorem pos_length (R : Rule β) (s : List β) :
    R.pos s s.length = s.foldl R.advance (0, 0) := by
  rw [Rule.pos, List.take_length]

theorem pos_succ (h : s[i]? = some b) : R.pos s (i + 1) = R.advance (R.pos s i) b := by
  rw [Rule.pos, List.take_add_one, h, List.foldl_append]
  rfl

theorem pos_succ_of_length_le (h : s.length ≤ i) : R.pos s (i + 1) = R.pos s i := by
  rw [Rule.pos, Rule.pos, List.take_of_length_le h, List.take_of_length_le (h.trans i.le_succ)]

theorem toLex_pos_le_succ (R : Rule β) (s : List β) (i : ℕ) :
    toLex (R.pos s i) ≤ toLex (R.pos s (i + 1)) := by
  rcases h : s[i]? with - | b
  · rw [pos_succ_of_length_le (List.getElem?_eq_none_iff.mp h)]
  · rw [pos_succ h]
    exact toLex_le_advance _ _

theorem monotone_pos (R : Rule β) (s : List β) : Monotone fun i => toLex (R.pos s i) :=
  monotone_nat_of_le_succ (toLex_pos_le_succ R s)

theorem row_le (R : Rule β) (s : List β) (h : i ≤ j) : (R.pos s i).1 ≤ (R.pos s j).1 :=
  Prod.Lex.monotone_fst _ _ (monotone_pos R s h)

/-- What every symbol preserves holds of every position. -/
theorem pos_invariant {I : ℤ × ℤ → Prop} (hzero : I (0, 0))
    (hstep : ∀ p b, I p → I (R.advance p b)) (s : List β) (i : ℕ) : I (R.pos s i) := by
  induction i with
  | zero => exact hzero
  | succ i ih =>
      rcases h : s[i]? with - | b
      · rw [pos_succ_of_length_le (List.getElem?_eq_none_iff.mp h)]
        exact ih
      · rw [pos_succ h]
        exact hstep _ b ih

theorem column_bounds (hwidth : 1 ≤ R.width) (s : List β) (i : ℕ) :
    0 ≤ (R.pos s i).2 ∧ (R.pos s i).2 ≤ R.width :=
  pos_invariant (I := fun p => 0 ≤ p.2 ∧ p.2 ≤ R.width) ⟨le_refl _, zero_le_one.trans hwidth⟩
    (fun _ b hp => advance_snd_bounds hwidth hp b) s i

theorem column_nonneg (R : Rule β) (s : List β) (i : ℕ) : 0 ≤ (R.pos s i).2 := by
  apply pos_invariant (I := fun p => 0 ≤ p.2) (le_refl _)
  intro p b hp
  rw [Rule.advance]
  split
  · exact hp
  split
  · exact le_refl _
  split
  · exact zero_le_one
  · exact Int.le_add_one hp

/-! ### Where symbols start -/

theorem isStart_length (R : Rule β) (s : List β) : R.IsStart s s.length := by
  refine ⟨le_refl _, ?_⟩
  rw [List.drop_length]
  exact nofun

theorem skip_eq_false_of_isStart (h : R.IsStart s i) (hb : s[i]? = some b) : R.skip b = false := by
  apply h.2
  rw [List.head?_drop]
  exact hb

theorem isStart_of_skip_eq_false (hb : s[i]? = some b) (hskip : R.skip b = false) :
    R.IsStart s i := by
  obtain ⟨hlt, -⟩ := List.getElem?_eq_some_iff.mp hb
  refine ⟨hlt.le, fun x hx => ?_⟩
  rw [List.head?_drop, hb] at hx
  obtain rfl := Option.some.inj hx
  exact hskip

/-- Every index has the position of one where a symbol starts. -/
theorem exists_isStart (R : Rule β) {s : List β} (hi : i ≤ s.length) :
    ∃ j, i ≤ j ∧ R.IsStart s j ∧ R.pos s j = R.pos s i := by
  induction hi using Nat.decreasingInduction with
  | self => exact ⟨s.length, le_refl _, isStart_length R s, rfl⟩
  | of_succ i hi ih =>
      have hb : s[i]? = some s[i] := List.getElem?_eq_getElem hi
      cases hskip : R.skip s[i] with
      | false => exact ⟨i, le_refl _, isStart_of_skip_eq_false hb hskip, rfl⟩
      | true =>
          obtain ⟨j, hj, hstart, hpos⟩ := ih
          refine ⟨j, Nat.le_of_succ_le hj, hstart, ?_⟩
          rw [hpos, pos_succ hb, advance_of_skip hskip]

/-- **Positions are ordered as indices are.** -/
theorem toLex_pos_lt (hi : R.IsStart s i) (hij : i < j) (hj : j ≤ s.length) :
    toLex (R.pos s i) < toLex (R.pos s j) := by
  have hb : s[i]? = some s[i] := List.getElem?_eq_getElem (hij.trans_le hj)
  calc toLex (R.pos s i) < toLex (R.pos s (i + 1)) := by
        rw [pos_succ hb]
        exact toLex_advance_lt (skip_eq_false_of_isStart hi hb) _
    _ ≤ toLex (R.pos s j) := monotone_pos R s hij

theorem pos_inj (hi : R.IsStart s i) (hj : R.IsStart s j) (h : R.pos s i = R.pos s j) :
    i = j := by
  rcases lt_trichotomy i j with hlt | heq | hgt
  · exact absurd (toLex_pos_lt hi hlt hj.1) (by rw [h]; exact lt_irrefl _)
  · exact heq
  · exact absurd (toLex_pos_lt hj hgt hi.1) (by rw [h]; exact lt_irrefl _)

/-! ### Rows -/

/-- The index is one of the row `r`. -/
def Rule.OnRow (R : Rule β) (s : List β) (r : ℤ) (i : ℕ) : Prop :=
  R.IsStart s i ∧ (R.pos s i).1 = r

/-- The first index of a row. -/
def Rule.First (R : Rule β) (s : List β) (r : ℤ) (i : ℕ) : Prop :=
  R.OnRow s r i ∧ ∀ k, R.OnRow s r k → i ≤ k

/-- The last index of a row. -/
def Rule.Last (R : Rule β) (s : List β) (r : ℤ) (i : ℕ) : Prop :=
  R.OnRow s r i ∧ ∀ k, R.OnRow s r k → k ≤ i

/-- The index of a row that is nearest to column `c`: of those not beyond it
the one of the greatest column, or the first of the row if all are. -/
def Rule.Nearest (R : Rule β) (s : List β) (r c : ℤ) (i : ℕ) : Prop :=
  (R.OnRow s r i ∧ (R.pos s i).2 ≤ c ∧
      ∀ k, R.OnRow s r k → (R.pos s k).2 ≤ c → (R.pos s k).2 ≤ (R.pos s i).2) ∨
    (R.First s r i ∧ ∀ k, R.OnRow s r k → c < (R.pos s k).2)

/-- A row left between two indices is left at a symbol that ends it. -/
theorem exists_row_end {r : ℤ} (hij : i ≤ j) (hi : (R.pos s i).1 ≤ r) (hj : r < (R.pos s j).1) :
    ∃ m b, i ≤ m ∧ m < j ∧ s[m]? = some b ∧ R.IsStart s m ∧ (R.pos s m).1 = r ∧
      (R.brk b = true ∨ R.width ≤ (R.pos s m).2) ∧ (R.pos s (m + 1)).1 = r + 1 ∧
      (R.pos s (m + 1)).2 ≤ 1 := by
  induction j, hij using Nat.le_induction with
  | base => omega
  | succ j hij ih =>
      by_cases hrow : r < (R.pos s j).1
      · obtain ⟨m, b, him, hmj, hm⟩ := ih hrow
        exact ⟨m, b, him, hmj.trans j.lt_succ_self, hm⟩
      -- the row is left by the symbol at `j`
      rcases hb : s[j]? with - | b
      · rw [pos_succ_of_length_le (List.getElem?_eq_none_iff.mp hb)] at hj
        exact absurd hj hrow
      rw [pos_succ hb] at hj
      rcases advance_fst (R := R) (R.pos s j) b with hstay | ⟨hnext, -, hcol, hskip, hends⟩
      · rw [hstay] at hj
        exact absurd hj hrow
      · have hr : (R.pos s j).1 = r := by omega
        refine ⟨j, b, hij, j.lt_succ_self, hb, isStart_of_skip_eq_false hb hskip, hr, hends, ?_, ?_⟩
        · rw [pos_succ hb, hnext, hr]
        · rw [pos_succ hb]
          exact hcol

/-- Behind a symbol that ends its row there is no index of that row. -/
theorem row_lt_of_ends (hi : R.IsStart s i) (hb : s[i]? = some b)
    (hends : R.brk b = true ∨ R.width ≤ (R.pos s i).2) (hij : i < j) :
    (R.pos s i).1 < (R.pos s j).1 := by
  have hnext : (R.pos s (i + 1)).1 = (R.pos s i).1 + 1 := by
    rw [pos_succ hb]
    exact advance_of_ends (skip_eq_false_of_isStart hi hb) hends
  have hle := row_le R s (Nat.succ_le_of_lt hij)
  rw [hnext] at hle
  omega

/-- A row has an index at column 0 or 1. -/
theorem exists_column_le_one {r : ℤ} (h : R.OnRow s r k) :
    ∃ i, R.OnRow s r i ∧ (R.pos s i).2 ≤ 1 := by
  have hnonneg : 0 ≤ r := by
    have hle := row_le R s (Nat.zero_le k)
    rw [h.2] at hle
    exact hle
  rcases hnonneg.eq_or_lt with rfl | hpos
  · obtain ⟨i, -, hi, hzero⟩ := exists_isStart R (Nat.zero_le s.length)
    rw [pos_zero] at hzero
    exact ⟨i, ⟨hi, by rw [hzero]⟩, by rw [hzero]; exact zero_le_one⟩
  · -- the row was entered from the one before
    have hleave : r - 1 < (R.pos s k).1 := by
      rw [h.2]
      omega
    have hstart : (R.pos s 0).1 ≤ r - 1 := by
      rw [pos_zero]
      omega
    obtain ⟨m, b, -, -, hb, -, -, -, hrow, hcol⟩ := exists_row_end (Nat.zero_le k) hstart hleave
    obtain ⟨hm, -⟩ := List.getElem?_eq_some_iff.mp hb
    obtain ⟨i, -, hi, hpos⟩ := exists_isStart R (Nat.succ_le_of_lt hm)
    refine ⟨i, ⟨hi, ?_⟩, ?_⟩
    · rw [hpos, hrow]
      omega
    · rw [hpos]
      exact hcol

/-- Between two indices of a row every column in between has one. -/
theorem exists_pos_eq {r c : ℤ} (hij : i ≤ j) (hj : j ≤ s.length) (hri : (R.pos s i).1 = r)
    (hrj : (R.pos s j).1 = r) (hci : (R.pos s i).2 ≤ c) (hcj : c ≤ (R.pos s j).2) :
    ∃ k, R.IsStart s k ∧ R.pos s k = (r, c) := by
  induction j, hij using Nat.le_induction with
  | base =>
      obtain ⟨k, -, hk, hpos⟩ := exists_isStart R hj
      refine ⟨k, hk, hpos.trans (Prod.ext hri ?_)⟩
      exact le_antisymm hci hcj
  | succ j hij ih =>
      have hlow := row_le R s hij
      have hhigh : (R.pos s j).1 ≤ (R.pos s (j + 1)).1 := row_le R s j.le_succ
      have hrow : (R.pos s j).1 = r := by omega
      by_cases hcol : c ≤ (R.pos s j).2
      · exact ih (Nat.le_of_succ_le hj) hrow hcol
      have hb : s[j]? = some s[j] := List.getElem?_eq_getElem hj
      have hgrow : (R.pos s (j + 1)).2 ≤ (R.pos s j).2 + 1 := by
        rw [pos_succ hb] at hrj ⊢
        exact advance_snd_le (by rw [hrj, hrow])
      obtain ⟨k, -, hk, hpos⟩ := exists_isStart R hj
      refine ⟨k, hk, hpos.trans (Prod.ext hrj ?_)⟩
      show (R.pos s (j + 1)).2 = c
      omega

/-! ### The search -/

/-- Where the search stops. -/
def Rule.Stops (R : Rule β) (s : List β) (t : ℤ × ℤ) (i : ℕ) : Prop :=
  R.pos s i = t ∨
    ((R.pos s i).1 = t.1 ∧ ∃ b, s[i]? = some b ∧ (R.brk b = true ∨ R.width ≤ (R.pos s i).2)) ∨
    i = s.length

/-- The search stops at the first start of a symbol where it can. -/
theorem scan_spec_from {rest : List β} (hrest : s.drop i = rest) (hi : i ≤ s.length) :
    i ≤ R.scan t rest i (R.pos s i) ∧ R.IsStart s (R.scan t rest i (R.pos s i)) ∧
      R.Stops s t (R.scan t rest i (R.pos s i)) ∧
      ∀ k, i ≤ k → k < R.scan t rest i (R.pos s i) → R.IsStart s k → ¬ R.Stops s t k := by
  induction rest generalizing i with
  | nil =>
      have hend : i = s.length := le_antisymm hi (List.drop_eq_nil_iff.mp hrest)
      refine ⟨le_refl _, ?_, Or.inr (Or.inr hend), fun k hik hki => ?_⟩
      · rw [Rule.scan, hend]
        exact isStart_length R s
      · rw [Rule.scan] at hki
        omega
  | cons b rest ih =>
      have hb : s[i]? = some b := by
        rw [← List.head?_drop, hrest]
        rfl
      obtain ⟨hlt, -⟩ := List.getElem?_eq_some_iff.mp hb
      have hnext : s.drop (i + 1) = rest := by
        rw [← List.drop_drop, hrest]
        rfl
      have hstep := ih hnext hlt
      -- going on past `i`, where the search may not stop
      have hpast : ∀ p, p = R.pos s (i + 1) → (R.IsStart s i → ¬ R.Stops s t i) →
          i ≤ R.scan t rest (i + 1) p ∧ R.IsStart s (R.scan t rest (i + 1) p) ∧
            R.Stops s t (R.scan t rest (i + 1) p) ∧
            ∀ k, i ≤ k → k < R.scan t rest (i + 1) p → R.IsStart s k → ¬ R.Stops s t k := by
        rintro p rfl hnot
        obtain ⟨hle, hstart, hstops, hfirst⟩ := hstep
        refine ⟨Nat.le_of_succ_le hle, hstart, hstops, fun k hik hk hkstart => ?_⟩
        rcases hik.eq_or_lt with rfl | hik
        · exact hnot hkstart
        · exact hfirst k hik hk hkstart
      rw [Rule.scan]
      split
      · next hskip =>
        apply hpast
        · rw [pos_succ hb, advance_of_skip hskip]
        · intro hstart
          rw [skip_eq_false_of_isStart hstart hb] at hskip
          cases hskip
      next hskip =>
        have hskip : R.skip b = false := by simpa using hskip
        have hhere : R.IsStart s i := isStart_of_skip_eq_false hb hskip
        split
        · next hhit => exact ⟨le_refl _, hhere, Or.inl hhit, fun k hik hki => by omega⟩
        next hhit =>
          split
          · next hends =>
            exact ⟨le_refl _, hhere, Or.inr (Or.inl ⟨hends.2, b, hb, hends.1⟩),
              fun k hik hki => by omega⟩
          · next hends =>
            apply hpast
            · exact (pos_succ hb).symm
            · rintro - (h | ⟨hrow, b', hb', h⟩ | h)
              · exact hhit h
              · rw [hb] at hb'
                obtain rfl := Option.some.inj hb'
                exact hends ⟨h, hrow⟩
              · omega

theorem scan_spec (R : Rule β) (s : List β) (t : ℤ × ℤ) :
    R.IsStart s (R.scan t s 0 (0, 0)) ∧ R.Stops s t (R.scan t s 0 (0, 0)) ∧
      ∀ k, k < R.scan t s 0 (0, 0) → R.IsStart s k → ¬ R.Stops s t k := by
  obtain ⟨-, hstart, hstops, hfirst⟩ := scan_spec_from (R := R) (t := t) (s := s) (i := 0)
    List.drop_zero (Nat.zero_le _)
  exact ⟨hstart, hstops, fun k => hfirst k (Nat.zero_le k)⟩

/-- **The search inverts positions.** -/
theorem scan_pos (hi : R.IsStart s i) : R.scan (R.pos s i) s 0 (0, 0) = i := by
  obtain ⟨hstart, hstops, hfirst⟩ := scan_spec R s (R.pos s i)
  set j := R.scan (R.pos s i) s 0 (0, 0) with hj
  rcases lt_trichotomy j i with hlt | heq | hgt
  · rcases hstops with hpos | ⟨hrow, b, hb, hends⟩ | hend
    · exact pos_inj hstart hi hpos
    · -- the row of `j` is left before `i`
      have hleft := row_lt_of_ends hstart hb hends hlt
      omega
    · exact absurd hi.1 (by omega)
  · exact heq
  · exact absurd (Or.inl rfl) (hfirst i hgt hi)

/-- In a row without the column looked for the search finds the last index. -/
theorem last_scan {r c : ℤ} (hrow : R.OnRow s r k)
    (hnone : ∀ i, R.IsStart s i → R.pos s i ≠ (r, c)) :
    R.Last s r (R.scan (r, c) s 0 (0, 0)) := by
  obtain ⟨hstart, hstops, hfirst⟩ := scan_spec R s (r, c)
  set j := R.scan (r, c) s 0 (0, 0) with hj
  rcases hstops with hpos | ⟨hr, b, hb, hends⟩ | hend
  · exact absurd hpos (hnone j hstart)
  · refine ⟨⟨hstart, hr⟩, fun i hi => ?_⟩
    by_contra hlt
    have hleft := row_lt_of_ends hstart hb hends (not_le.mp hlt)
    rw [hr, hi.2] at hleft
    exact lt_irrefl r hleft
  · refine ⟨⟨hstart, ?_⟩, fun i hi => by rw [hend]; exact hi.1.1⟩
    -- the search did not stop where the row is left, so it is not left
    have hle : k ≤ j := by
      rw [hend]
      exact hrow.1.1
    have hrk := hrow.2
    have hmono := row_le R s hle
    by_contra hne
    have hleave : r < (R.pos s j).1 := by omega
    obtain ⟨m, b, -, hm, hb, hms, hmr, hends, -⟩ := exists_row_end hle hrk.le hleave
    exact hfirst m hm hms (Or.inr (Or.inl ⟨hmr, b, hb, hends⟩))

/-- Without the row looked for the search ends with the text. -/
theorem scan_of_no_row {r c : ℤ} (h : ∀ k, ¬ R.OnRow s r k) :
    R.scan (r, c) s 0 (0, 0) = s.length := by
  obtain ⟨hstart, hpos | ⟨hr, -⟩ | hend, -⟩ := scan_spec R s (r, c)
  · exact absurd ⟨hstart, congrArg Prod.fst hpos⟩ (h _)
  · exact absurd ⟨hstart, hr⟩ (h _)
  · exact hend

/-- The row has no index at column 0: a wrap began it. -/
def Rule.Wrapped (R : Rule β) (s : List β) (r : ℤ) : Prop := ∀ i, R.IsStart s i → R.pos s i ≠ (r, 0)

/-- The row has a single index. -/
def Rule.Single (R : Rule β) (s : List β) (r : ℤ) : Prop :=
  ∀ i j, R.OnRow s r i → R.OnRow s r j → i = j

/-- Along a row the column does not go back. -/
theorem column_le {r : ℤ} (hi : R.OnRow s r i) (hj : R.OnRow s r j) (hij : i ≤ j) :
    (R.pos s i).2 ≤ (R.pos s j).2 := by
  rcases Prod.Lex.toLex_le_toLex.mp (monotone_pos R s hij) with hrow | ⟨-, hcol⟩
  · rw [hi.2, hj.2] at hrow
    exact absurd hrow (lt_irrefl r)
  · exact hcol

theorem nearest_of_pos_eq {r c : ℤ} (hi : R.IsStart s i) (hpos : R.pos s i = (r, c)) :
    R.Nearest s r c i := by
  refine Or.inl ⟨⟨hi, congrArg Prod.fst hpos⟩, ?_, fun k _ hk => ?_⟩
  · rw [hpos]
  · rw [hpos]
    exact hk

/-- Nearest to column 0 is the first index. -/
theorem nearest_zero_iff {r : ℤ} : R.Nearest s r 0 i ↔ R.First s r i := by
  constructor
  · rintro (⟨hrow, hcol, -⟩ | ⟨hfirst, -⟩)
    · refine ⟨hrow, fun k hk => ?_⟩
      by_contra hlt
      have hlex := Prod.Lex.toLex_lt_toLex.mp (toLex_pos_lt hk.1 (not_le.mp hlt) hrow.1.1)
      have hnonneg := column_nonneg R s k
      rw [hk.2, hrow.2] at hlex
      omega
    · exact hfirst
  · intro hfirst
    by_cases hcol : (R.pos s i).2 ≤ 0
    · apply nearest_of_pos_eq hfirst.1.1
      exact Prod.ext hfirst.1.2 (le_antisymm hcol (column_nonneg R s i))
    · refine Or.inr ⟨hfirst, fun k hk => ?_⟩
      have hle := column_le hfirst.1 hk (hfirst.2 k hk)
      omega

/-- **When the search finds the nearest index.**  Of a row that exists, for
every column but 0, and for column 0 unless a wrap began the row and it has
more than one index. -/
theorem nearest_scan_iff {r c : ℤ} (hrow : R.OnRow s r k) (hc : 0 ≤ c) :
    R.Nearest s r c (R.scan (r, c) s 0 (0, 0)) ↔ (c = 0 → R.Wrapped s r → R.Single s r) := by
  by_cases hhit : ∃ i, R.IsStart s i ∧ R.pos s i = (r, c)
  · obtain ⟨i, hi, hpos⟩ := hhit
    rw [← hpos, scan_pos hi]
    refine iff_of_true (nearest_of_pos_eq hi hpos) ?_
    rintro rfl hwrapped
    exact absurd hpos (hwrapped i hi)
  have hnone : ∀ i, R.IsStart s i → R.pos s i ≠ (r, c) := fun i hi hpos => hhit ⟨i, hi, hpos⟩
  have hlast := last_scan hrow hnone
  set j := R.scan (r, c) s 0 (0, 0) with hj
  by_cases hbefore : ∃ i, R.OnRow s r i ∧ (R.pos s i).2 ≤ c
  · obtain ⟨i, hi, hcol⟩ := hbefore
    -- the columns of a row have no gaps
    have hjcol : (R.pos s j).2 ≤ c := by
      by_contra hlt
      obtain ⟨m, hm, hpos⟩ := exists_pos_eq (hlast.2 i hi) hlast.1.1.1 hi.2 hlast.1.2 hcol
        (not_le.mp hlt).le
      exact hnone m hm hpos
    refine iff_of_true (Or.inl ⟨hlast.1, hjcol, fun m hm _ => ?_⟩) ?_
    · exact column_le hm hlast.1 (hlast.2 m hm)
    · rintro rfl hwrapped
      refine absurd (Prod.ext hi.2 ?_) (hwrapped i hi.1)
      exact le_antisymm hcol (column_nonneg R s i)
  · have hbeyond : ∀ i, R.OnRow s r i → c < (R.pos s i).2 :=
      fun i hi => not_le.mp fun hle => hbefore ⟨i, hi, hle⟩
    have hzero : c = 0 := by
      obtain ⟨i, hi, hcol⟩ := exists_column_le_one hrow
      have hlt := hbeyond i hi
      omega
    subst hzero
    have hwrapped : R.Wrapped s r := hnone
    constructor
    · rintro (⟨-, hcol, -⟩ | ⟨hfirst, -⟩) - -
      · exact absurd (hbeyond j hlast.1) (not_lt.mpr hcol)
      · intro m m' hm hm'
        have h₁ := hfirst.2 m hm
        have h₂ := hfirst.2 m' hm'
        have h₃ := hlast.2 m hm
        have h₄ := hlast.2 m' hm'
        omega
    · intro h
      refine Or.inr ⟨⟨hlast.1, fun m hm => ?_⟩, hbeyond⟩
      exact (h rfl hwrapped j m hlast.1 hm).le

/-- A search beyond the width finds the last index of the row. -/
theorem last_scan_of_width_lt {r c : ℤ} (hwidth : 1 ≤ R.width) (hc : R.width < c)
    (hrow : R.OnRow s r k) : R.Last s r (R.scan (r, c) s 0 (0, 0)) := by
  apply last_scan hrow
  intro i _ hpos
  have hle := (column_bounds hwidth s i).2
  rw [hpos] at hle
  exact absurd hc (not_lt.mpr hle)

/-! ### Full rows -/

/-- How many symbols there are since the last one that breaks the row. -/
def Rule.lineLength (R : Rule β) (s : List β) : ℕ :=
  ((s.reverse.takeWhile fun b => R.skip b || !R.brk b).filter fun b => !R.skip b).length

theorem lineLength_snoc (R : Rule β) (s : List β) (b : β) :
    R.lineLength (s ++ [b])
      = if R.skip b = true then R.lineLength s
        else if R.brk b = true then 0
        else R.lineLength s + 1 := by
  rw [Rule.lineLength, List.reverse_append, List.reverse_singleton, List.singleton_append,
    List.takeWhile_cons]
  cases hskip : R.skip b with
  | true => simp [hskip, Rule.lineLength]
  | false =>
      cases hbrk : R.brk b with
      | true => simp
      | false => simp [hskip, Rule.lineLength]

theorem pos_snoc (R : Rule β) (s : List β) (b : β) :
    R.pos (s ++ [b]) (s ++ [b]).length = R.advance (R.pos s s.length) b := by
  rw [pos_length, pos_length, List.foldl_append]
  rfl

/-- A line is some full rows and the column of its end. -/
theorem lineLength_eq (hwidth : 1 ≤ R.width) (s : List β) :
    ∃ q : ℤ, 0 ≤ q ∧ (R.lineLength s : ℤ) = q * R.width + (R.pos s s.length).2 ∧
      ((R.pos s s.length).2 = 0 → R.lineLength s = 0) := by
  induction s using List.reverseRecOn with
  | nil => exact ⟨0, le_refl _, by simp [Rule.lineLength, Rule.pos], fun _ => rfl⟩
  | append_singleton s b ih =>
      obtain ⟨q, hq0, hq, hzero⟩ := ih
      have hbounds := column_bounds hwidth s s.length
      rw [pos_snoc, lineLength_snoc, Rule.advance]
      split
      · exact ⟨q, hq0, hq, hzero⟩
      split
      · exact ⟨0, le_refl _, by simp, fun _ => rfl⟩
      split
      · next hfull =>
        -- the row was full: one more of them, and a column
        have hcol : (R.pos s s.length).2 = R.width := by omega
        refine ⟨q + 1, by omega, ?_, fun h => absurd h one_ne_zero⟩
        rw [Nat.cast_succ, hq, hcol]
        ring
      · refine ⟨q, hq0, ?_, fun h => ?_⟩
        · rw [Nat.cast_succ, hq]
          ring
        · simp only at h
          omega

/-- **When an index follows a full row.** -/
theorem column_eq_width_iff (hwidth : 1 ≤ R.width) (s : List β) :
    (R.pos s s.length).2 = R.width ↔
      0 < R.lineLength s ∧ R.width ∣ (R.lineLength s : ℤ) := by
  obtain ⟨q, hq0, hq, hzero⟩ := lineLength_eq hwidth s
  obtain ⟨hlow, hhigh⟩ := column_bounds hwidth s s.length
  set c := (R.pos s s.length).2 with hc
  constructor
  · intro hfull
    have hline : (R.lineLength s : ℤ) = (q + 1) * R.width := by
      rw [hq, hfull]
      ring
    refine ⟨?_, hline ▸ Dvd.intro_left (q + 1) rfl⟩
    have hsome : 0 < (q + 1) * R.width := by positivity
    omega
  · rintro ⟨hpos, hdvd⟩
    have hdvd' : R.width ∣ c := by
      rw [hq] at hdvd
      exact (Int.dvd_add_right (Dvd.intro_left q rfl)).mp hdvd
    have hne : c ≠ 0 := fun h => absurd (hzero h) hpos.ne'
    exact le_antisymm hhigh (Int.le_of_dvd (lt_of_le_of_ne hlow hne.symm) hdvd')

end Wrap
