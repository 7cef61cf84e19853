/-
Diary/Memory.lean

A block of memory with checked access: its cells may be uninitialised, and
an access outside the block, or to a cell that was never written, is `none`.

`Holds m s` says that the block begins with the string `s`.  Every access
has one lemma, about the string held: a load below its length is defined
(`load_eq`), and a write at its end, an insertion and a removal by moves
succeed while there is room and make the block hold the string one expects
(`Holds.write`, `Holds.insert`, `Holds.remove`).
-/
import Mathlib.Data.List.Basic
import Mathlib.Tactic.Common

namespace Memory

/-! ### Blocks -/

/-- A block: its cells, `none` for one that was never written. -/
structure Block (α : Type*) where
  cells : List (Option α)
deriving DecidableEq

variable {α : Type*}

namespace Block

def size (m : Block α) : ℕ := m.cells.length

def malloc (n : ℕ) : Block α := ⟨List.replicate n none⟩

def calloc (zero : α) (n : ℕ) : Block α := ⟨List.replicate n (some zero)⟩

/-- The first cells are kept. -/
def realloc (m : Block α) (n : ℕ) : Block α :=
  ⟨m.cells.take n ++ List.replicate (n - m.size) none⟩

def load (m : Block α) (i : ℕ) : Option α := (m.cells[i]?).join

/-- `n` cells from `i` on. -/
def loads (m : Block α) (i n : ℕ) : Option (List α) :=
  if i + n ≤ m.size then ((m.cells.drop i).take n).mapM id else none

def store (m : Block α) (i : ℕ) (a : α) : Option (Block α) :=
  if i < m.size then some ⟨m.cells.set i (some a)⟩ else none

/-- A string is written from cell `i` on. -/
def write (m : Block α) (i : ℕ) (s : List α) : Option (Block α) :=
  if i + s.length ≤ m.size then
    some ⟨m.cells.take i ++ (s.map some ++ m.cells.drop (i + s.length))⟩
  else none

/-- `n` cells from `src` on are moved to `dst`; the ranges may overlap. -/
def move (m : Block α) (dst src n : ℕ) : Option (Block α) :=
  if dst + n ≤ m.size ∧ src + n ≤ m.size then
    some ⟨m.cells.take dst ++ ((m.cells.drop src).take n ++ m.cells.drop (dst + n))⟩
  else none

/-- The string up to the first `zero`. -/
def stringOf [DecidableEq α] (zero : α) : List (Option α) → Option (List α)
  | [] => none
  | none :: _ => none
  | some a :: cells => if a = zero then some [] else (stringOf zero cells).map (a :: ·)

def string [DecidableEq α] (zero : α) (m : Block α) : Option (List α) := stringOf zero m.cells

@[simp] theorem size_malloc (n : ℕ) : (malloc n : Block α).size = n := List.length_replicate

@[simp] theorem size_calloc (zero : α) (n : ℕ) : (calloc zero n).size = n := List.length_replicate

theorem size_realloc {m : Block α} {n : ℕ} (h : m.size ≤ n) : (m.realloc n).size = n := by
  show (m.cells.take n ++ List.replicate (n - m.size) none).length = n
  rw [List.length_append, List.take_of_length_le h, List.length_replicate]
  exact Nat.add_sub_cancel' h

end Block

/-! ### The string a block holds -/

/-- The block begins with the string `s`. -/
def Holds (m : Block α) (s : List α) : Prop := s.map some <+: m.cells

section Holds

variable {m : Block α} {s : List α}

theorem holds_nil (m : Block α) : Holds m [] := List.nil_prefix

theorem Holds.length_le (h : Holds m s) : s.length ≤ m.size := by
  have hle := List.IsPrefix.length_le h
  rwa [List.length_map] at hle

theorem load_eq (h : Holds m s) {i : ℕ} (hi : i < s.length) : m.load i = s[i]? := by
  obtain ⟨rest, hrest⟩ := h
  rw [Block.load, ← hrest, List.getElem?_append_left (by rwa [List.length_map]),
    List.getElem?_map, List.getElem?_eq_getElem hi]
  rfl

theorem mapM_map_some (s : List α) : (s.map some).mapM id = some s := by
  induction s with
  | nil => rfl
  | cons a s ih => simp [ih]

theorem loads_eq (h : Holds m s) {i n : ℕ} (hi : i + n ≤ s.length) :
    m.loads i n = some ((s.drop i).take n) := by
  have hsize := h.length_le
  obtain ⟨rest, hrest⟩ := h
  rw [Block.loads, if_pos (Nat.le_trans hi hsize), ← hrest,
    List.drop_append_of_le_length (by rw [List.length_map]; omega),
    List.take_append_of_le_length (by rw [List.length_drop, List.length_map]; omega),
    ← List.map_drop, ← List.map_take]
  exact mapM_map_some _

theorem Holds.realloc (h : Holds m s) {n : ℕ} (hn : m.size ≤ n) : Holds (m.realloc n) s := by
  show s.map some <+: m.cells.take n ++ List.replicate (n - m.size) none
  rw [List.take_of_length_le hn]
  exact h.trans (List.prefix_append _ _)

/-- A string is written behind the one held. -/
theorem Holds.write (h : Holds m s) {t : List α} (hroom : s.length + t.length ≤ m.size) :
    ∃ m', m.write s.length t = some m' ∧ Holds m' (s ++ t) ∧ m'.size = m.size := by
  obtain ⟨rest, hrest⟩ := h
  have htake : m.cells.take s.length = s.map some := by
    rw [← hrest, ← List.length_map (f := some), List.take_left]
  refine ⟨_, if_pos hroom, ?_, ?_⟩
  · show (s ++ t).map some <+: m.cells.take s.length ++ _
    rw [htake, List.map_append, ← List.append_assoc]
    exact List.prefix_append _ _
  · show (m.cells.take s.length ++ (t.map some ++ m.cells.drop (s.length + t.length))).length = _
    have hsize : m.size = m.cells.length := rfl
    simp only [List.length_append, List.length_take, List.length_map, List.length_drop]
    omega

/-- One cell is written behind the string held. -/
theorem Holds.store_end (h : Holds m s) {a : α} (hroom : s.length < m.size) :
    ∃ m', m.store s.length a = some m' ∧ Holds m' (s ++ [a]) ∧ m'.size = m.size := by
  obtain ⟨rest, hrest⟩ := h
  refine ⟨_, if_pos hroom, ?_, List.length_set⟩
  show (s ++ [a]).map some <+: m.cells.set s.length (some a)
  have hsize : m.size = m.cells.length := rfl
  rcases rest with - | ⟨c, rest⟩
  · rw [hsize, ← hrest] at hroom
    simp at hroom
  · rw [← hrest, List.map_append]
    refine ⟨rest, ?_⟩
    simp [List.set_append_right]

/-- A move within the string, to the end of the string, of all that follows
`src`. -/
theorem move_eq (h : Holds m s) {dst src : ℕ} (hdst : dst ≤ s.length) (hsrc : src ≤ s.length)
    (hroom : dst + (s.length - src) ≤ m.size) :
    ∃ m', m.move dst src (s.length - src) = some m' ∧ Holds m' (s.take dst ++ s.drop src) ∧
      m'.size = m.size := by
  have hlen := h.length_le
  obtain ⟨rest, hrest⟩ := h
  have hsize : m.size = m.cells.length := rfl
  have htake : m.cells.take dst = (s.take dst).map some := by
    rw [← hrest, List.take_append_of_le_length (by rwa [List.length_map]), List.map_take]
  have hdrop : (m.cells.drop src).take (s.length - src) = (s.drop src).map some := by
    rw [← hrest, List.drop_append_of_le_length (by rwa [List.length_map]), ← List.map_drop]
    apply List.take_left'
    rw [List.length_map, List.length_drop]
  refine ⟨_, if_pos ⟨hroom, by omega⟩, ?_, ?_⟩
  · show (s.take dst ++ s.drop src).map some <+:
      m.cells.take dst ++ ((m.cells.drop src).take (s.length - src) ++ _)
    rw [htake, hdrop, List.map_append, ← List.append_assoc]
    exact List.prefix_append _ _
  · show (m.cells.take dst ++ ((m.cells.drop src).take (s.length - src) ++
      m.cells.drop (dst + (s.length - src)))).length = m.size
    rw [hdrop]
    simp only [List.length_append, List.length_take, List.length_map, List.length_drop]
    omega

/-- What lies between two places of the string is removed. -/
theorem Holds.remove (h : Holds m s) {dst src : ℕ} (hdst : dst ≤ src) (hsrc : src ≤ s.length) :
    ∃ m', m.move dst src (s.length - src) = some m' ∧ Holds m' (s.take dst ++ s.drop src) ∧
      m'.size = m.size := by
  have hlen := h.length_le
  exact move_eq h (Nat.le_trans hdst hsrc) hsrc (by omega)

/-- Room is made for one cell within the string, and it is written. -/
theorem Holds.insert (h : Holds m s) {c : ℕ} (hc : c ≤ s.length) (hroom : s.length < m.size)
    (a : α) :
    ∃ m' m'', m.move (c + 1) c (s.length - c) = some m' ∧ m'.store c a = some m'' ∧
      Holds m'' (s.take c ++ a :: s.drop c) ∧ m''.size = m.size := by
  obtain ⟨rest, hrest⟩ := h
  have hsize : m.size = m.cells.length := rfl
  have hlt : c < m.cells.length := by omega
  -- the cell at `c` stays behind, and is overwritten
  have htake : m.cells.take (c + 1) = (s.take c).map some ++ [m.cells[c]] := by
    have hfront : m.cells.take c = (s.take c).map some := by
      rw [← hrest, List.take_append_of_le_length (by rwa [List.length_map]), List.map_take]
    rw [List.take_succ_eq_append_getElem hlt, hfront]
  have hdrop : (m.cells.drop c).take (s.length - c) = (s.drop c).map some := by
    rw [← hrest, List.drop_append_of_le_length (by rwa [List.length_map]), ← List.map_drop]
    apply List.take_left'
    rw [List.length_map, List.length_drop]
  have hlen : ((s.take c).map some).length = c := by
    rw [List.length_map, List.length_take_of_le hc]
  have hmove : m.move (c + 1) c (s.length - c)
      = some ⟨(s.take c).map some ++ m.cells[c] :: ((s.drop c).map some ++
          m.cells.drop (c + 1 + (s.length - c)))⟩ := by
    rw [Block.move, if_pos ⟨by omega, by omega⟩, htake, hdrop, List.append_assoc]
    rfl
  have hmoved : ((s.take c).map some ++ m.cells[c] :: ((s.drop c).map some ++
      m.cells.drop (c + 1 + (s.length - c)))).length = m.size := by
    simp only [List.length_append, List.length_cons, hlen, List.length_map, List.length_drop]
    omega
  refine ⟨_, _, hmove, if_pos ?_, ?_, ?_⟩
  · show c < List.length _
    rw [hmoved]
    omega
  · show (s.take c ++ a :: s.drop c).map some <+: List.set _ c (some a)
    rw [List.set_append_right c _ (Nat.le_of_eq hlen), hlen, Nat.sub_self, List.set_cons_zero,
      List.map_append, List.map_cons, ← List.cons_append, ← List.append_assoc]
    exact List.prefix_append _ _
  · show (List.set _ c (some a)).length = m.size
    rw [List.length_set, hmoved]

theorem stringOf_append [DecidableEq α] (zero : α) (s : List α) (rest : List (Option α)) :
    Block.stringOf zero (s.map some ++ some zero :: rest) = some (s.takeWhile (· ≠ zero)) := by
  induction s with
  | nil => exact if_pos rfl
  | cons a s ih =>
      rw [List.map_cons, List.cons_append, Block.stringOf]
      by_cases ha : a = zero
      · rw [if_pos ha, List.takeWhile_cons_of_neg (by simp [ha])]
      · rw [if_neg ha, ih, List.takeWhile_cons_of_pos (by simp [ha])]
        rfl

/-- The string up to the first `zero`, when one ends the string held. -/
theorem string_eq [DecidableEq α] {zero : α} (h : Holds m (s ++ [zero])) :
    m.string zero = some (s.takeWhile (· ≠ zero)) := by
  obtain ⟨rest, hrest⟩ := h
  rw [Block.string, ← hrest, List.map_append, List.append_assoc]
  exact stringOf_append zero s rest

end Holds

end Memory
