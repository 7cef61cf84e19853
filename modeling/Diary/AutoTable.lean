/-
Diary/AutoTable.lean

A table whose key is an `INTEGER PRIMARY KEY AUTOINCREMENT`, over an
arbitrary type of rows.  `seq` is the counter the database keeps beside the
table: the greatest key it ever gave out.  A new row gets the next key, so
a key is never used twice, even after its row is deleted.

The three fields after the data say what a table of this kind always is:
rows in ascending key order, keys positive and at most `seq`.  Every
operation below builds its result with these proofs, so no other table can
be reached.

`lookup` is the table seen as a partial map; `lookup_insert`,
`lookup_modify` and `lookup_remove` say what the three statements do to
that map.
-/
import Mathlib

/-- A table with an autoincrement key. -/
structure AutoTable (α : Type*) where
  rows : List (ℕ × α)
  seq : ℕ
  sorted : rows.Pairwise (fun r s => r.1 < s.1)
  pos : ∀ r ∈ rows, 0 < r.1
  le_seq : ∀ r ∈ rows, r.1 ≤ seq

namespace AutoTable

variable {α : Type*}

theorem ext_rows {t u : AutoTable α} (hr : t.rows = u.rows) (hs : t.seq = u.seq) : t = u := by
  obtain ⟨rows, seq, _, _, _⟩ := t
  obtain ⟨rows', seq', _, _, _⟩ := u
  obtain rfl : rows = rows' := hr
  obtain rfl : seq = seq' := hs
  rfl

/-! ### The statements -/

def empty : AutoTable α where
  rows := []
  seq := 0
  sorted := List.Pairwise.nil
  pos := by simp
  le_seq := by simp

/-- `INSERT`: the new row gets the key `seq + 1`. -/
def insert (t : AutoTable α) (a : α) : AutoTable α where
  rows := t.rows ++ [(t.seq + 1, a)]
  seq := t.seq + 1
  sorted := by
    refine List.pairwise_append.mpr ⟨t.sorted, List.pairwise_singleton _ _, ?_⟩
    intro r hr s hs
    obtain rfl : s = (t.seq + 1, a) := by simpa using hs
    exact Nat.lt_succ_of_le (t.le_seq r hr)
  pos := by
    intro r hr
    rcases List.mem_append.mp hr with hr | hr
    · exact t.pos r hr
    · obtain rfl : r = (t.seq + 1, a) := by simpa using hr
      exact Nat.succ_pos _
  le_seq := by
    intro r hr
    rcases List.mem_append.mp hr with hr | hr
    · exact Nat.le_succ_of_le (t.le_seq r hr)
    · obtain rfl : r = (t.seq + 1, a) := by simpa using hr
      exact Nat.le_refl _

/-- The row an `UPDATE` of the rows in `p` by `f` makes of a row. -/
def modifyRow (p : ℕ × α → Bool) (f : α → α) (r : ℕ × α) : ℕ × α :=
  if p r then (r.1, f r.2) else r

@[simp] theorem modifyRow_fst (p : ℕ × α → Bool) (f : α → α) (r : ℕ × α) :
    (modifyRow p f r).1 = r.1 := by
  rw [modifyRow]
  split <;> rfl

/-- `UPDATE … WHERE p`. -/
def modify (t : AutoTable α) (p : ℕ × α → Bool) (f : α → α) : AutoTable α where
  rows := t.rows.map (modifyRow p f)
  seq := t.seq
  sorted := by
    refine List.pairwise_map.mpr (t.sorted.imp fun h => ?_)
    simpa using h
  pos := by
    intro r hr
    obtain ⟨s, hs, rfl⟩ := List.mem_map.mp hr
    simpa using t.pos s hs
  le_seq := by
    intro r hr
    obtain ⟨s, hs, rfl⟩ := List.mem_map.mp hr
    simpa using t.le_seq s hs

/-- `DELETE … WHERE p`. -/
def remove (t : AutoTable α) (p : ℕ × α → Bool) : AutoTable α where
  rows := t.rows.filter (fun r => !p r)
  seq := t.seq
  sorted := t.sorted.filter _
  pos := fun r hr => t.pos r (List.mem_filter.mp hr).1
  le_seq := fun r hr => t.le_seq r (List.mem_filter.mp hr).1

/-- How many rows a statement `… WHERE p` touches. -/
def count (t : AutoTable α) (p : ℕ × α → Bool) : ℕ := t.rows.countP p

/-- The rows a `SELECT … WHERE p ORDER BY key ASC` returns. -/
def select (t : AutoTable α) (p : ℕ × α → Bool) : List (ℕ × α) := t.rows.filter p

/-- The table as a partial map from keys to rows. -/
def lookup (t : AutoTable α) (k : ℕ) : Option α :=
  (t.rows.find? (fun r => r.1 == k)).map Prod.snd

/-! ### Membership and lookup -/

/-- A key names one row. -/
theorem eq_of_mem {t : AutoTable α} {k : ℕ} {a b : α} (ha : (k, a) ∈ t.rows)
    (hb : (k, b) ∈ t.rows) : a = b := by
  have hnodup : (t.rows.map Prod.fst).Nodup := List.pairwise_map.mpr (t.sorted.imp fun h => h.ne)
  exact congrArg Prod.snd (List.inj_on_of_nodup_map hnodup ha hb rfl)

theorem lookup_eq_some_iff {t : AutoTable α} {k : ℕ} {a : α} :
    t.lookup k = some a ↔ (k, a) ∈ t.rows := by
  constructor
  · intro h
    obtain ⟨r, hr, rfl⟩ := Option.map_eq_some_iff.mp h
    obtain rfl : r.1 = k := by simpa using List.find?_some hr
    exact List.mem_of_find?_eq_some hr
  · intro h
    have hex : ∃ r ∈ t.rows, (r.1 == k) = true := ⟨_, h, by simp⟩
    obtain ⟨r, hr⟩ := Option.isSome_iff_exists.mp (List.find?_isSome.mpr hex)
    have hk : r.1 = k := by simpa using List.find?_some hr
    have hmem : (k, r.2) ∈ t.rows := hk ▸ List.mem_of_find?_eq_some hr
    simp [lookup, hr, eq_of_mem hmem h]

theorem lookup_eq_none_iff {t : AutoTable α} {k : ℕ} :
    t.lookup k = none ↔ ∀ a, (k, a) ∉ t.rows := by
  simp only [← lookup_eq_some_iff, Option.eq_none_iff_forall_ne_some]

theorem lookup_of_seq_lt {t : AutoTable α} {k : ℕ} (h : t.seq < k) : t.lookup k = none := by
  refine lookup_eq_none_iff.mpr fun a ha => ?_
  exact absurd (t.le_seq _ ha) (by simpa using h)

/-! ### What the statements do to the map -/

@[simp] theorem seq_insert (t : AutoTable α) (a : α) : (t.insert a).seq = t.seq + 1 := rfl

@[simp] theorem seq_modify (t : AutoTable α) (p : ℕ × α → Bool) (f : α → α) :
    (t.modify p f).seq = t.seq := rfl

@[simp] theorem seq_remove (t : AutoTable α) (p : ℕ × α → Bool) : (t.remove p).seq = t.seq := rfl

theorem lookup_insert (t : AutoTable α) (a : α) :
    (t.insert a).lookup = Function.update t.lookup (t.seq + 1) (some a) := by
  funext k
  by_cases hk : k = t.seq + 1
  · subst hk
    rw [Function.update_self, lookup_eq_some_iff]
    simp [insert]
  · rw [Function.update_of_ne hk]
    ext b
    simp [lookup_eq_some_iff, insert, hk]

theorem lookup_modify (t : AutoTable α) (p : ℕ × α → Bool) (f : α → α) (k : ℕ) :
    (t.modify p f).lookup k = (t.lookup k).map (fun a => if p (k, a) then f a else a) := by
  ext b
  rw [lookup_eq_some_iff, Option.map_eq_some_iff]
  constructor
  · intro h
    obtain ⟨⟨k', a⟩, ha, he⟩ := List.mem_map.mp h
    obtain rfl : k' = k := by simpa using congrArg Prod.fst he
    refine ⟨a, lookup_eq_some_iff.mpr ha, ?_⟩
    -- an update keeps the key, whether it touches the row or not
    rw [modifyRow] at he
    split at he
    · next hp => rw [if_pos hp]; exact congrArg Prod.snd he
    · next hp => rw [if_neg hp]; exact congrArg Prod.snd he
  · rintro ⟨a, ha, rfl⟩
    refine List.mem_map.mpr ⟨(k, a), lookup_eq_some_iff.mp ha, ?_⟩
    rw [modifyRow]
    split <;> rfl

theorem lookup_remove (t : AutoTable α) (p : ℕ × α → Bool) (k : ℕ) :
    (t.remove p).lookup k = (t.lookup k).filter (fun a => !p (k, a)) := by
  ext b
  rw [lookup_eq_some_iff, Option.filter_eq_some_iff, lookup_eq_some_iff]
  exact List.mem_filter

/-! ### Statements that name one row -/

/-- Two tables with one counter and one map are the same table. -/
theorem ext_lookup {t u : AutoTable α} (hs : t.seq = u.seq) (h : t.lookup = u.lookup) :
    t = u := by
  refine ext_rows ?_ hs
  -- two sorted lists with the same members are the same list
  have hmem : ∀ r, r ∈ t.rows ↔ r ∈ u.rows := by
    rintro ⟨k, a⟩
    rw [← lookup_eq_some_iff, ← lookup_eq_some_iff, h]
  have hperm : t.rows.Perm u.rows :=
    (List.perm_ext_iff_of_nodup (t.sorted.imp fun h e => absurd (congrArg Prod.fst e) h.ne)
      (u.sorted.imp fun h e => absurd (congrArg Prod.fst e) h.ne)).mpr hmem
  exact hperm.eq_of_pairwise (fun r s _ _ h₁ h₂ => absurd h₁ (by omega)) t.sorted u.sorted

theorem count_pos_iff {t : AutoTable α} {p : ℕ × α → Bool} :
    0 < t.count p ↔ ∃ k a, t.lookup k = some a ∧ p (k, a) = true := by
  simp only [count, List.countP_pos_iff, Prod.exists, lookup_eq_some_iff]

/-- A statement that touches no row leaves the table as it was. -/
theorem modify_of_count_zero {t : AutoTable α} {p : ℕ × α → Bool} (h : ¬ 0 < t.count p)
    (f : α → α) : t.modify p f = t := by
  refine ext_rows ?_ rfl
  have hnone : ∀ r ∈ t.rows, ¬ p r = true := by
    simpa [count, List.countP_pos_iff] using h
  refine (List.map_congr_left fun r hr => ?_).trans (List.map_id _)
  simp [modifyRow, hnone r hr]

theorem remove_of_count_zero {t : AutoTable α} {p : ℕ × α → Bool} (h : ¬ 0 < t.count p) :
    t.remove p = t := by
  refine ext_rows ?_ rfl
  have hnone : ∀ r ∈ t.rows, ¬ p r = true := by
    simpa [count, List.countP_pos_iff] using h
  exact List.filter_eq_self.mpr fun r hr => by simpa using hnone r hr

end AutoTable
