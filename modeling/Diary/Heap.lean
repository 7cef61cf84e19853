/-
Diary/Heap.lean

A heap whose blocks are allocated and freed, and the rules of ownership for
programs over it.

Freeing, reading or writing a block that is not allocated is undefined
(`none`); freeing NULL does nothing.  `Owns h F bs` says that the heap holds
the blocks of `F`, which somebody else owns, and beside them exactly the
blocks `bs`, each of them once.  A pointer of `bs` may be NULL, and then
stands for no block; so the rules need not ask whether an allocation failed.

A program that owns what it frees is defined (`Owns.free`), and one that
ends with nothing owned has freed what it allocated (`Owns.cell_eq`).
-/
import Mathlib.Data.List.Perm.Basic
import Mathlib.Logic.Function.Basic

namespace Diary

/-- A pointer; `none` is NULL. -/
abbrev Ptr := Option ℕ

/-- The blocks allocated, by address; the addresses from `next` on were never
used. -/
structure Heap (β : Type*) where
  cell : ℕ → Option β
  next : ℕ
  fresh : ∀ p, next ≤ p → cell p = none

namespace Heap

variable {β : Type*}

/-! ### The operations -/

/-- Allocation of a block with its contents; NULL if it fails. -/
def malloc (ok : Bool) (b : β) (h : Heap β) : Heap β × Ptr :=
  if ok then
    ({ cell := Function.update h.cell h.next (some b)
       next := h.next + 1
       fresh := fun p hp => by
         rw [Function.update_of_ne (by omega)]
         exact h.fresh p (by omega) }, some h.next)
  else (h, none)

def get (p : Ptr) (h : Heap β) : Option β := p.bind h.cell

/-- The contents of an allocated block change. -/
def store (p : Ptr) (b : β) (h : Heap β) : Option (Heap β) :=
  match p with
  | none => none
  | some p =>
      if hp : (h.cell p).isSome then
        some
          { cell := Function.update h.cell p (some b)
            next := h.next
            fresh := fun q hq => by
              rw [Function.update_of_ne]
              · exact h.fresh q hq
              · rintro rfl
                rw [h.fresh q hq] at hp
                cases hp }
      else none

def free (p : Ptr) (h : Heap β) : Option (Heap β) :=
  match p with
  | none => some h
  | some p =>
      if (h.cell p).isSome then
        some
          { cell := Function.update h.cell p none
            next := h.next
            fresh := fun q hq => by
              by_cases hpq : q = p
              · rw [hpq, Function.update_self]
              · rw [Function.update_of_ne hpq]
                exact h.fresh q hq }
      else none

def freeAll : List Ptr → Heap β → Option (Heap β)
  | [], h => some h
  | p :: ps, h => (h.free p).bind (freeAll ps)

/-! ### Ownership -/

/-- Beside the blocks of `F` the heap holds the blocks `bs`. -/
structure Owns (h : Heap β) (F : ℕ → Option β) (bs : List (Ptr × β)) : Prop where
  nodup : (bs.filterMap Prod.fst).Nodup
  apart : ∀ p b, (some p, b) ∈ bs → F p = none
  cell_iff : ∀ p b, h.cell p = some b ↔ F p = some b ∨ (some p, b) ∈ bs

variable {h : Heap β} {F : ℕ → Option β} {bs cs : List (Ptr × β)} {p : ℕ} {b : β}

theorem owns_self (h : Heap β) : Owns h h.cell [] where
  nodup := List.nodup_nil
  apart _ _ hmem := by cases hmem
  cell_iff p b := by simp

/-- **Nothing leaks** of what is owned no more. -/
theorem Owns.cell_eq (H : Owns h F []) : h.cell = F := by
  funext p
  ext b
  rw [H.cell_iff p b]
  simp

theorem Owns.perm (H : Owns h F bs) (hperm : bs.Perm cs) : Owns h F cs where
  nodup := (hperm.filterMap _).nodup_iff.mp H.nodup
  apart p b hmem := H.apart p b (hperm.mem_iff.mpr hmem)
  cell_iff p b := by rw [H.cell_iff, hperm.mem_iff]

/-- **Frame rule.**  Only the blocks count. -/
theorem Owns.congr {h' : Heap β} (H : Owns h F bs) (hcell : h'.cell = h.cell) : Owns h' F bs where
  nodup := H.nodup
  apart := H.apart
  cell_iff p b := by rw [hcell, H.cell_iff]

/-- NULL stands for no block. -/
theorem owns_null_iff : Owns h F ((none, b) :: bs) ↔ Owns h F bs := by
  have hmem : ∀ p c, (some p, c) ∈ ((none : Ptr), b) :: bs ↔ (some p, c) ∈ bs := by simp
  constructor
  · intro H
    exact ⟨H.nodup, fun p c hc => H.apart p c ((hmem p c).mpr hc), fun p c => by
      rw [H.cell_iff, hmem]⟩
  · intro H
    exact ⟨H.nodup, fun p c hc => H.apart p c ((hmem p c).mp hc), fun p c => by
      rw [H.cell_iff, hmem]⟩

theorem owns_replicate_null (n : ℕ) :
    Owns h F (List.replicate n (none, b) ++ bs) ↔ Owns h F bs := by
  induction n with
  | zero => exact Iff.rfl
  | succ n ih => exact owns_null_iff.trans ih

theorem Owns.get (H : Owns h F bs) (hmem : (some p, b) ∈ bs) :
    h.get (some p) = some b :=
  (H.cell_iff p b).mpr (Or.inr hmem)

theorem filterMap_fst_cons (p : ℕ) (b : β) (bs : List (Ptr × β)) :
    ((some p, b) :: bs).filterMap Prod.fst = p :: bs.filterMap Prod.fst := rfl

/-- The pointers owned are different. -/
theorem Owns.ne (H : Owns h F ((some p, b) :: bs)) {q : ℕ} {c : β} (hmem : (some q, c) ∈ bs) :
    q ≠ p := by
  rintro rfl
  have hnodup := H.nodup
  rw [filterMap_fst_cons] at hnodup
  exact (List.nodup_cons.mp hnodup).1 (List.mem_filterMap.mpr ⟨(some q, c), hmem, rfl⟩)

theorem owns_malloc (H : Owns h F bs) (ok : Bool) (b : β) :
    Owns (h.malloc ok b).1 F (((h.malloc ok b).2, b) :: bs) := by
  cases ok with
  | false => exact owns_null_iff.mpr H
  | true =>
      have hnone : h.cell h.next = none := h.fresh _ (Nat.le_refl _)
      -- the new address is taken neither by the frame nor by a block owned
      have hF : F h.next = none := by
        rcases hcell : F h.next with - | c
        · rfl
        · rw [(H.cell_iff _ c).mpr (Or.inl hcell)] at hnone
          cases hnone
      have hnew : ∀ c, (some h.next, c) ∉ bs := by
        intro c hc
        rw [(H.cell_iff _ c).mpr (Or.inr hc)] at hnone
        cases hnone
      refine ⟨?_, fun p c hc => ?_, fun p c => ?_⟩
      · show (h.next :: bs.filterMap Prod.fst).Nodup
        refine List.nodup_cons.mpr ⟨fun hmem => ?_, H.nodup⟩
        obtain ⟨⟨q, c⟩, hc, rfl⟩ := List.mem_filterMap.mp hmem
        exact hnew c hc
      · -- the frame does not have the new block
        rcases List.mem_cons.mp hc with heq | hc
        · obtain rfl : p = h.next := Option.some.inj (congrArg Prod.fst heq)
          exact hF
        · exact H.apart p c hc
      · -- a cell is the new block, or as before
        show Function.update h.cell h.next (some b) p = some c ↔ _
        by_cases hp : p = h.next
        · subst hp
          rw [Function.update_self, hF]
          constructor
          · intro hbc
            rw [Option.some.inj hbc]
            exact Or.inr List.mem_cons_self
          · rintro (hc | hc)
            · cases hc
            · rcases List.mem_cons.mp hc with heq | hc
              · rw [show c = b from congrArg Prod.snd heq]
              · exact absurd hc (hnew c)
        · rw [Function.update_of_ne hp, H.cell_iff]
          refine or_congr_right ⟨List.mem_cons_of_mem _, fun hc => ?_⟩
          rcases List.mem_cons.mp hc with heq | hc
          · exact absurd (Option.some.inj (congrArg Prod.fst heq)) hp
          · exact hc

theorem Owns.store (H : Owns h F ((some p, b) :: bs)) (c : β) :
    ∃ h', h.store (some p) c = some h' ∧ Owns h' F ((some p, c) :: bs) := by
  -- the block is owned, so the address is live
  have hcell : (h.cell p).isSome = true := by
    rw [(H.cell_iff p b).mpr (Or.inr List.mem_cons_self)]
    rfl
  refine ⟨_, dif_pos hcell, ?_, fun q d hd => ?_, fun q d => ?_⟩
  · have hnodup := H.nodup
    rw [filterMap_fst_cons] at hnodup ⊢
    exact hnodup
  · rcases List.mem_cons.mp hd with heq | hd
    · obtain rfl : q = p := Option.some.inj (congrArg Prod.fst heq)
      exact H.apart q b List.mem_cons_self
    · exact H.apart q d (List.mem_cons_of_mem _ hd)
  · -- the cell has the new content, the others are as before
    show Function.update h.cell p (some c) q = some d ↔ _
    by_cases hq : q = p
    · subst hq
      rw [Function.update_self, H.apart q b List.mem_cons_self]
      constructor
      · intro hcd
        rw [Option.some.inj hcd]
        exact Or.inr List.mem_cons_self
      · rintro (hd | hd)
        · cases hd
        · rcases List.mem_cons.mp hd with heq | hd
          · rw [show d = c from congrArg Prod.snd heq]
          · exact absurd rfl (H.ne hd)
    · rw [Function.update_of_ne hq, H.cell_iff]
      refine or_congr_right ?_
      simp [hq]

theorem Owns.free {p : Ptr} (H : Owns h F ((p, b) :: bs)) :
    ∃ h', h.free p = some h' ∧ Owns h' F bs := by
  rcases p with - | p
  · exact ⟨h, rfl, owns_null_iff.mp H⟩
  have hcell : (h.cell p).isSome = true := by
    rw [(H.cell_iff p b).mpr (Or.inr List.mem_cons_self)]
    rfl
  refine ⟨_, if_pos hcell, ?_, fun q d hd => H.apart q d (List.mem_cons_of_mem _ hd),
    fun q d => ?_⟩
  · have hnodup := H.nodup
    rw [filterMap_fst_cons] at hnodup
    exact (List.nodup_cons.mp hnodup).2
  · show Function.update h.cell p none q = some d ↔ _
    by_cases hq : q = p
    · subst hq
      rw [Function.update_self, H.apart q b List.mem_cons_self]
      refine iff_of_false nofun ?_
      rintro (hd | hd)
      · cases hd
      · exact H.ne hd rfl
    · rw [Function.update_of_ne hq, H.cell_iff]
      refine or_congr_right ?_
      simp [hq]

theorem Owns.freeAll (H : Owns h F (bs ++ cs)) :
    ∃ h', freeAll (bs.map Prod.fst) h = some h' ∧ Owns h' F cs := by
  induction bs generalizing h with
  | nil => exact ⟨h, rfl, H⟩
  | cons b bs ih =>
      obtain ⟨h₁, hfree, H₁⟩ := Owns.free H
      obtain ⟨h₂, hrest, H₂⟩ := ih H₁
      exact ⟨h₂, by rw [List.map_cons, Heap.freeAll, hfree]; exact hrest, H₂⟩

end Heap

end Diary
