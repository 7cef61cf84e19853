/-
Diary/CodeText.lean

Texts stored through a code of variable length, and a cursor in them.

`Zipper` is a list with a cursor between two elements.  `encode enc` stores
a list element after element.  The code is *self-synchronizing* (`SelfSync`)
if the first symbol of a code word is told from the others by the symbol
alone: then the places of a stored text where an element starts can be found
by looking at symbols (`SelfSync.exists_split`).

`Shows` relates a buffer of symbols and an index to a `Zipper`.  One lemma
for each operation says what it is on the buffer; `Shows.move` says that the
index may go to any place where an element starts.
-/
import Mathlib

namespace CodeText

variable {α β : Type*}

/-! ### Lists with a cursor -/

/-- A list with a cursor; `left` is what stands before it, nearest first. -/
@[ext] structure Zipper (α : Type*) where
  left : List α
  right : List α
deriving DecidableEq

namespace Zipper

def toList (z : Zipper α) : List α := z.left.reverse ++ z.right

def atEnd (as : List α) : Zipper α := ⟨as.reverse, []⟩

def insert (z : Zipper α) (a : α) : Zipper α := ⟨a :: z.left, z.right⟩

def deletePrev (z : Zipper α) : Zipper α := ⟨z.left.tail, z.right⟩

def deleteNext (z : Zipper α) : Zipper α := ⟨z.left, z.right.tail⟩

def prev : Zipper α → Zipper α
  | ⟨a :: l, r⟩ => ⟨l, a :: r⟩
  | z => z

def next : Zipper α → Zipper α
  | ⟨l, a :: r⟩ => ⟨a :: l, r⟩
  | z => z

end Zipper

/-! ### Self-synchronizing codes -/

/-- A text as it is stored. -/
def encode (enc : α → List β) (as : List α) : List β := as.flatMap enc

@[simp] theorem encode_nil (enc : α → List β) : encode enc [] = [] := rfl

@[simp] theorem encode_cons (enc : α → List β) (a : α) (as : List α) :
    encode enc (a :: as) = enc a ++ encode enc as := rfl

@[simp] theorem encode_append (enc : α → List β) (as bs : List α) :
    encode enc (as ++ bs) = encode enc as ++ encode enc bs := List.flatMap_append

/-- Only the first symbol of a code word is not a continuation. -/
def SelfSync (cont : β → Bool) (enc : α → List β) : Prop :=
  ∀ a, ∃ b bs, enc a = b :: bs ∧ cont b = false ∧ ∀ x ∈ bs, cont x = true

/-- The symbols do not go on with a continuation. -/
def Starts (cont : β → Bool) (bs : List β) : Prop := ∀ b, bs.head? = some b → cont b = false

variable {cont : β → Bool} {enc : α → List β}

theorem SelfSync.starts_encode (h : SelfSync cont enc) (as : List α) :
    Starts cont (encode enc as) := by
  intro x hx
  cases as with
  | nil => cases hx
  | cons a as =>
      obtain ⟨b, bs, hab, hb, -⟩ := h a
      rw [encode_cons, hab] at hx
      obtain rfl : b = x := by simpa using hx
      exact hb

theorem SelfSync.length_pos (h : SelfSync cont enc) (a : α) : 0 < (enc a).length := by
  obtain ⟨b, bs, hab, -⟩ := h a
  rw [hab]
  exact Nat.succ_pos _

/-- **Where a text may be cut.**  A stored text cut before a symbol that is
no continuation, or at its end, is cut between two elements. -/
theorem SelfSync.exists_split (h : SelfSync cont enc) {as : List α} {pre post : List β}
    (hcut : encode enc as = pre ++ post) (hpost : Starts cont post) :
    ∃ l r, as = l ++ r ∧ encode enc l = pre ∧ encode enc r = post := by
  induction as generalizing pre with
  | nil =>
      obtain ⟨rfl, rfl⟩ := List.append_eq_nil_iff.mp hcut.symm
      exact ⟨[], [], rfl, rfl, rfl⟩
  | cons a as ih =>
      rw [encode_cons] at hcut
      rcases List.append_eq_append_iff.mp hcut with ⟨rest, hpre, hrest⟩ | ⟨rest, hword, hpost'⟩
      · -- the cut comes after the word of `a`
        obtain ⟨l, r, rfl, hl, hr⟩ := ih hrest
        exact ⟨a :: l, r, rfl, by rw [encode_cons, hl, hpre], hr⟩
      · -- the cut is in the word of `a`: at its start or at its end
        rcases pre with - | ⟨x, pre⟩
        · exact ⟨[], a :: as, rfl, rfl, hcut⟩
        rcases rest with - | ⟨y, rest⟩
        · refine ⟨[a], as, rfl, ?_, hpost'.symm⟩
          rw [encode_cons, encode_nil, hword, List.append_nil, List.append_nil]
        · obtain ⟨b, bs, hab, -, hbs⟩ := h a
          rw [hab] at hword
          obtain ⟨-, rfl⟩ := List.cons.inj hword
          have hcont : cont y = true := hbs y (by simp)
          have hfirst : cont y = false := hpost y (by rw [hpost']; rfl)
          rw [hcont] at hfirst
          cases hfirst

/-- The first `n` symbols of a stored text are whole elements if and only if
the symbol after them is no continuation. -/
theorem SelfSync.take_encode_iff (h : SelfSync cont enc) (as : List α) (n : ℕ) :
    (∃ cs, cs <+: as ∧ (encode enc as).take n = encode enc cs) ↔
      Starts cont ((encode enc as).drop n) := by
  constructor
  · rintro ⟨cs, ⟨rest, rfl⟩, htake⟩
    rcases Nat.le_total (encode enc (cs ++ rest)).length n with hlen | hlen
    · rw [List.drop_eq_nil_of_le hlen]
      exact nofun
    · have hn : (encode enc cs).length = n := by rw [← htake, List.length_take_of_le hlen]
      rw [encode_append, ← hn, List.drop_left]
      exact h.starts_encode rest
  · intro hstarts
    obtain ⟨l, r, rfl, hl, -⟩ := h.exists_split (List.take_append_drop n _).symm hstarts
    exact ⟨l, List.prefix_append l r, hl.symm⟩

/-- A stored text up to a symbol that is one element's word and in no other. -/
theorem takeWhile_encode [DecidableEq α] [DecidableEq β] {c : α} {b : β} (hword : enc c = [b])
    (hown : ∀ a, a ≠ c → b ∉ enc a) (as : List α) :
    (encode enc as).takeWhile (· ≠ b) = encode enc (as.takeWhile (· ≠ c)) := by
  induction as with
  | nil => rfl
  | cons a as ih =>
      by_cases ha : a = c
      · rw [encode_cons, ha, hword, List.takeWhile_cons_of_neg (by simp)]
        exact List.takeWhile_cons_of_neg (by simp)
      · have hmem : ∀ x ∈ enc a, decide (x ≠ b) = true := by
          intro x hx
          exact decide_eq_true fun hxb => hown a ha (hxb ▸ hx)
        rw [encode_cons, List.takeWhile_append_of_pos hmem, ih,
          List.takeWhile_cons_of_pos (by simpa using ha), encode_cons]

/-- The rest of a word is what a scan over continuations reads. -/
theorem SelfSync.takeWhile_cont (h : SelfSync cont enc) {bs : List β}
    (hbs : ∀ x ∈ bs, cont x = true) (as : List α) :
    (bs ++ encode enc as).takeWhile cont = bs := by
  rw [List.takeWhile_append_of_pos hbs]
  have hstop : (encode enc as).takeWhile cont = [] := by
    have hstarts := h.starts_encode as
    cases hcode : encode enc as with
    | nil => rfl
    | cons b rest =>
        rw [List.takeWhile_cons_of_neg]
        simp [hstarts b (by rw [hcode]; rfl)]
  rw [hstop, List.append_nil]

/-! ### A buffer with an index -/

/-- The buffer stores the list, and the index is where the cursor is. -/
structure Shows (enc : α → List β) (buf : List β) (i : ℕ) (z : Zipper α) : Prop where
  buf_eq : buf = encode enc z.left.reverse ++ encode enc z.right
  index_eq : i = (encode enc z.left.reverse).length

theorem shows_atEnd (enc : α → List β) (as : List α) :
    Shows enc (encode enc as) (encode enc as).length (Zipper.atEnd as) where
  buf_eq := by simp [Zipper.atEnd]
  index_eq := by simp [Zipper.atEnd]

section Shows

variable {buf : List β} {i : ℕ} {z : Zipper α} {a : α} {l r : List α}

theorem Shows.take_eq (h : Shows enc buf i z) : buf.take i = encode enc z.left.reverse := by
  rw [h.buf_eq, h.index_eq, List.take_left]

theorem Shows.drop_eq (h : Shows enc buf i z) : buf.drop i = encode enc z.right := by
  rw [h.buf_eq, h.index_eq, List.drop_left]

theorem Shows.index_cons (h : Shows enc buf i ⟨a :: l, r⟩) :
    i = (encode enc l.reverse).length + (enc a).length := by
  rw [h.index_eq]
  simp

theorem Shows.index_pos (hsync : SelfSync cont enc) (h : Shows enc buf i ⟨a :: l, r⟩) : 0 < i := by
  rw [h.index_cons]
  exact Nat.add_pos_right _ (hsync.length_pos a)

theorem Shows.index_lt (hsync : SelfSync cont enc) (h : Shows enc buf i ⟨l, a :: r⟩) :
    i < buf.length := by
  have hpos := hsync.length_pos a
  rw [h.buf_eq, h.index_eq]
  simp only [encode_cons, List.length_append]
  omega

theorem Shows.insert (h : Shows enc buf i z) (a : α) :
    Shows enc (buf.take i ++ enc a ++ buf.drop i) (i + (enc a).length) (z.insert a) where
  buf_eq := by
    rw [h.take_eq, h.drop_eq]
    simp [Zipper.insert]
  index_eq := by
    rw [h.index_eq]
    simp [Zipper.insert]

theorem Shows.prev (h : Shows enc buf i ⟨a :: l, r⟩) :
    Shows enc buf (i - (enc a).length) ⟨l, a :: r⟩ where
  buf_eq := by
    rw [h.buf_eq]
    simp
  index_eq := by
    rw [h.index_cons, Nat.add_sub_cancel]

theorem Shows.next (h : Shows enc buf i ⟨l, a :: r⟩) :
    Shows enc buf (i + (enc a).length) ⟨a :: l, r⟩ where
  buf_eq := by
    rw [h.buf_eq]
    simp
  index_eq := by
    rw [h.index_eq]
    simp

theorem Shows.deletePrev (h : Shows enc buf i ⟨a :: l, r⟩) :
    Shows enc (buf.take (i - (enc a).length) ++ buf.drop i) (i - (enc a).length) ⟨l, r⟩ where
  buf_eq := by rw [h.prev.take_eq, h.drop_eq]
  index_eq := h.prev.index_eq

theorem Shows.deleteNext (h : Shows enc buf i ⟨l, a :: r⟩) :
    Shows enc (buf.take i ++ buf.drop (i + (enc a).length)) i ⟨l, r⟩ where
  buf_eq := by rw [h.take_eq, h.next.drop_eq]
  index_eq := h.index_eq

/-- The index may go to any place where an element starts. -/
theorem Shows.move (hsync : SelfSync cont enc) (h : Shows enc buf i z) {j : ℕ}
    (hj : j ≤ buf.length) (hstart : Starts cont (buf.drop j)) :
    ∃ z', z'.toList = z.toList ∧ Shows enc buf j z' := by
  have hcut : encode enc z.toList = buf.take j ++ buf.drop j := by
    rw [List.take_append_drop, h.buf_eq, Zipper.toList, encode_append]
  obtain ⟨l, r, hlist, hl, hr⟩ := hsync.exists_split hcut hstart
  refine ⟨⟨l.reverse, r⟩, ?_, ?_, ?_⟩
  · rw [hlist, Zipper.toList, List.reverse_reverse]
  · rw [List.reverse_reverse, hl, hr, List.take_append_drop]
  · rw [List.reverse_reverse, hl, List.length_take, Nat.min_eq_left hj]

end Shows

end CodeText
