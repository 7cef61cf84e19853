/-
Diary/CanonicalOrder.lean

The order of the C client's list.  `entry_cmp_newest_first` compares
timestamps and subtracts ids, which an `int` cannot hold for all ids; for
positive ones it can, and there the comparison is the order `qsort` asks for
(`comparison_newestFirst`).

Rows with distinct ids have one sorted arrangement, so what
`net_get_entries` returns does not depend on the order the rows arrive in,
nor on which sorting `qsort` is (`list_is_canonical`).
-/
import Diary.ClientOrder

namespace Diary

open CString

/-! ### What `qsort` asks of a comparison -/

section Comparison

variable {α : Type*}

/-- On the elements in `D` the comparison gives opposite answers to opposite
questions, and is transitive. -/
structure Comparison (cmp : α → α → Int32) (D : α → Prop) : Prop where
  antisymm : ∀ a b, D a → D b → ((cmp a b).toInt < 0 ↔ 0 < (cmp b a).toInt)
  trans : ∀ a b c, D a → D b → D c → (cmp a b).toInt ≤ 0 → (cmp b c).toInt ≤ 0 →
    (cmp a c).toInt ≤ 0

/-- An array as `qsort` leaves it. -/
def SortedBy (cmp : α → α → Int32) (arr : List α) : Prop :=
  arr.Pairwise fun a b => (cmp a b).toInt ≤ 0

end Comparison

/-! ### The comparison of the client -/

theorem comparison_newestFirst :
    Comparison entryCmpNewestFirst fun e => 0 < e.id.toInt where
  antisymm a b ha hb := by
    rw [toInt_entryCmp ha hb, toInt_entryCmp hb ha]
    omega
  trans a b c ha hb hc hab hbc := by
    rw [toInt_entryCmp ha hb] at hab
    rw [toInt_entryCmp hb hc] at hbc
    rw [toInt_entryCmp ha hc]
    omega

/-! ### The canonical order -/

/-- Strictly newest first, and the higher id first among equals. -/
def NewestBefore (a b : DiaryEntry) : Prop :=
  b.timestamp.toInt < a.timestamp.toInt ∨
    a.timestamp.toInt = b.timestamp.toInt ∧ b.id.toInt < a.id.toInt

/-- Of entries with different ids one comes strictly first. -/
theorem newestBefore_of_le {a b : DiaryEntry} (ha : 0 < a.id.toInt) (hb : 0 < b.id.toInt)
    (hne : a.id ≠ b.id) (hle : (entryCmpNewestFirst a b).toInt ≤ 0) : NewestBefore a b := by
  have hid : a.id.toInt ≠ b.id.toInt := mt Int32.toInt_inj.mp hne
  rw [toInt_entryCmp ha hb] at hle
  rw [NewestBefore]
  omega

/-- The client's array is sorted by its comparison. -/
theorem sortedBy_sortNewestFirst {es : List DiaryEntry} (h : ∀ e ∈ es, 0 < e.id.toInt) :
    SortedBy entryCmpNewestFirst (sortNewestFirst es) := by
  have hperm : (sortNewestFirst es).Perm es := List.mergeSort_perm es _
  -- the pairs are sorted by an order that is total on all pairs
  have hpairs := List.pairwise_mergeSort newestFirst_trans newestFirst_total
    (es.map DiaryEntry.pair)
  rw [← map_pair_sortNewestFirst h, List.pairwise_map] at hpairs
  refine hpairs.imp_of_mem fun {a b} ha hb hab => ?_
  rw [← entryCmp_le_eq (h a (hperm.mem_iff.mp ha)) (h b (hperm.mem_iff.mp hb))] at hab
  exact of_decide_eq_true hab

/-- **One arrangement.**  Entries with distinct positive ids have one
arrangement that is sorted. -/
theorem eq_of_sortedBy {es arr arr' : List DiaryEntry} (h : ∀ e ∈ es, 0 < e.id.toInt)
    (hids : (es.map DiaryEntry.id).Nodup) (harr : arr.Perm es) (harr' : arr'.Perm es)
    (hs : SortedBy entryCmpNewestFirst arr) (hs' : SortedBy entryCmpNewestFirst arr') :
    arr = arr' := by
  refine (harr.trans harr'.symm).eq_of_pairwise ?_ hs hs'
  intro a b ha hb hab hba
  have hae := harr.mem_iff.mp ha
  have hbe := harr'.mem_iff.mp hb
  by_contra hne
  have hid : a.id ≠ b.id := fun heq => hne (List.inj_on_of_nodup_map hids hae hbe heq)
  have hlt := newestBefore_of_le (h a hae) (h b hbe) hid hab
  have hgt := newestBefore_of_le (h b hbe) (h a hae) hid.symm hba
  rw [NewestBefore] at hlt hgt
  omega

theorem map_id_shown {ν : Type*} (P : Proto ν) (rows : List EntryLine) :
    (rows.map (EntryLine.shown P)).map DiaryEntry.id = rows.map EntryLine.id := by
  rw [List.map_map]
  rfl

/-- **The client's list is in the canonical order.**  Of every set of
well-formed rows with distinct ids `net_get_entries` returns one array, in
whatever order they arrive: the rows, each with its own text and timestamp,
strictly newest first.  The comparison is one that `qsort` can be given, its
subtraction does not overflow, and no other arrangement of the rows is sorted
by it. -/
theorem list_is_canonical {ν : Type*} {P : Proto ν} (hP : P.Lawful) (rows : List EntryLine)
    (hrows : ∀ l ∈ rows, l.WellFormed) (hids : (rows.map EntryLine.id).Nodup) :
    ∃ arr : List DiaryEntry,
      (∀ arrival : List EntryLine, arrival.Perm rows →
        receiveEntries P true (getReply arrival) = ([], some arr)) ∧
      arr.Perm (rows.map (EntryLine.shown P)) ∧
      arr.Pairwise NewestBefore ∧
      (∀ arr' : List DiaryEntry, arr'.Perm (rows.map (EntryLine.shown P)) →
        SortedBy entryCmpNewestFirst arr' → arr' = arr) ∧
      Comparison entryCmpNewestFirst (fun e => 0 < e.id.toInt) ∧
      ∀ a b : DiaryEntry, 0 < a.id.toInt → 0 < b.id.toInt →
        (b.id - a.id).toInt = b.id.toInt - a.id.toInt := by
  have hpos : ∀ e ∈ rows.map (EntryLine.shown P), 0 < e.id.toInt := by
    intro e he
    obtain ⟨l, hl, rfl⟩ := List.mem_map.mp he
    exact (hrows l hl).1
  have hids' : ((rows.map (EntryLine.shown P)).map DiaryEntry.id).Nodup := by
    rwa [map_id_shown]
  have hsorted := sortedBy_sortNewestFirst hpos
  have hperm : (sortNewestFirst (rows.map (EntryLine.shown P))).Perm _ := List.mergeSort_perm _ _
  refine ⟨sortNewestFirst (rows.map (EntryLine.shown P)), ?_, hperm, ?_, ?_,
    comparison_newestFirst, fun a b ha hb => toInt_id_sub ha hb⟩
  · -- the rows in another order are sorted into the same array
    intro arrival harrival
    have hrows' : ∀ l ∈ arrival, l.WellFormed := fun l hl => hrows l (harrival.mem_iff.mp hl)
    have hnodup : (arrival.map EntryLine.id).Nodup := (harrival.map _).nodup_iff.mpr hids
    have hlen := length_lt_of_nodup (fun l hl => (hrows' l hl).1) hnodup
    have hpos' : ∀ e ∈ arrival.map (EntryLine.shown P), 0 < e.id.toInt :=
      fun e he => hpos e ((harrival.map _).mem_iff.mp he)
    rw [receiveEntries_rows hP hlen hrows']
    refine congrArg (fun arr => ([], some arr)) ?_
    apply eq_of_sortedBy hpos hids' ((List.mergeSort_perm _ _).trans (harrival.map _)) hperm
    · exact sortedBy_sortNewestFirst hpos'
    · exact hsorted
  · -- of two rows with different ids, one comes strictly before the other
    have hdistinct := (hperm.map DiaryEntry.id).nodup_iff.mpr hids'
    refine List.Pairwise.imp_of_mem ?_ (hsorted.and (List.pairwise_map.mp hdistinct))
    intro a b ha hb ⟨hle, hne⟩
    exact newestBefore_of_le (hpos a (hperm.mem_iff.mp ha)) (hpos b (hperm.mem_iff.mp hb)) hne hle
  · intro arr' harr' hs'
    exact eq_of_sortedBy hpos hids' harr' hperm hs' hsorted

/-- Two rows of one timestamp, in either order. -/
theorem list_is_canonical_two_rows :
    ∃ arr : List DiaryEntry,
      receiveEntries taggingProto true (getReply (twoRows 5 5)) = ([], some arr) ∧
      receiveEntries taggingProto true (getReply (twoRows 5 5).reverse) = ([], some arr) ∧
      arr.Pairwise NewestBefore := by
  obtain ⟨arr, harr, -, hsorted, -⟩ := list_is_canonical taggingProto_lawful (twoRows 5 5)
    (twoRows_wellFormed 5 5) (by decide)
  exact ⟨arr, harr _ (List.Perm.refl _), harr _ (List.reverse_perm _), hsorted⟩

end Diary
