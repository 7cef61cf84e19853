/-
Diary/ListHeap.lean

The blocks of client/net.c, `net_get_entries`, and client/ui.c, `screen_list`:
the array of the entries, their texts and the lines they were read from.

The loop is the one of `ListScreen`, with the pointer `entries` beside it; a
freed block that is read, freed or written again is undefined (`none`), and
so is an access outside the array.  Every reply of the server is allowed, and
every allocation may fail.

`list_screen_blocks_iff`: accesses outside the array, by the key that reads
`entries[selected]`, are the only undefined behaviour of the loop, and when
it ends every block it allocated is freed.
-/
import Diary.Heap
import Diary.Tui

namespace Diary

open CString Machine

variable {ν : Type*} (P : Proto ν)

/-! ### The program on the heap -/

/-- `diary_entry_t`, as it lies in the array. -/
structure EntryBox where
  id : Int32
  timestamp : Int64
  text : Ptr
deriving DecidableEq

/-- What `calloc` fills the array with. -/
def emptyBox : EntryBox := ⟨0, 0, none⟩

/-- What a block holds: a string, or the array of the entries. -/
inductive Cell
  | chars (s : Bytes)
  | entries (es : List EntryBox)

/-- The entries at a pointer. -/
def entriesAt (p : Ptr) (h : Heap Cell) : Option (List EntryBox) :=
  match h.get p with
  | some (.entries es) => some es
  | some (.chars _) | none => none

/-- The three calls of `strtok_r`. -/
def rowTokens (line : Bytes) : Option (Bytes × Bytes × Bytes) := do
  let (sid, sv) ← strtok 32 line
  let (sts, sv) ← strtok 32 sv
  let (sdat, _) ← strtok 32 sv
  some (sid, sts, sdat)

/-- The block of a text: what `proto_unseal_new` returns, or the `strdup` of
`[could not decrypt]`, which may fail. -/
def textBlock (dup : Bool) (sdat : Bytes) (h : Heap Cell) : Heap Cell × Ptr :=
  match P.unsealNew sdat with
  | some plain => h.malloc true (.chars (cstr plain))
  | none => h.malloc dup (.chars couldNotDecrypt)

/-- A reply, and which allocations of the client succeed: the array, and the
copies of `[could not decrypt]` one after another. -/
structure GetReply where
  lines : List Bytes
  calloc : Bool
  dups : List Bool

/-- The loop of `net_get_entries` from row `i` on, with the rows to come; the
result is whether it got to its end, or to `fail`. -/
def boxRows (arr : Ptr) : ℕ → ℕ → List Bool → List Bytes → Heap Cell → Option (Bool × Heap Cell)
  | 0, _, _, _, h => some (true, h)
  | n + 1, i, dups, unread, h =>
      match P.recvLineDyn unread with
      | (none, _) => some (false, h)
      | (some line, unread) =>
          let l := h.malloc true (.chars line)
          match rowTokens line with
          | none => (l.1.free l.2).map fun h => (false, h)
          | some t => do
              let es ← entriesAt arr l.1
              let text := textBlock P (dups.headD true) t.2.2 l.1
              let h ← text.1.store arr (.entries (es.set i ⟨atoi t.1, atol t.2.1, text.2⟩))
              let h ← h.free l.2
              boxRows arr n (i + 1) dups.tail unread h

/-- `qsort` of the array. -/
def sortBoxes (es : List EntryBox) : List EntryBox :=
  es.mergeSort fun a b =>
    (entryCmpNewestFirst ⟨a.id, a.timestamp, []⟩ ⟨b.id, b.timestamp, []⟩).toInt ≤ 0

/-- `net_get_entries`, once GET is sent: `*entries` and `*count`, or -1. -/
def boxEntries (r : GetReply) (h : Heap Cell) : Option (Option (Ptr × ℕ) × Heap Cell) :=
  match P.recvLine 64 r.lines with
  | (none, _) => some (none, h)
  | (some hdr, unread) =>
      if (lit "ENTRIES ").isPrefixOf hdr then
        let n := atoi (hdr.drop 8)
        if n.toInt ≤ 0 then some (some (none, 0), h)
        else
          let arr := h.malloc r.calloc (.entries (List.replicate n.toNatClampNeg emptyBox))
          if arr.2 = none then some (none, h)
          else do
            let rows ← boxRows P arr.2 n.toNatClampNeg 0 r.dups unread arr.1
            let es ← entriesAt arr.2 rows.2
            if rows.1 then
              (rows.2.store arr.2 (.entries (sortBoxes es))).map fun h =>
                (some (arr.2, n.toNatClampNeg), h)
            else do
              let h ← rows.2.freeAll (es.map EntryBox.text)
              (h.free arr.2).map fun h => (none, h)
      else some (none, h)

/-- The loop of `free` over the texts, and the one of the array. -/
def freeEntries (arr : Ptr) (count : ℕ) (h : Heap Cell) : Option (Heap Cell) :=
  if count = 0 then h.free arr
  else do
    let es ← entriesAt arr h
    if es.length < count then none
    else do
      let h ← h.freeAll ((es.take count).map EntryBox.text)
      h.free arr

/-- `reload_entries`: the new `*entries` and `*count`. -/
def reloadBoxes (r : GetReply) (arr : Ptr) (count : ℕ) (h : Heap Cell) :
    Option ((Ptr × ℕ) × Heap Cell) := do
  let h ← freeEntries arr count h
  let got ← boxEntries P r h
  some (got.1.getD (none, 0), got.2)

/-- `entries[idx]`. -/
def boxAt (arr : Ptr) (idx : ℤ) (h : Heap Cell) : Option EntryBox :=
  if idx < 0 then none else (entriesAt arr h).bind fun es => es[idx.toNat]?

/-- `entries[idx].text`: the string, if it is not NULL. -/
def textAt (arr : Ptr) (idx : ℤ) (h : Heap Cell) : Option (Option Bytes) := do
  let e ← boxAt arr idx h
  match e.text with
  | none => some none
  | some p =>
      match h.get (some p) with
      | some (.chars s) => some (some s)
      | some (.entries _) | none => none

/-- The variables of `screen_list`, with the heap: `list` without the pointer
and the count, `list.entries` what they stand for. -/
structure HeapList where
  list : ListScreen
  arr : Ptr
  count : ℕ
  heap : Heap Cell

/-- What an iteration reads; `inp.fetched` is not used, but what the reply
to its reload makes. -/
structure HeapInput where
  inp : ListInput
  reply : GetReply

def HeapInput.input (i : HeapInput) : ListInput :=
  { i.inp with fetched := (receiveEntries P i.reply.calloc i.reply.lines).2 }

/-- What a branch reads of `entries[selected]` is there. -/
def HeapList.reads (s : HeapList) : ListAct → Bool
  | .none | .new | .quit => true
  | .view _ | .edit _ => (textAt s.arr s.list.selected s.heap).isSome
  | .delete _ => (boxAt s.arr s.list.selected s.heap).isSome

/-- One iteration: the rows drawn are read, then what the branch of the key
reads, and the branch may reload. -/
def HeapList.step (s : HeapList) (i : HeapInput) : Option HeapList :=
  let inp := i.input P
  if s.list.running = false then some s
  else if (s.list.drawn inp.rows).any fun idx => (textAt s.arr idx s.heap).isNone then none
  else if s.reads (listStep s.list inp).2 = false then none
  else if Reloads s.list inp then
    (reloadBoxes P i.reply s.arr s.count s.heap).map fun r =>
      ⟨(listStep s.list inp).1, r.1.1, r.1.2, r.2⟩
  else some { s with list := (listStep s.list inp).1 }

/-- `screen_list` before its loop. -/
def HeapList.opened (r : GetReply) (h : Heap Cell) : Option HeapList :=
  (reloadBoxes P r none 0 h).map fun got =>
    ⟨ListScreen.opened (receiveEntries P r.calloc r.lines).2, got.1.1, got.1.2, got.2⟩

/-- `screen_list` behind its loop. -/
def HeapList.leave (s : HeapList) : Option (Heap Cell) := freeEntries s.arr s.count s.heap

/-! ### The blocks of a list -/

variable {P} {h : Heap Cell} {F : ℕ → Option Cell} {bs : List (Ptr × Cell)}

/-- An entry of the array and what it stands for; a text that could not be
copied is missing. -/
structure BoxOf (p : EntryBox × DiaryEntry) : Prop where
  id : p.1.id = p.2.id
  timestamp : p.1.timestamp = p.2.timestamp
  text : p.1.text = none → p.2.text = couldNotDecrypt

/-- The blocks of the texts. -/
def textBlocks (ps : List (EntryBox × DiaryEntry)) : List (Ptr × Cell) :=
  ps.map fun p => (p.1.text, .chars p.2.text)

/-- The array of some entries, in a block with `n` more. -/
def arrayBlock (arr : Ptr) (ps : List (EntryBox × DiaryEntry)) (n : ℕ) : Ptr × Cell :=
  (arr, .entries (ps.map Prod.fst ++ List.replicate n emptyBox))

theorem entriesAt_of_owns {a : ℕ} {es : List EntryBox} (H : h.Owns F bs)
    (hmem : (some a, Cell.entries es) ∈ bs) : entriesAt (some a) h = some es := by
  rw [entriesAt, H.get hmem]

theorem parseRow_eq (line : Bytes) :
    parseRow P line
      = (rowTokens line).map fun t => ⟨atoi t.1, atol t.2.1, shownText P t.2.2⟩ := by
  rw [parseRow, rowTokens]
  rcases strtok 32 line with - | ⟨sid, sv⟩
  · rfl
  rcases hts : strtok 32 sv with - | ⟨sts, sv'⟩
  · simp [hts]
  rcases hdat : strtok 32 sv' with - | ⟨sdat, sv''⟩
  · simp [hts, hdat]
  · simp [hts, hdat]

theorem owns_textBlock (H : h.Owns F bs) (dup : Bool) (sdat : Bytes) :
    (textBlock P dup sdat h).1.Owns F
        (((textBlock P dup sdat h).2, .chars (shownText P sdat)) :: bs) ∧
      ((textBlock P dup sdat h).2 = none → shownText P sdat = couldNotDecrypt) := by
  rw [textBlock, shownText]
  cases P.unsealNew sdat with
  | some plain =>
      exact ⟨Heap.owns_malloc H true _, fun hnull => absurd hnull (Option.some_ne_none _)⟩
  | none => exact ⟨Heap.owns_malloc H dup _, fun _ => rfl⟩

theorem perm_third {α : Type*} (x y z : α) (l : List α) :
    (x :: y :: z :: l).Perm (z :: y :: x :: l) :=
  ((List.Perm.swap y x (z :: l)).trans ((List.Perm.swap z x l).cons y)).trans
    (List.Perm.swap z y (x :: l))

/-- A row is stored in the array, and its line freed. -/
theorem boxRow_spec {a n : ℕ} {ps : List (EntryBox × DiaryEntry)} (hps : ∀ p ∈ ps, BoxOf p)
    {l : Ptr} {c : Cell}
    (H : h.Owns F ((l, c) :: arrayBlock (some a) ps (n + 1) :: textBlocks ps))
    (t : Bytes × Bytes × Bytes) (dup : Bool) :
    let text := textBlock P dup t.2.2 h
    let p : EntryBox × DiaryEntry :=
      (⟨atoi t.1, atol t.2.1, text.2⟩, ⟨atoi t.1, atol t.2.1, shownText P t.2.2⟩)
    (∀ q ∈ ps ++ [p], BoxOf q) ∧
      ∃ h₁ h₂,
        text.1.store (some a) (.entries
          ((ps.map Prod.fst ++ List.replicate (n + 1) emptyBox).set ps.length p.1)) = some h₁ ∧
        h₁.free l = some h₂ ∧
        h₂.Owns F (arrayBlock (some a) (ps ++ [p]) n :: textBlocks (ps ++ [p])) := by
  intro text p
  obtain ⟨Htext, hnull⟩ := owns_textBlock (P := P) H dup t.2.2
  refine ⟨fun q hq => ?_, ?_⟩
  · rcases List.mem_append.mp hq with hq | hq
    · exact hps q hq
    · rw [List.mem_singleton.mp hq]
      exact ⟨rfl, rfl, hnull⟩
  -- the row is written into the array, then its line is freed
  obtain ⟨h₁, hstore, H₁⟩ := (Htext.perm (perm_third _ _ _ _)).store
    (.entries ((ps.map Prod.fst ++ List.replicate (n + 1) emptyBox).set ps.length p.1))
  obtain ⟨h₂, hfree, H₂⟩ := (H₁.perm (List.Perm.swap _ _ _)).free
  refine ⟨h₁, h₂, hstore, hfree, ?_⟩
  -- the row takes the place of the first empty one
  have hset : (ps.map Prod.fst ++ List.replicate (n + 1) emptyBox).set ps.length p.1
      = (ps ++ [p]).map Prod.fst ++ List.replicate n emptyBox := by
    rw [← List.length_map (f := Prod.fst), List.set_append_right _ _ (le_refl _), Nat.sub_self,
      List.replicate_succ, List.set_cons_zero, List.map_append, List.append_assoc]
    rfl
  rw [hset] at H₂
  refine H₂.perm (List.Perm.cons _ ?_)
  rw [textBlocks, textBlocks, List.map_append]
  exact (List.perm_append_singleton _ _).symm

/-- **The loop of `net_get_entries`**: it frees every line, and the blocks it
leaves are the array and the texts of the rows read, which are those of
`getRows`. -/
theorem boxRows_spec {a : ℕ} (n : ℕ) {ps : List (EntryBox × DiaryEntry)}
    (hps : ∀ p ∈ ps, BoxOf p) (dups : List Bool) (unread : List Bytes)
    (H : h.Owns F (arrayBlock (some a) ps n :: textBlocks ps)) :
    ∃ ok h' ps' k, boxRows P (some a) n ps.length dups unread h = some (ok, h') ∧
      (∀ p ∈ ps', BoxOf p) ∧ h'.Owns F (arrayBlock (some a) ps' k :: textBlocks ps') ∧
      ps'.length + k = ps.length + n ∧ (ok = true → k = 0) ∧
      (getRows P n (ps.map Prod.snd) unread).1 = if ok then some (ps'.map Prod.snd) else none := by
  induction n generalizing h ps dups unread with
  | zero => exact ⟨true, h, ps, 0, rfl, hps, H, rfl, fun _ => rfl, rfl⟩
  | succ n ih =>
      rw [boxRows, getRows]
      rcases P.recvLineDyn unread with ⟨- | line, unread⟩
      · exact ⟨false, h, ps, n + 1, rfl, hps, H, rfl, fun hok => absurd hok Bool.false_ne_true,
          rfl⟩
      have Hline := Heap.owns_malloc H true (.chars line)
      simp only [parseRow_eq]
      rcases rowTokens line with - | ⟨sid, sts, sdat⟩
      · obtain ⟨h', hfree, H'⟩ := Hline.free
        exact ⟨false, h', ps, n + 1, by simp only [hfree]; rfl, hps, H', rfl,
          fun hok => absurd hok Bool.false_ne_true, rfl⟩
      -- the row is stored, and the line freed
      have hes := entriesAt_of_owns Hline (List.mem_cons_of_mem _ List.mem_cons_self)
      obtain ⟨hps', h₁, h₂, hstore, hfree, H₂⟩ :=
        boxRow_spec (P := P) hps Hline (sid, sts, sdat) (dups.headD true)
      obtain ⟨ok, h', ps', k, hrun, hps'', H', hlen, hrest⟩ := ih hps' dups.tail unread H₂
      rw [List.length_append, List.length_singleton] at hrun hlen
      refine ⟨ok, h', ps', k, ?_, hps'', H', by omega, ?_⟩
      · simp only [hes, Option.bind_eq_bind, Option.bind_some, hstore, hfree]
        exact hrun
      · rw [List.map_append] at hrest
        exact hrest

/-- The blocks of a list: the array, if there is one, and the texts of its
entries. -/
def ListBlocks (h : Heap Cell) (F : ℕ → Option Cell) (arr : Ptr) (count : ℕ)
    (es : List DiaryEntry) : Prop :=
  ∃ ps, (∀ p ∈ ps, BoxOf p) ∧ es = ps.map Prod.snd ∧ count = ps.length ∧
    (arr = none → ps = []) ∧ h.Owns F (arrayBlock arr ps 0 :: textBlocks ps)

theorem listBlocks_null (H : h.Owns F []) : ListBlocks h F none 0 [] :=
  ⟨[], by simp, rfl, rfl, fun _ => rfl, Heap.owns_null_iff.mpr H⟩

/-- `qsort` moves the structures of the array, not the texts. -/
theorem sortBoxes_spec {ps : List (EntryBox × DiaryEntry)} (hps : ∀ p ∈ ps, BoxOf p) :
    ∃ qs : List (EntryBox × DiaryEntry), qs.Perm ps ∧
      qs.map Prod.fst = sortBoxes (ps.map Prod.fst) ∧
      qs.map Prod.snd = sortNewestFirst (ps.map Prod.snd) := by
  refine ⟨ps.mergeSort fun p q => (entryCmpNewestFirst p.2 q.2).toInt ≤ 0,
    List.mergeSort_perm _ _, List.map_mergeSort fun p hp q hq => ?_,
    List.map_mergeSort fun p _ q _ => rfl⟩
  have hcmp : entryCmpNewestFirst ⟨p.1.id, p.1.timestamp, []⟩ ⟨q.1.id, q.1.timestamp, []⟩
      = entryCmpNewestFirst p.2 q.2 := by
    rw [(hps p hp).id, (hps p hp).timestamp, (hps q hq).id, (hps q hq).timestamp]
    rfl
  simp only [hcmp]

theorem textBlocks_perm {ps qs : List (EntryBox × DiaryEntry)} (h : qs.Perm ps) :
    (textBlocks qs).Perm (textBlocks ps) := h.map _

theorem map_fst_textBlocks (ps : List (EntryBox × DiaryEntry)) :
    (textBlocks ps).map Prod.fst = (ps.map Prod.fst).map EntryBox.text := by
  rw [textBlocks, List.map_map, List.map_map]
  rfl

/-- `net_get_entries` past the loop: the array is sorted. -/
theorem sort_spec {a : ℕ} {ps : List (EntryBox × DiaryEntry)} (hps : ∀ p ∈ ps, BoxOf p)
    (H : h.Owns F (arrayBlock (some a) ps 0 :: textBlocks ps)) :
    ∃ h', h.store (some a) (.entries (sortBoxes (ps.map Prod.fst))) = some h' ∧
      ListBlocks h' F (some a) ps.length (sortNewestFirst (ps.map Prod.snd)) := by
  obtain ⟨qs, hperm, hfst, hsnd⟩ := sortBoxes_spec hps
  obtain ⟨h', hstore, H'⟩ := H.store (.entries (sortBoxes (ps.map Prod.fst)))
  refine ⟨h', hstore, qs, fun q hq => hps q (hperm.mem_iff.mp hq), hsnd.symm,
    hperm.length_eq.symm, fun hnull => absurd hnull (Option.some_ne_none a), H'.perm ?_⟩
  rw [arrayBlock, hfst, List.replicate_zero, List.append_nil]
  exact (textBlocks_perm hperm).symm.cons _

/-- `net_get_entries` at `fail`: the texts of all the rows are freed, where
they were read or not. -/
theorem fail_spec {a n : ℕ} {ps : List (EntryBox × DiaryEntry)}
    (H : h.Owns F (arrayBlock (some a) ps n :: textBlocks ps)) :
    ∃ h₁ h₂, h.freeAll ((ps.map Prod.fst ++ List.replicate n emptyBox).map EntryBox.text)
        = some h₁ ∧ h₁.free (some a) = some h₂ ∧ h₂.Owns F [] := by
  have hnull : h.Owns F ((textBlocks ps ++ List.replicate n (none, .chars [])) ++
      [arrayBlock (some a) ps n]) := by
    have H' : h.Owns F (List.replicate n (none, .chars []) ++
        (arrayBlock (some a) ps n :: textBlocks ps)) := (Heap.owns_replicate_null n).mpr H
    exact H'.perm (List.perm_append_comm.trans (List.perm_append_singleton _ _).symm)
  obtain ⟨h₁, hall, H₁⟩ := hnull.freeAll
  obtain ⟨h₂, hfree, H₂⟩ := H₁.free
  refine ⟨h₁, h₂, ?_, hfree, H₂⟩
  rw [← hall, List.map_append, List.map_append, map_fst_textBlocks, List.map_replicate,
    List.map_replicate]
  rfl

/-- **`net_get_entries`** leaves the blocks of the list it returns, and
nothing else. -/
theorem boxEntries_spec (r : GetReply) (H : h.Owns F []) :
    ∃ got h', boxEntries P r h = some (got, h') ∧
      ListBlocks h' F (got.getD (none, 0)).1 (got.getD (none, 0)).2
        ((receiveEntries P r.calloc r.lines).2.getD []) := by
  rw [boxEntries, receiveEntries]
  rcases P.recvLine 64 r.lines with ⟨- | hdr, unread⟩
  · exact ⟨none, h, rfl, listBlocks_null H⟩
  simp only
  split
  swap
  · exact ⟨none, h, rfl, listBlocks_null H⟩
  split
  · exact ⟨some (none, 0), h, rfl, listBlocks_null H⟩
  generalize hn : (atoi (hdr.drop 8)).toNatClampNeg = n
  rcases r.calloc with - | -
  · exact ⟨none, h, rfl, listBlocks_null H⟩
  -- the array is allocated, and the rows are read into it
  have Harr := Heap.owns_malloc H true (.entries (List.replicate n emptyBox))
  obtain ⟨ok, h₁, ps, k, hrun, hps, H₁, hlen, hk, hrows⟩ :=
    boxRows_spec (P := P) n (by simp) r.dups unread
      (show Heap.Owns _ F (arrayBlock (some h.next) [] n :: textBlocks []) from Harr)
  have hes := entriesAt_of_owns H₁ List.mem_cons_self
  have hptr : (h.malloc true (.entries (List.replicate n emptyBox))).2 = some h.next := rfl
  simp only [List.length_nil, List.map_nil] at hrun hrows
  rw [hptr, if_neg (Option.some_ne_none _), hrun, if_neg (by decide), hrows]
  simp only [Option.bind_eq_bind, Option.bind_some, hes]
  cases ok with
  | true =>
      rw [hk rfl] at H₁ ⊢
      obtain ⟨h₂, hstore, hB⟩ := sort_spec hps H₁
      rw [hk rfl, List.length_nil, Nat.add_zero, Nat.zero_add] at hlen
      rw [hlen] at hB
      rw [List.replicate_zero, List.append_nil, if_pos rfl, hstore]
      exact ⟨some (some h.next, n), h₂, rfl, hB⟩
  | false =>
      obtain ⟨h₂, h₃, hall, hfree, H₃⟩ := fail_spec H₁
      rw [if_neg (by decide), hall, Option.bind_some, hfree]
      exact ⟨none, h₃, rfl, listBlocks_null H₃⟩

theorem freeEntries_spec {arr : Ptr} {count : ℕ} {es : List DiaryEntry}
    (hB : ListBlocks h F arr count es) :
    ∃ h', freeEntries arr count h = some h' ∧ h'.Owns F [] := by
  obtain ⟨ps, hps, rfl, rfl, hnull, H⟩ := hB
  rcases arr with - | a
  · rw [hnull rfl] at H ⊢
    obtain ⟨h', hfree, H'⟩ := H.free
    exact ⟨h', hfree, H'⟩
  have hes := entriesAt_of_owns H List.mem_cons_self
  rw [freeEntries]
  split
  · next hzero =>
      obtain rfl : ps = [] := List.length_eq_zero_iff.mp hzero
      obtain ⟨h', hfree, H'⟩ := H.free
      exact ⟨h', hfree, H'⟩
  · obtain ⟨h₁, h₂, hall, hfree, H₂⟩ := fail_spec H
    refine ⟨h₂, ?_, H₂⟩
    rw [hes, Option.bind_eq_bind, Option.bind_some, List.replicate_zero, List.append_nil,
      List.length_map, if_neg (lt_irrefl _), List.take_of_length_le (List.length_map _).le]
    rw [List.replicate_zero, List.append_nil] at hall
    rw [hall]
    exact hfree

theorem reloadBoxes_spec (r : GetReply) {arr : Ptr} {count : ℕ} {es : List DiaryEntry}
    (hB : ListBlocks h F arr count es) :
    ∃ arr' count' h', reloadBoxes P r arr count h = some ((arr', count'), h') ∧
      ListBlocks h' F arr' count' ((receiveEntries P r.calloc r.lines).2.getD []) := by
  obtain ⟨h₁, hfree, H₁⟩ := freeEntries_spec hB
  obtain ⟨got, h₂, hgot, hB₂⟩ := boxEntries_spec (P := P) r H₁
  refine ⟨_, _, h₂, ?_, hB₂⟩
  rw [reloadBoxes, hfree, Option.bind_eq_bind, Option.bind_some, hgot]
  rfl

/-! ### What is read -/

theorem boxAt_eq {arr : Ptr} {ps : List (EntryBox × DiaryEntry)} (hnull : arr = none → ps = [])
    (H : h.Owns F (arrayBlock arr ps 0 :: textBlocks ps)) (idx : ℤ) :
    boxAt arr idx h = if idx < 0 then none else ps[idx.toNat]?.map Prod.fst := by
  rw [boxAt]
  rcases arr with - | a
  · rw [hnull rfl, List.getElem?_nil]
    rfl
  · rw [entriesAt_of_owns H List.mem_cons_self, Option.bind_some, List.replicate_zero,
      List.append_nil, List.getElem?_map]

theorem isSome_boxAt {arr : Ptr} {count : ℕ} {es : List DiaryEntry}
    (hB : ListBlocks h F arr count es) (idx : ℤ) :
    (boxAt arr idx h).isSome = (if idx < 0 then none else es[idx.toNat]?).isSome := by
  obtain ⟨ps, -, rfl, -, hnull, H⟩ := hB
  rw [boxAt_eq hnull H]
  split
  · rfl
  · rw [Option.isSome_map, List.getElem?_map, Option.isSome_map]

/-- The text of an entry of the list is there, unless it could not be copied. -/
theorem textAt_eq {arr : Ptr} {count : ℕ} {es : List DiaryEntry}
    (hB : ListBlocks h F arr count es) {idx : ℤ} (hidx : 0 ≤ idx) {e : DiaryEntry}
    (he : es[idx.toNat]? = some e) :
    textAt arr idx h = some (some e.text) ∨
      textAt arr idx h = some none ∧ e.text = couldNotDecrypt := by
  obtain ⟨ps, hps, rfl, -, hnull, H⟩ := hB
  rw [List.getElem?_map] at he
  obtain ⟨p, hp, rfl⟩ := Option.map_eq_some_iff.mp he
  have hmem := List.mem_of_getElem? hp
  rw [textAt, boxAt_eq hnull H, if_neg (not_lt.mpr hidx), hp, Option.map_some,
    Option.bind_eq_bind, Option.bind_some]
  rcases htext : p.1.text with - | q
  · exact Or.inr ⟨rfl, (hps p hmem).text htext⟩
  · have hblock : (some q, Cell.chars p.2.text) ∈ textBlocks ps := by
      rw [← htext]
      exact List.mem_map_of_mem hmem
    exact Or.inl (by simp only [H.get (List.mem_cons_of_mem _ hblock)])

theorem isSome_textAt {arr : Ptr} {count : ℕ} {es : List DiaryEntry}
    (hB : ListBlocks h F arr count es) (idx : ℤ) :
    (textAt arr idx h).isSome = (if idx < 0 then none else es[idx.toNat]?).isSome := by
  rcases hbox : boxAt arr idx h with - | e
  · rw [← isSome_boxAt hB, textAt, hbox]
    rfl
  · have hsome := isSome_boxAt hB idx
    rw [hbox] at hsome
    rw [← hsome]
    split at hsome
    · cases hsome
    · next hidx =>
        obtain ⟨d, hd⟩ := Option.isSome_iff_exists.mp hsome.symm
        rcases textAt_eq hB (not_lt.mp hidx) hd with h | ⟨h, -⟩
        · rw [h]
          rfl
        · rw [h]
          rfl

/-! ### The loop -/

/-- The variables of the loop, and the blocks behind them. -/
structure HeapOf (F : ℕ → Option Cell) (s : HeapList) (l : ListScreen) : Prop where
  list : s.list = l
  blocks : ListBlocks s.heap F s.arr s.count l.entries

theorem entries_of_not_reloads {s : ListScreen} {i : ListInput} (h : ¬ Reloads s i) :
    (listStep s i).1.entries = s.entries := by
  cases listStep_cases s i with
  | idle hentries => exact hentries
  | refresh hrun hkey => exact absurd ⟨hrun, Or.inl hkey⟩ h
  | new hrun hkey => exact absurd ⟨hrun, Or.inr (Or.inl hkey)⟩ h
  | edit hrun hkey hc => exact absurd ⟨hrun, Or.inr (Or.inr (Or.inl ⟨hkey, hc⟩))⟩ h
  | delete hrun hkey hc hconf =>
      exact absurd ⟨hrun, Or.inr (Or.inr (Or.inr ⟨hkey, hc, hconf⟩))⟩ h

/-- What a branch reads of the list is what it reads of the heap. -/
theorem reads_iff {s : HeapList} (h : HeapOf F s s.list) (i : ListInput) :
    s.reads (listStep s.list i).2 = true ↔ (listStep s.list i).2.InList := by
  -- a text or an id is read where the selection is in the list
  have hcurrent : s.list.current.isSome
      = (if s.list.selected < 0 then none else s.list.entries[s.list.selected.toNat]?).isSome := rfl
  have htext := (isSome_textAt h.blocks s.list.selected).trans hcurrent.symm
  have hbox := (isSome_boxAt h.blocks s.list.selected).trans hcurrent.symm
  cases listStep_cases s.list i with
  | idle hentries hact =>
      rcases hact with ⟨hact, -⟩ | ⟨hact, -⟩ | hact | ⟨hact, -⟩
      · rw [hact]
        exact iff_of_true rfl trivial
      · rw [hact]
        exact iff_of_true rfl trivial
      · rw [hact, HeapList.reads, htext]
        exact Iff.rfl
      · rw [hact, HeapList.reads, hbox]
        exact Iff.rfl
  | refresh hrun hkey =>
      rw [step_refresh hrun hkey]
      exact iff_of_true rfl trivial
  | new hrun hkey =>
      rw [step_new hrun hkey]
      exact iff_of_true rfl trivial
  | edit hrun hkey hc =>
      rw [step_edit hrun hkey hc, HeapList.reads, htext]
      exact Iff.rfl
  | delete hrun hkey hc hconf =>
      rw [step_delete hrun hkey hc hconf, HeapList.reads, hbox]
      exact Iff.rfl

/-- Every row drawn is read inside the array. -/
theorem drawn_reads {s : HeapList} (h : HeapOf F s s.list) (rows : ℤ) :
    ((s.list.drawn rows).any fun idx => (textAt s.arr idx s.heap).isNone) = false := by
  rw [List.any_eq_false]
  intro idx hidx
  obtain ⟨hge, -, hlt⟩ := mem_drawn_iff.mp hidx
  have h0 : 0 ≤ idx := le_trans (adjustScroll_nonneg _ _ _) hge
  have hlen : idx.toNat < s.list.entries.length := by
    rw [ListScreen.count] at hlt
    omega
  have hsome : (textAt s.arr idx s.heap).isSome = true := by
    rw [isSome_textAt h.blocks, if_neg (not_lt.mpr h0), List.getElem?_eq_getElem hlen]
    rfl
  rw [Option.isNone_iff_eq_none]
  intro hnone
  rw [hnone] at hsome
  cases hsome

/-- **Step lemma.** -/
theorem heapOf_step {s : HeapList} {l : ListScreen} (h : HeapOf F s l) (i : HeapInput)
    (hreads : (listStep l (i.input P)).2.InList) :
    ∃ s', s.step P i = some s' ∧ HeapOf F s' (listStep l (i.input P)).1 := by
  obtain rfl := h.list
  rw [HeapList.step]
  by_cases hrun : s.list.running = true
  swap
  · rw [if_pos (Bool.eq_false_iff.mpr hrun), show listStep s.list (i.input P) = _ from if_neg hrun]
    exact ⟨s, rfl, h⟩
  rw [if_neg (by rw [hrun]; decide), drawn_reads h, if_neg Bool.false_ne_true,
    if_neg (by rw [(reads_iff h _).mpr hreads]; decide)]
  by_cases hreload : Reloads s.list (i.input P)
  · obtain ⟨arr, count, h', hload, hB⟩ := reloadBoxes_spec (P := P) i.reply h.blocks
    rw [if_pos hreload, hload]
    exact ⟨_, rfl, rfl, by rw [entries_of_reloads hreload]; exact hB⟩
  · rw [if_neg hreload]
    exact ⟨_, rfl, rfl, by rw [entries_of_not_reloads hreload]; exact h.blocks⟩

theorem step_undefined {s : HeapList} {l : ListScreen} (h : HeapOf F s l) (i : HeapInput)
    (hreads : ¬ (listStep l (i.input P)).2.InList) : s.step P i = none := by
  obtain rfl := h.list
  have hrun : s.list.running = true := by
    by_contra hrun
    rw [show listStep s.list (i.input P) = _ from if_neg hrun] at hreads
    exact hreads trivial
  rw [HeapList.step, if_neg (by rw [hrun]; decide), drawn_reads h, if_neg Bool.false_ne_true,
    if_pos (Bool.eq_false_iff.mpr fun hr => hreads ((reads_iff h _).mp hr))]

theorem heapOf_opened (P : Proto ν) (r : GetReply) (h₀ : Heap Cell) :
    ∃ s, HeapList.opened P r h₀ = some s ∧
      HeapOf h₀.cell s (ListScreen.opened (receiveEntries P r.calloc r.lines).2) := by
  obtain ⟨arr, count, h', hload, hB⟩ :=
    reloadBoxes_spec (P := P) r (listBlocks_null (Heap.owns_self h₀))
  rw [HeapList.opened, hload]
  exact ⟨_, rfl, rfl, by rw [ListScreen.opened, entries_reloadEntries]; exact hB⟩

/-- **The blocks of the list screen.**  Whatever the server answers, and
whichever allocations fail: the loop is defined exactly as long as what a key
reads at `selected` is in the list.  Then the pointer and the count stand for
the list of `ListScreen` all along, with the texts that could be copied, and
when the loop ends every block that was allocated is freed, each once, and
those of the rest of the program are as they were. -/
theorem list_screen_blocks_iff (P : Proto ν) (first : GetReply) (h₀ : Heap Cell)
    (is : List HeapInput) :
    let l := ListScreen.opened (receiveEntries P first.calloc first.lines).2
    let ls := is.map (HeapInput.input P)
    ∃ s₀, HeapList.opened P first h₀ = some s₀ ∧
      ((∃ s, is.foldlM (HeapList.step P) s₀ = some s) ↔
        Throughout listStep (fun l i => (listStep l i).2.InList) l ls) ∧
      ∀ s, is.foldlM (HeapList.step P) s₀ = some s →
        s.list = final listStep l ls ∧ s.count = s.list.entries.length ∧
        (∀ (idx : ℕ) (e : DiaryEntry), s.list.entries[idx]? = some e →
          textAt s.arr idx s.heap = some (some e.text) ∨
            textAt s.arr idx s.heap = some none ∧ e.text = couldNotDecrypt) ∧
        ∃ h, s.leave = some h ∧ h.cell = h₀.cell := by
  intro l ls
  obtain ⟨s₀, hopened, h⟩ := heapOf_opened P first h₀
  -- the heap of the screen follows the list as long as every access is inside
  have hrun : ((∃ s, is.foldlM (HeapList.step P) s₀ = some s) ↔
        Throughout listStep (fun l i => (listStep l i).2.InList) l ls) ∧
      ∀ s, is.foldlM (HeapList.step P) s₀ = some s → HeapOf h₀.cell s (final listStep l ls) :=
    defined_iff_throughout (f := HeapInput.input P) (R := HeapOf h₀.cell)
      (Q := fun l i => (listStep l i).2.InList) (fun _ _ i h => heapOf_step h i)
      (fun _ _ i h => step_undefined h i) h is
  refine ⟨s₀, hopened, hrun.1, fun s hs => ?_⟩
  obtain ⟨hlist, hB⟩ := hrun.2 s hs
  refine ⟨hlist, ?_, fun idx e he => ?_, ?_⟩
  · obtain ⟨ps, -, hes, hcount, -⟩ := hB
    rw [hlist, hes, hcount, List.length_map]
  · rw [hlist] at he
    exact textAt_eq hB (Int.natCast_nonneg idx) (by simpa using he)
  · -- leaving frees every block that was allocated
    obtain ⟨h', hfree, H⟩ := freeEntries_spec hB
    exact ⟨h', hfree, H.cell_eq⟩

end Diary
