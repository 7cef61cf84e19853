/-
Diary/ServerHeap.lean

The blocks of server/client_handler.c: the request lines, the array of a GET
and the lines printed into it.

`heapLoop` is the command loop of `diary_handle` on a heap, where reading,
writing or freeing a block that is not allocated, or an access outside the
array, is undefined (`none`).  The callback of a GET may find any of its
allocations failing, and the array full.

`heapLoop_refines`: the loop is always defined, answers what `diaryLoop`
answers, and leaves the heap as it found it.
-/
import Diary.Handler
import Diary.Heap

namespace Diary

open CString

/-! ### The program on the heap -/

/-- What a block of the server holds: a string, or the array `lines`. -/
inductive ServerCell
  | chars (s : Bytes)
  | lines (ps : List Ptr)

/-- The pointers in an array. -/
def linesAt (p : Ptr) (h : Heap ServerCell) : Option (List Ptr) :=
  match h.get p with
  | some (.lines ps) => some ps
  | some (.chars _) | none => none

/-- The string at a pointer. -/
def charsAt (p : Ptr) (h : Heap ServerCell) : Option Bytes :=
  match h.get p with
  | some (.chars s) => some s
  | some (.lines _) | none => none

/-- `entry_collect_t`, with what the coming calls of `malloc` return. -/
structure HeapCollect where
  count : ℕ
  lines : Ptr
  malloc : List Bool

/-- `collect_entry`. -/
def collectOnHeap (e : EntryLine) (c : HeapCollect) (h : Heap ServerCell) :
    Option (HeapCollect × Heap ServerCell) :=
  -- past the end of the array rows are dropped, as they are without memory
  if maxEntries ≤ c.count then some (c, h)
  else
    let line := h.malloc (c.malloc.head? ≠ some false) (.chars [])
    if line.2 = none then some ({ c with malloc := c.malloc.tail }, h)
    else do
      let h ← line.1.store line.2 (.chars e.text)
      let ps ← linesAt c.lines h
      if ps.length ≤ c.count then none
      else do
        let h ← h.store c.lines (.lines (ps.set c.count line.2))
        some ({ c with count := c.count + 1, malloc := c.malloc.tail }, h)

/-- The loop that sends the lines from `i` on and frees them. -/
def sendRows (arr : Ptr) : ℕ → ℕ → Heap ServerCell → Option (List Bytes × Heap ServerCell)
  | 0, _, h => some ([], h)
  | n + 1, i, h => do
      let ps ← linesAt arr h
      let p ← ps[i]?
      let line ← charsAt p h
      let h ← h.free p
      let rest ← sendRows arr n (i + 1) h
      some (line :: rest.1, rest.2)

/-- GET: the lines sent. -/
def getOnHeap (env : Env) (user : Bytes) (db : Db) (h : Heap ServerCell) :
    Option (List Bytes × Heap ServerCell) :=
  let arr := h.malloc env.calloc (.lines (List.replicate maxEntries none))
  if arr.2 = none then some ([Failure.outOfMemory.text], h)
  else do
    let col ← storageGetEntries user
      (fun id ts data col => col.bind fun col => collectOnHeap ⟨id, ts, data⟩ col.1 col.2)
      (some (⟨0, arr.2, env.malloc⟩, arr.1)) db
    let rows ← sendRows arr.2 col.1.count 0 col.2
    let h ← rows.2.free arr.2
    some (snprintf 32 (lit "ENTRIES " ++ dec col.1.count) :: rows.1, h)

/-- The body of the loop, the request line being at `l`. -/
def commandOnHeap (env : Env) (user : Bytes) (l : Ptr) (db : Db) (h : Heap ServerCell) :
    Option (Db × List Bytes × Heap ServerCell) := do
  let line ← charsAt l h
  if line = lit "GET" then
    let r ← getOnHeap env user db h
    some (db, r)
  else
    let r := diaryCommand env user line db
    -- UPDATE writes a NUL over the blank behind the id
    let h ←
      if (lit "UPDATE ").isPrefixOf line then
        match strchr (line.drop 7) 32 with
        | some sp => h.store l (.chars (line.set (7 + sp) 0))
        | none => some h
      else some h
    some (r.1, r.2.lines, h)

/-- The loop of `diary_handle`: the lines sent for each request. -/
def heapLoop (user : Bytes) : Db → List (Env × Bytes) → Heap ServerCell →
    Option (Db × List (List Bytes) × Heap ServerCell)
  | db, [], h => some (db, [], h)
  | db, (env, line) :: rest, h => do
      let l := h.malloc true (.chars line)
      let r ← commandOnHeap env user l.2 db l.1
      -- `free(line)` stands at the end of the body, before the `break` of QUIT
      -- and before the `continue` of a GET without memory
      let h ← r.2.2.free l.2
      if line = lit "QUIT" then some (r.1, [r.2.1], h)
      else
        let next ← heapLoop user r.1 rest h
        some (next.1, r.2.1 :: next.2.1, next.2.2)

/-! ### GET -/

variable {h : Heap ServerCell} {F : ℕ → Option ServerCell} {bs : List (Ptr × ServerCell)} {a : ℕ}

/-- The blocks of the lines collected. -/
def lineBlocks (qs : List (ℕ × EntryLine)) : List (Ptr × ServerCell) :=
  qs.map fun q => (some q.1, .chars q.2.text)

/-- The array of the lines collected. -/
def lineArray (qs : List (ℕ × EntryLine)) : List Ptr :=
  qs.map (fun q => some q.1) ++ List.replicate (maxEntries - qs.length) none

/-- What is collected on the heap is what `collectEntry` collects. -/
structure Collects (h : Heap ServerCell) (F : ℕ → Option ServerCell) (a : ℕ)
    (qs : List (ℕ × EntryLine)) (c : HeapCollect) (e : EntryCollect) : Prop where
  count : c.count = qs.length
  array : c.lines = some a
  malloc : c.malloc = e.malloc
  lines : e.lines = qs.map Prod.snd
  fits : qs.length ≤ maxEntries
  owns : h.Owns F ((some a, .lines (lineArray qs)) :: lineBlocks qs)

theorem linesAt_of_owns {ps : List Ptr} (H : h.Owns F bs)
    (hmem : (some a, ServerCell.lines ps) ∈ bs) : linesAt (some a) h = some ps := by
  rw [linesAt, H.get hmem]

theorem charsAt_of_owns {s : Bytes} (H : h.Owns F bs)
    (hmem : (some a, ServerCell.chars s) ∈ bs) : charsAt (some a) h = some s := by
  rw [charsAt, H.get hmem]

theorem length_lineArray {qs : List (ℕ × EntryLine)} (h : qs.length ≤ maxEntries) :
    (lineArray qs).length = maxEntries := by
  rw [lineArray, List.length_append, List.length_map, List.length_replicate]
  omega

/-- The first NULL of the array is where the next line goes. -/
theorem set_lineArray {qs : List (ℕ × EntryLine)} (h : qs.length < maxEntries) (p : ℕ)
    (e : EntryLine) : (lineArray qs).set qs.length (some p) = lineArray (qs ++ [(p, e)]) := by
  obtain ⟨n, hn⟩ : ∃ n, maxEntries - qs.length = n + 1 := ⟨maxEntries - qs.length - 1, by omega⟩
  have hn' : maxEntries - (qs.length + 1) = n := by omega
  rw [lineArray, lineArray, List.set_append_right _ _ (List.length_map _).le, List.length_map,
    Nat.sub_self, hn, List.replicate_succ, List.set_cons_zero, List.map_append, List.length_append,
    List.length_singleton, hn', List.append_assoc]
  rfl

theorem lineBlocks_append (qs : List (ℕ × EntryLine)) (p : ℕ) (e : EntryLine) :
    (lineBlocks (qs ++ [(p, e)])).Perm ((some p, .chars e.text) :: lineBlocks qs) := by
  rw [lineBlocks, List.map_append]
  exact List.perm_append_singleton _ _

/-- `collect_entry`, on a row. -/
theorem collectOnHeap_spec {qs : List (ℕ × EntryLine)} {c : HeapCollect} {e : EntryCollect}
    (H : Collects h F a qs c e) (id : Int32) (ts : Int64) (data : Bytes) :
    ∃ c' h' qs', collectOnHeap ⟨id, ts, data⟩ c h = some (c', h') ∧
      Collects h' F a qs' c' (collectEntry id ts data e) := by
  obtain ⟨hcount, harray, hmalloc, hlines, hfits, Howns⟩ := H
  have hlen : e.lines.length = qs.length := by rw [hlines, List.length_map]
  rw [collectOnHeap, collectEntry, hcount, hlen, hmalloc]
  split
  · exact ⟨c, h, qs, rfl, hcount, harray, hmalloc, hlines, hfits, Howns⟩
  next hroom =>
  by_cases hnull : e.malloc.head? = some false
  · -- the line is not collected
    rw [if_pos hnull, decide_eq_false (not_not_intro hnull)]
    exact ⟨_, h, qs, rfl, rfl, harray, rfl, hlines, hfits, Howns⟩
  · rw [if_neg hnull, decide_eq_true hnull]
    have H₁ := Heap.owns_malloc Howns true (.chars [])
    obtain ⟨h₂, hprint, H₂⟩ := H₁.store (.chars (EntryLine.text ⟨id, ts, data⟩))
    have hps := linesAt_of_owns H₂ (List.mem_cons_of_mem _ List.mem_cons_self)
    obtain ⟨h₃, hset, H₃⟩ := (H₂.perm (List.Perm.swap _ _ _)).store
      (.lines ((lineArray qs).set qs.length (some h.next)))
    have hptr : (h.malloc true (ServerCell.chars [])).2 = some h.next := rfl
    refine ⟨⟨qs.length + 1, some a, e.malloc.tail⟩, h₃, qs ++ [(h.next, ⟨id, ts, data⟩)], ?_, ?_,
      rfl, rfl, ?_, ?_, ?_⟩
    · rw [← length_lineArray hfits] at hroom
      simp only [hptr, Option.some_ne_none, if_false, hprint, harray, Option.bind_eq_bind,
        Option.bind_some, hps, if_neg hroom, hset]
    · rw [List.length_append, List.length_singleton]
    · rw [hlines, List.map_append]
      rfl
    · rw [List.length_append, List.length_singleton]
      omega
    · rw [set_lineArray (Nat.lt_of_not_le hroom)] at H₃
      exact H₃.perm ((lineBlocks_append _ _ _).symm.cons _)

/-- The callback, over the rows of a GET. -/
theorem collectRows_spec (rows : List (ℕ × Entry)) {qs : List (ℕ × EntryLine)} {c : HeapCollect}
    {e : EntryCollect} (H : Collects h F a qs c e) :
    ∃ c' h' qs',
      rows.foldl (fun col r => col.bind fun col =>
        collectOnHeap ⟨rowidToInt r.1, r.2.timestamp, r.2.data⟩ col.1 col.2) (some (c, h))
          = some (c', h') ∧
      Collects h' F a qs' c' (rows.foldl
        (fun e r => collectEntry (rowidToInt r.1) r.2.timestamp r.2.data e) e) := by
  induction rows generalizing h qs c e with
  | nil => exact ⟨c, h, qs, rfl, H⟩
  | cons r rows ih =>
      obtain ⟨c₁, h₁, qs₁, hrow, H₁⟩ :=
        collectOnHeap_spec H (rowidToInt r.1) r.2.timestamp r.2.data
      obtain ⟨c', h', qs', hrest, H'⟩ := ih H₁
      refine ⟨c', h', qs', ?_, H'⟩
      rw [List.foldl_cons, Option.bind_some, hrow]
      exact hrest

/-- The loop that sends the lines sends each of them, and frees it. -/
theorem sendRows_spec {ps rest : List Ptr} (qs : List (ℕ × EntryLine)) (i : ℕ)
    (hps : ps.drop i = qs.map (fun q => some q.1) ++ rest)
    (H : h.Owns F ((some a, .lines ps) :: lineBlocks qs)) :
    ∃ h', sendRows (some a) qs.length i h = some (qs.map fun q => q.2.text, h') ∧
      h'.Owns F [(some a, .lines ps)] := by
  induction qs generalizing h i with
  | nil => exact ⟨h, rfl, H⟩
  | cons q qs ih =>
      have hget : ps[i]? = some (some q.1) := by
        have hzero : (ps.drop i)[0]? = some (some q.1) := by rw [hps]; rfl
        rwa [List.getElem?_drop, Nat.add_zero] at hzero
      have hdrop : ps.drop (i + 1) = qs.map (fun q => some q.1) ++ rest := by
        rw [← List.drop_drop, hps]
        rfl
      have Hq : h.Owns F ((some q.1, .chars q.2.text) :: (some a, .lines ps) :: lineBlocks qs) :=
        H.perm (List.Perm.swap _ _ _)
      obtain ⟨h₁, hfree, H₁⟩ := Hq.free
      obtain ⟨h₂, hrest, H₂⟩ := ih (i + 1) hdrop H₁
      refine ⟨h₂, ?_, H₂⟩
      rw [List.length_cons, sendRows, linesAt_of_owns H List.mem_cons_self, Option.bind_eq_bind,
        Option.bind_some, hget, Option.bind_eq_bind, Option.bind_some,
        charsAt_of_owns Hq List.mem_cons_self, Option.bind_eq_bind, Option.bind_some, hfree,
        Option.bind_eq_bind, Option.bind_some, hrest]
      rfl

/-- **GET** answers what `perform` answers, and frees what it allocated. -/
theorem getOnHeap_spec (env : Env) (user : Bytes) (db : Db) (h : Heap ServerCell) :
    ∃ h', getOnHeap env user db h = some ((perform env user db .get).2.lines, h') ∧
      h'.cell = h.cell := by
  rw [getOnHeap, perform]
  rcases hcalloc : env.calloc with - | -
  · exact ⟨h, rfl, rfl⟩
  have H₁ := Heap.owns_malloc (Heap.owns_self h) true (.lines (List.replicate maxEntries none))
  have hcol : Collects (h.malloc true (.lines (List.replicate maxEntries none))).1 h.cell h.next []
      ⟨0, some h.next, env.malloc⟩ ⟨[], env.malloc⟩ :=
    ⟨rfl, rfl, rfl, rfl, Nat.zero_le _, H₁⟩
  obtain ⟨c, h₂, qs, hrows, hcol'⟩ :=
    collectRows_spec (db.entries.select (ownedBy user)) hcol
  obtain ⟨h₃, hsend, H₃⟩ := sendRows_spec qs 0 rfl hcol'.owns
  obtain ⟨h₄, hfree, H₄⟩ := H₃.free
  refine ⟨h₄, ?_, H₄.cell_eq⟩
  have hptr : (h.malloc true (ServerCell.lines (List.replicate maxEntries none))).2
      = some h.next := rfl
  rw [hptr, if_neg (Option.some_ne_none _), storageGetEntries, hrows, Option.bind_eq_bind,
    Option.bind_some, hcol'.count, hsend, Option.bind_eq_bind, Option.bind_some, hfree]
  rw [storageGetEntries, if_neg (by decide), Reply.lines, hcol'.lines, List.length_map,
    List.map_map]
  rfl

/-! ### The loop -/

/-- A request, its line being in the one block allocated. -/
theorem commandOnHeap_spec (env : Env) (user line : Bytes) (db : Db)
    (H : h.Owns F [(some a, .chars line)]) :
    ∃ cell h', commandOnHeap env user (some a) db h
        = some ((diaryCommand env user line db).1, (diaryCommand env user line db).2.lines, h') ∧
      h'.Owns F [(some a, cell)] := by
  rw [commandOnHeap, charsAt_of_owns H List.mem_cons_self, Option.bind_eq_bind, Option.bind_some]
  split
  · next hget =>
      obtain ⟨h', hrun, hcell⟩ := getOnHeap_spec env user db h
      refine ⟨.chars line, h', ?_, H.congr hcell⟩
      rw [hrun, diaryCommand_eq, hget]
      rfl
  simp only
  split
  · split
    · next sp hsp =>
        obtain ⟨h', hstore, H'⟩ := H.store (.chars (line.set (7 + sp) 0))
        exact ⟨_, h', by rw [hstore]; rfl, H'⟩
    · exact ⟨_, h, rfl, H⟩
  · exact ⟨_, h, rfl, H⟩

/-- **The command loop on its heap.**  Whatever the requests, whatever is in
the database and whichever allocations of a GET fail: no block is used that
is not allocated, no access is outside the array, every reply is the one of
`diaryLoop`, and when the loop ends the heap is as it was before. -/
theorem heapLoop_refines (user : Bytes) (db : Db) (ls : List (Env × Bytes))
    (h : Heap ServerCell) :
    ∃ h', heapLoop user db ls h
        = some ((diaryLoop user db ls).1, (diaryLoop user db ls).2.map Reply.lines, h') ∧
      h'.cell = h.cell := by
  induction ls generalizing db h with
  | nil => exact ⟨h, rfl, rfl⟩
  | cons l ls ih =>
      obtain ⟨env, line⟩ := l
      have H₁ := Heap.owns_malloc (Heap.owns_self h) true (.chars line)
      obtain ⟨cell, h₂, hcommand, H₂⟩ := commandOnHeap_spec env user line db H₁
      obtain ⟨h₃, hfree, H₃⟩ := H₂.free
      have hptr : (h.malloc true (ServerCell.chars line)).2 = some h.next := rfl
      rw [heapLoop, diaryLoop, hptr, hcommand, Option.bind_eq_bind, Option.bind_some, hfree,
        Option.bind_eq_bind, Option.bind_some]
      split
      · exact ⟨h₃, rfl, H₃.cell_eq⟩
      · obtain ⟨h₄, hrest, hcell⟩ := ih (diaryCommand env user line db).1 h₃
        refine ⟨h₄, ?_, hcell.trans H₃.cell_eq⟩
        rw [hrest]
        rfl

end Diary
