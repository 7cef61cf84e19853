/-
Diary/RowOrders.lean

Programs that change the database by commands somebody ordered.

A program with the database somewhere in its state is described by what is
asked of the server in a step, and about whose entries: `orders s i owner c`.
If every step leaves the database as it is or performs one such command
(`ByOrders`), then over a whole run a row goes, changes or appears only by an
order about it (`rows_by_orders`), whatever else the program does.
-/
import Diary.Entries
import Diary.Machine

namespace Diary

open CString Machine

/-- A step ends with `db'`: as it was, or with a command performed that
somebody ordered. -/
def Ordered {σ ι : Type*} (db : σ → Db) (orders : σ → ι → Bytes → Command → Prop) (s : σ) (i : ι)
    (db' : Db) : Prop :=
  db' = db s ∨ ∃ env owner c, orders s i owner c ∧ db' = (perform env owner (db s) c).1

variable {σ ι ω : Type*} {step : σ → ι → σ × ω} {db : σ → Db}
  {orders : σ → ι → Bytes → Command → Prop}

/-- The program changes the database by orders only. -/
def ByOrders (step : σ → ι → σ × ω) (db : σ → Db) (orders : σ → ι → Bytes → Command → Prop) :
    Prop :=
  ∀ s i, Ordered db orders s i (db (step s i).1)

/-- In some step of a run the row under an id goes from `o` to `o'`, and that
step has the order. -/
def ChangedIn (step : σ → ι → σ × ω) (db : σ → Db) (orders : σ → ι → Bytes → Command → Prop)
    (s : σ) (run : List ι) (j : ℕ) (o o' : Option Entry) (owner : Bytes) (c : Command) : Prop :=
  Sometime step (fun s i => (db s).entries.lookup j = o ∧
    (db (step s i).1).entries.lookup j = o' ∧ orders s i owner c) s run

/-- A row came to its data by an order to update it. -/
def RowWritten (changed : Option Entry → Option Entry → Bytes → Command → Prop) (j : ℕ)
    (e : Entry) : Prop :=
  ∃ (d : Entry) (id : Int32), id.toNatClampNeg = j ∧
    changed (some d) (some e) e.authPubkey (.update id e.data)

/-! ### One step -/

/-- What a step can do to the row under one id. -/
inductive RowChange (db : σ → Db) (orders : σ → ι → Bytes → Command → Prop) (s : σ) (i : ι)
    (j : ℕ) : Option Entry → Option Entry → Prop
  | same {o} : RowChange db orders s i j o o
  | created {e} (hnew : (db s).entries.seq < j)
      (hordered : orders s i e.authPubkey (.post e.timestamp e.data)) :
      RowChange db orders s i j none (some e)
  | rewritten {e id data} (hid : id.toNatClampNeg = j)
      (hordered : orders s i e.authPubkey (.update id data)) :
      RowChange db orders s i j (some e) (some { e with data := data })
  | gone {e id} (hid : id.toNatClampNeg = j) (hordered : orders s i e.authPubkey (.delete id)) :
      RowChange db orders s i j (some e) none

/-- **Step lemma of a row.** -/
theorem Ordered.rowChange {s : σ} {i : ι} {db' : Db} (h : Ordered db orders s i db') (j : ℕ) :
    RowChange db orders s i j ((db s).entries.lookup j) (db'.entries.lookup j) := by
  rcases h with rfl | ⟨env, owner, c, hordered, rfl⟩
  · exact .same
  cases c with
  -- only a POST, an UPDATE and a DELETE write
  | quit | badUpdate | unknown | get => exact .same
  | post ts data =>
      rcases storageAddEntry_cases env.done owner data ts (db s) with ⟨-, -, h⟩ | h
      · simp only [perform, h, AutoTable.lookup_insert]
        by_cases hj : j = (db s).entries.seq + 1
        · -- the id after the last one assigned, which names no row yet
          subst hj
          rw [Function.update_self, AutoTable.lookup_of_seq_lt (Nat.lt_succ_self _)]
          exact .created (Nat.lt_succ_self _) hordered
        · rw [Function.update_of_ne hj]
          exact .same
      · simp only [perform, h]
        exact .same
  | update id data =>
      rcases storageUpdateEntry_cases env.done owner id data (db s) with ⟨e, -, he, hu, h⟩ | h
      · simp only [perform, h, lookup_modify_namedBy he hu]
        by_cases hj : j = id.toNatClampNeg
        · subst hj
          rw [Function.update_self, he]
          -- the row the id names, which belongs to the one who asks
          exact .rewritten rfl (by rw [hu]; exact hordered)
        · rw [Function.update_of_ne hj]
          exact .same
      · simp only [perform, h]
        exact .same
  | delete id =>
      rcases storageDeleteEntry_cases env.done owner id (db s) with ⟨e, -, he, hu, h⟩ | h
      · simp only [perform, h, lookup_remove_namedBy he hu]
        by_cases hj : j = id.toNatClampNeg
        · subst hj
          rw [Function.update_self, he]
          exact .gone rfl (by rw [hu]; exact hordered)
        · rw [Function.update_of_ne hj]
          exact .same
      · simp only [perform, h]
        exact .same

theorem seq_le_perform (env : Env) (owner : Bytes) (db : Db) (c : Command) :
    db.entries.seq ≤ (perform env owner db c).1.entries.seq := by
  cases c with
  | quit | badUpdate | unknown | get => exact le_refl _
  | post ts data =>
      rcases storageAddEntry_cases env.done owner data ts db with ⟨-, -, h⟩ | h
      · simp [perform, h]
      · simp [perform, h]
  | update id data =>
      rcases storageUpdateEntry_cases env.done owner id data db with ⟨e, -, -, -, h⟩ | h
      · simp [perform, h]
      · simp [perform, h]
  | delete id =>
      rcases storageDeleteEntry_cases env.done owner id db with ⟨e, -, -, -, h⟩ | h
      · simp [perform, h]
      · simp [perform, h]

theorem Ordered.seq_le {s : σ} {i : ι} {db' : Db} (h : Ordered db orders s i db') :
    (db s).entries.seq ≤ db'.entries.seq := by
  rcases h with rfl | ⟨env, owner, c, -, rfl⟩
  · exact le_refl _
  · exact seq_le_perform env owner (db s) c

/-! ### Whole runs -/

/-- The row under an id is still the one of an owner and a timestamp, if it
is there at all. -/
structure OneRow (j : ℕ) (owner : Bytes) (ts : Int64) (db : Db) : Prop where
  old : j ≤ db.entries.seq
  same : ∀ e, db.entries.lookup j = some e → e.authPubkey = owner ∧ e.timestamp = ts

theorem oneRow_of_ordered {j : ℕ} {owner : Bytes} {ts : Int64} {s : σ} {i : ι} {db' : Db}
    (hone : OneRow j owner ts (db s)) (h : Ordered db orders s i db') :
    OneRow j owner ts db' := by
  refine ⟨le_trans hone.old h.seq_le, ?_⟩
  have hchange := h.rowChange j
  generalize hold : (db s).entries.lookup j = old at hchange
  generalize db'.entries.lookup j = new at hchange ⊢
  intro e he
  subst he
  cases hchange with
  | same => exact hone.same e hold
  | created hnew => exact absurd hone.old (not_le.mpr hnew)
  | rewritten => exact (hone.same _ hold :)

theorem oneRow_of_lookup {j : ℕ} {e : Entry} {db : Db} (h : db.entries.lookup j = some e) :
    OneRow j e.authPubkey e.timestamp db where
  old := db.entries.le_seq _ (AutoTable.lookup_eq_some_iff.mp h)
  same e' he' := by
    obtain rfl : e = e' := Option.some.inj (h.symm.trans he')
    exact ⟨rfl, rfl⟩

variable (h : ByOrders step db orders)

include h

theorem oneRow_final {j : ℕ} {owner : Bytes} {ts : Int64} {s : σ}
    (hone : OneRow j owner ts (db s)) (run : List ι) :
    OneRow j owner ts (db (final step s run)) :=
  final_invariant (I := fun s => OneRow j owner ts (db s))
    (fun s i hone => oneRow_of_ordered hone (h s i)) hone run

theorem changed_of_gone {s : σ} {run : List ι} {j : ℕ} {e : Entry}
    (hbefore : (db s).entries.lookup j = some e)
    (hafter : (db (final step s run)).entries.lookup j = none) :
    ∃ (d : Entry) (id : Int32), id.toNatClampNeg = j ∧
      ChangedIn step db orders s run j (some d) none e.authPubkey (.delete id) := by
  obtain ⟨js, i, ks, hrun, hthere, hgone⟩ := exists_step_of_final
    (P := fun s => (db s).entries.lookup j = none) run
    (by rw [hbefore]; exact Option.some_ne_none e) hafter
  obtain ⟨d, hd⟩ := Option.ne_none_iff_exists'.mp hthere
  -- until then it was the same row
  have howner := ((oneRow_final h (oneRow_of_lookup hbefore) js).same d hd).1
  have hchange := (h (final step s js) i).rowChange j
  rw [hgone, hd] at hchange
  cases hchange with
  | @gone _ id hid hordered =>
      rw [howner] at hordered
      exact ⟨d, id, hid, js, i, ks, hrun, hd, hgone, hordered⟩

theorem changed_of_rewritten {s : σ} {run : List ι} {j : ℕ} {e e' : Entry}
    (hbefore : (db s).entries.lookup j = some e)
    (hafter : (db (final step s run)).entries.lookup j = some e') (hdata : e'.data ≠ e.data) :
    RowWritten (ChangedIn step db orders s run j) j e' := by
  obtain ⟨js, i, ks, hrun, hnot, d, hd, hdd⟩ := exists_step_of_final
    (P := fun s => ∃ d, (db s).entries.lookup j = some d ∧ d.data = e'.data) run
    (by
      rintro ⟨d, hd, hdd⟩
      obtain rfl : e = d := Option.some.inj (hbefore.symm.trans hd)
      exact hdata hdd.symm)
    ⟨e', hafter, rfl⟩
  -- the row with the new data is the row of the end
  have hone := oneRow_final h (oneRow_of_lookup hbefore)
  obtain ⟨howner, hts⟩ := (hone (js ++ [i])).same d (by rw [final_concat]; exact hd)
  obtain ⟨howner', hts'⟩ := (hone run).same e' hafter
  obtain rfl : d = e' := Entry.ext (howner.trans howner'.symm) (hts.trans hts'.symm) hdd
  have hchange := (h (final step s js) i).rowChange j
  rw [hd] at hchange
  generalize hold : (db (final step s js)).entries.lookup j = old at hchange
  cases hchange with
  | same => exact absurd ⟨d, hold, rfl⟩ hnot
  | created hnew => exact absurd (hone js).old (not_le.mpr hnew)
  | @rewritten d' id data hid hordered =>
      exact ⟨d', id, hid, js, i, ks, hrun, hold, hd, hordered⟩

theorem changed_of_created {s : σ} {run : List ι} {j : ℕ} {e' : Entry}
    (hbefore : (db s).entries.lookup j = none)
    (hafter : (db (final step s run)).entries.lookup j = some e') :
    ∃ data,
      ChangedIn step db orders s run j none (some { e' with data := data }) e'.authPubkey
        (.post e'.timestamp data) ∧
      (e'.data ≠ data → RowWritten (ChangedIn step db orders s run j) j e') := by
  obtain ⟨js, i, ks, hrun, hnot, hthere⟩ := exists_step_of_final
    (P := fun s => (db s).entries.lookup j ≠ none) run (not_not.mpr hbefore)
    (by rw [hafter]; exact Option.some_ne_none e')
  obtain ⟨d, hd⟩ := Option.ne_none_iff_exists'.mp hthere
  rw [← final_concat] at hd
  have hafter' := hafter
  rw [hrun, List.append_cons, final_append] at hafter'
  -- the row is still the one that was created
  obtain ⟨howner, hts⟩ := (oneRow_final h (oneRow_of_lookup hd) ks).same e' hafter'
  have hd' : { e' with data := d.data } = d := Entry.ext howner hts rfl
  have hchange := (h (final step s js) i).rowChange j
  rw [← final_concat, hd, not_not.mp hnot] at hchange
  cases hchange with
  | created hnew hordered =>
      refine ⟨d.data, ⟨js, i, ks, hrun, not_not.mp hnot, ?_, ?_⟩, fun hdata => ?_⟩
      · rw [hd', ← final_concat]
        exact hd
      · rwa [howner, hts]
      · -- what it holds now was written later
        obtain ⟨b, id, hid, hchanged⟩ := changed_of_rewritten h hd hafter' hdata
        refine ⟨b, id, hid, ?_⟩
        rw [hrun, List.append_cons]
        exact hchanged.prepend (js ++ [i])

omit h

/-- What becomes of the row under an id, from `before` to `after`, and in
which steps.  The row created under an id is the one that was posted, and if
it has other data by then, that was written later. -/
structure RowHistory (changed : Option Entry → Option Entry → Bytes → Command → Prop) (j : ℕ)
    (before after : Option Entry) : Prop where
  gone : ∀ e, before = some e → after = none →
    ∃ (d : Entry) (id : Int32), id.toNatClampNeg = j ∧
      changed (some d) none e.authPubkey (.delete id)
  kept : ∀ e e', before = some e → after = some e' →
    e'.authPubkey = e.authPubkey ∧ e'.timestamp = e.timestamp ∧
      (e'.data ≠ e.data → RowWritten changed j e')
  created : ∀ e', before = none → after = some e' →
    ∃ data, changed none (some { e' with data := data }) e'.authPubkey (.post e'.timestamp data) ∧
      (e'.data ≠ data → RowWritten changed j e')

theorem RowWritten.imp {C C' : Option Entry → Option Entry → Bytes → Command → Prop}
    (hC : ∀ o o' owner c, C o o' owner c → C' o o' owner c) {j : ℕ} {e : Entry}
    (h : RowWritten C j e) : RowWritten C' j e := by
  obtain ⟨d, id, hid, hchanged⟩ := h
  exact ⟨d, id, hid, hC _ _ _ _ hchanged⟩

theorem RowHistory.imp {C C' : Option Entry → Option Entry → Bytes → Command → Prop}
    (hC : ∀ o o' owner c, C o o' owner c → C' o o' owner c) {j : ℕ} {before after : Option Entry}
    (h : RowHistory C j before after) : RowHistory C' j before after where
  gone e hbefore hafter := by
    obtain ⟨d, id, hid, hchanged⟩ := h.gone e hbefore hafter
    exact ⟨d, id, hid, hC _ _ _ _ hchanged⟩
  kept e e' hbefore hafter := by
    obtain ⟨howner, hts, hdata⟩ := h.kept e e' hbefore hafter
    exact ⟨howner, hts, fun hne => (hdata hne).imp hC⟩
  created e' hbefore hafter := by
    obtain ⟨data, hposted, hdata⟩ := h.created e' hbefore hafter
    exact ⟨data, hC _ _ _ _ hposted, fun hne => (hdata hne).imp hC⟩

/-- **Rows by orders.** -/
theorem rows_by_orders (h : ByOrders step db orders) (s : σ) (run : List ι) (j : ℕ) :
    RowHistory (ChangedIn step db orders s run j) j ((db s).entries.lookup j)
      ((db (final step s run)).entries.lookup j) where
  gone _ hbefore hafter := changed_of_gone h hbefore hafter
  kept e e' hbefore hafter := by
    obtain ⟨howner, hts⟩ := (oneRow_final h (oneRow_of_lookup hbefore) run).same e' hafter
    exact ⟨howner, hts, changed_of_rewritten h hbefore hafter⟩
  created _ hbefore hafter := changed_of_created h hbefore hafter

end Diary
