/-
Diary/RowIds.lean

The ids on the wire against the rows they came from.

SQLite assigns rowids up to 2^63 - 1; `storage_add_entry` and
`storage_get_entries` narrow them to `int`, UPDATE and DELETE read an `int`
back.  `Db.Names` says what an id on the wire is for: it names one row of
the table in every command that carries it.

The narrowing keeps that meaning exactly below 2^31
(`wire_ids_name_rows_iff`): from there on a POST whose row was stored is
answered FAIL, or gets the id of an older row (`narrowed_ids_fail`).
-/
import Diary.View

namespace Diary

open CString

/-- The `int` `id` names the row `k` of the user: no other row has its
value, a GET prints it at the head of that row's line, and an UPDATE or a
DELETE that carries it touches that row and no other. -/
structure Db.Names (db : Db) (user : Bytes) (k : ℕ) (id : Int32) : Prop where
  row : ∃ e, db.entries.lookup k = some e ∧ e.authPubkey = user
  alone : ∀ r ∈ db.entries.rows, (r.1 : ℤ) = id.toInt ↔ r.1 = k
  printed : ∀ env : Env, env.calloc = true → (∀ b ∈ env.malloc, b = true) →
    ∀ i < maxEntries, ∀ e, (db.entries.select (ownedBy user))[i]? = some (k, e) →
      ∃ line, (diaryCommand env user (lit "GET") db).2.lines[i + 1]? = some line ∧
        (dec id.toInt ++ [32]) <+: line
  updated : ∀ (env : Env) (data : Bytes), env.done = true →
    ∃ db', diaryCommand env user (lit "UPDATE " ++ (dec id.toInt ++ 32 :: data)) db
        = (db', .ok) ∧
      db'.entries.lookup = Function.update db.entries.lookup k
        ((db.entries.lookup k).map fun e => { e with data := data })
  deleted : ∀ env : Env, env.done = true →
    ∃ db', diaryCommand env user (lit "DELETE " ++ dec id.toInt) db = (db', .ok) ∧
      db'.entries.lookup = Function.update db.entries.lookup k none

/-! ### Below `2^31` -/

/-- The line of a row in the reply to a GET. -/
theorem line_get {db : Db} {user : Bytes} {env : Env} (hcalloc : env.calloc = true)
    (hmalloc : ∀ b ∈ env.malloc, b = true) {i : ℕ} (hi : i < maxEntries) {r : ℕ × Entry}
    (hr : (db.entries.select (ownedBy user))[i]? = some r) :
    (diaryCommand env user (lit "GET") db).2.lines[i + 1]?
      = some (EntryLine.ofRow r).text := by
  have hview : (db.view user)[i]? = some (EntryLine.ofRow r) := by
    rw [Db.view, List.getElem?_map, hr, Option.map_some]
  rw [diaryCommand_eq, parseLine_get rfl]
  simp only [perform, hcalloc, Bool.true_eq_false, if_false, Reply.lines,
    storageGetEntries_collectEntry, collect_eq_take hmalloc]
  rw [List.getElem?_cons_succ, List.getElem?_map, List.getElem?_take_of_lt hi, hview,
    Option.map_some]

/-- A rowid below `2^31` names its row by the `int` it is narrowed to. -/
theorem names_of_lt {db : Db} {user : Bytes} {k : ℕ} {e : Entry} (hk : k < 2 ^ 31)
    (he : db.entries.lookup k = some e) (hu : e.authPubkey = user) :
    db.Names user k (rowidToInt k) := by
  have hint := toInt_rowidToInt hk
  have hnat := toNatClampNeg_rowidToInt hk
  have he' : db.entries.lookup (rowidToInt k).toNatClampNeg = some e := by rw [hnat, he]
  -- both write statements touch a row, the one named
  have hcount : 0 < db.entries.count (namedBy user (rowidToInt k)) :=
    count_namedBy_pos.mpr ⟨e, he', hu⟩
  refine ⟨⟨e, he, hu⟩, ?_, ?_, ?_, ?_⟩
  · intro r _
    rw [hint, Nat.cast_inj]
  · intro env hcalloc hmalloc i hi e' hrow
    refine ⟨_, line_get hcalloc hmalloc hi hrow, ?_⟩
    have hpos : 0 ≤ (EntryLine.ofRow (k, e')).id.toInt := by
      show 0 ≤ (rowidToInt k).toInt
      rw [hint]
      exact Int.natCast_nonneg k
    rw [text_eq_row hpos]
    exact ⟨dec e'.timestamp.toInt ++ 32 :: e'.data, by simp [EntryLine.row, EntryLine.ofRow]⟩
  · intro env data hdone
    refine ⟨{ db with entries := db.entries.modify (namedBy user (rowidToInt k)) fun e =>
        { e with data := data } }, ?_, ?_⟩
    · rw [diaryCommand_eq, parseLine_update]
      simp only [perform, storageUpdateEntry, hdone, if_true, hcount]
    · rw [lookup_modify_namedBy he' hu, hnat, he, Option.map_some]
  · intro env hdone
    refine ⟨{ db with entries := db.entries.remove (namedBy user (rowidToInt k)) }, ?_, ?_⟩
    · rw [diaryCommand_eq, parseLine_delete]
      simp only [perform, storageDeleteEntry, hdone, if_true, hcount]
    · rw [lookup_remove_namedBy he' hu, hnat]

/-! ### From `2^31` on -/

/-- Whatever names a row has its value, which is that of an `int`. -/
theorem lt_of_names {db : Db} {user : Bytes} {k : ℕ} {id : Int32}
    (h : db.Names user k id) : k < 2 ^ 31 := by
  obtain ⟨e, he, -⟩ := h.row
  have hid : (k : ℤ) = id.toInt :=
    (h.alone _ (AutoTable.lookup_eq_some_iff.mp he)).mpr rfl
  have hlt := Int32.toInt_lt id
  omega

/-- **The ids on the wire name their rows exactly below `2^31`.**  A POST
whose INSERT succeeds is answered with an id that names the new row iff the
rowid SQLite assigns is below `2^31`; and a row of the table is named by an
id, its own, iff its rowid is. -/
theorem wire_ids_name_rows_iff (db : Db) (user : Bytes) :
    (∀ (env : Env) (payload : Bytes), env.done = true → db.entries.seq < maxRowid →
      let r := diaryCommand env user (lit "POST " ++ payload) db
      (∃ id, r.2 = .okId id ∧ r.1.Names user (db.entries.seq + 1) id) ↔
        db.entries.seq + 1 < 2 ^ 31) ∧
    ∀ k e, db.entries.lookup k = some e → e.authPubkey = user →
      (db.Names user k (rowidToInt k) ↔ k < 2 ^ 31) ∧
        ∀ id, db.Names user k id → id = rowidToInt k := by
  refine ⟨?_, ?_⟩
  · intro env payload hdone hroom r
    constructor
    · rintro ⟨id, -, hnames⟩
      exact lt_of_names hnames
    · intro hlt
      have hline := parseLine_post env.now payload
      have hr := serve_post (r := ⟨user, env, lit "POST " ++ payload⟩) hline hdone hlt
      rw [show r = _ from hr]
      refine ⟨_, rfl, names_of_lt (e := ⟨user, (postFields env.now payload).1,
        (postFields env.now payload).2⟩) hlt ?_ rfl⟩
      rw [AutoTable.lookup_insert, Function.update_self]
  · intro k e he hu
    refine ⟨⟨lt_of_names, fun hk => names_of_lt hk he hu⟩, ?_⟩
    intro id hnames
    have hk := lt_of_names hnames
    have hid := (hnames.alone _ (AutoTable.lookup_eq_some_iff.mp he)).mpr rfl
    rw [← Int32.toInt_inj, ← hid, toInt_rowidToInt hk]

theorem wire_ids_name_rows_fresh :
    let r := diaryCommand ⟨7, true, true, []⟩ (lit "alice") (lit "POST " ++ lit "aGk=") Db.fresh
    ∃ id, r.2 = .okId id ∧ r.1.Names (lit "alice") (Db.fresh.entries.seq + 1) id :=
  ((wire_ids_name_rows_iff Db.fresh (lit "alice")).1 ⟨7, true, true, []⟩ (lit "aGk=") rfl
    (by decide)).mpr (by decide)

/-- A database whose `sqlite_sequence` has reached `seq`, with one row of
another user in it. -/
def Db.worn (seq : ℕ) (h : 1 ≤ seq) : Db where
  users := ⟨[], List.nodup_nil⟩
  entries :=
    { rows := [(1, ⟨lit "bob", 5, lit "Ym9i"⟩)]
      seq := seq
      sorted := List.pairwise_singleton _ _
      pos := by simp
      le_seq := by simpa using h }

/-- The row `2^31` is stored and the POST answered FAIL; the row `2^32 + 1`
is answered `OK 1`, the id of another row. -/
theorem narrowed_ids_fail :
    let env : Env := ⟨7, true, true, []⟩
    let wrap := Db.worn (2 ^ 31 - 1) (by decide)
    let again := Db.worn (2 ^ 32) (by decide)
    let post := diaryCommand env (lit "alice") (lit "POST " ++ lit "aGk=")
    (post wrap).2 = .fail .saveEntry ∧
      (post wrap).1.entries.lookup (2 ^ 31) = some ⟨lit "alice", 7, lit "aGk="⟩ ∧
      (post again).2 = .okId 1 ∧
      (post again).1.entries.lookup 1 = some ⟨lit "bob", 5, lit "Ym9i"⟩ ∧
      ¬ ∃ id, (post wrap).2 = .okId id ∧ (post wrap).1.Names (lit "alice") (2 ^ 31) id := by
  refine ⟨by decide, by decide, by decide, by decide, ?_⟩
  rintro ⟨id, hok, -⟩
  cases hok

end Diary
