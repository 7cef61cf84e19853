/-
Diary/Storage.lean

server/storage.c: the two tables and the SQL statements on them.

`users` has the primary key `auth_pubkey`, `entries` an autoincrement key.
A write statement takes one bit from outside, `done`: whether
`sqlite3_step` returned `SQLITE_DONE`.  When it did not (the database stayed
busy, say) the statement changed nothing.  A full table, whose counter has
reached the last rowid, is the one failure the model decides itself.

Row ids are natural numbers here, 1 to 2^63 - 1; the code narrows them to
`int` on the way out (`rowidToInt`) and widens an `int` on the way in.
-/
import Diary.AutoTable
import Diary.CString

namespace Diary

open CString

/-- A row of `entries`, beside its id. -/
@[ext] structure Entry where
  authPubkey : Bytes
  timestamp : Int64
  data : Bytes
deriving DecidableEq

/-- The table `users`: one row for each `auth_pubkey`. -/
structure UserTable where
  rows : List (Bytes × Bytes)
  nodup : (rows.map Prod.fst).Nodup

/-- The database file. -/
structure Db where
  users : UserTable
  entries : AutoTable Entry

/-- What `storage_init` makes of a file that does not exist. -/
def Db.fresh : Db where
  users := ⟨[], List.nodup_nil⟩
  entries := AutoTable.empty

/-! ### Users -/

/-- `storage_user_exists`. -/
def storageUserExists (authPubkey : Bytes) (db : Db) : Bool :=
  db.users.rows.any (fun r => r.1 == authPubkey)

/-- The table after `INSERT OR IGNORE` of a row. -/
def UserTable.insertOrIgnore (t : UserTable) (authPubkey encryptPubkey : Bytes) : UserTable :=
  if h : authPubkey ∈ t.rows.map Prod.fst then t
  else
    { rows := (authPubkey, encryptPubkey) :: t.rows
      nodup := by simpa using ⟨by simpa using h, t.nodup⟩ }

/-- `storage_register_user`. -/
def storageRegisterUser (done : Bool) (authPubkey encryptPubkey : Bytes) (db : Db) :
    Db × Int32 :=
  if done then ({ db with users := db.users.insertOrIgnore authPubkey encryptPubkey }, 0)
  else (db, -1)

/-- `storage_get_encrypt_pubkey`. -/
def storageGetEncryptPubkey (authPubkey : Bytes) (db : Db) : Option Bytes :=
  (db.users.rows.find? (fun r => r.1 == authPubkey)).map Prod.snd

/-! ### Entries -/

/-- A rowid read through an `int`: `(int)sqlite3_last_insert_rowid` and
`sqlite3_column_int`. -/
def rowidToInt (id : ℕ) : Int32 := (Int64.ofNat id).toInt32

/-- The last rowid SQLite assigns. -/
def maxRowid : ℕ := 2 ^ 63 - 1

/-- `WHERE auth_pubkey=?`. -/
def ownedBy (user : Bytes) (r : ℕ × Entry) : Bool := r.2.authPubkey == user

/-- `WHERE id=? AND auth_pubkey=?`, the id bound as an `int`. -/
def namedBy (user : Bytes) (id : Int32) (r : ℕ × Entry) : Bool :=
  (r.1 : ℤ) == id.toInt && r.2.authPubkey == user

/-- `storage_add_entry`. -/
def storageAddEntry (done : Bool) (user data : Bytes) (ts : Int64) (db : Db) : Db × Int32 :=
  if done = true ∧ db.entries.seq < maxRowid then
    let entries := db.entries.insert ⟨user, ts, data⟩
    ({ db with entries := entries }, rowidToInt entries.seq)
  else (db, -1)

/-- `storage_get_entries`: the callback runs over the user's rows in
ascending id order. -/
def storageGetEntries {β : Type*} (user : Bytes) (cb : Int32 → Int64 → Bytes → β → β)
    (userdata : β) (db : Db) : β :=
  (db.entries.select (ownedBy user)).foldl
    (fun ud r => cb (rowidToInt r.1) r.2.timestamp r.2.data ud) userdata

/-- `storage_update_entry`. -/
def storageUpdateEntry (done : Bool) (user : Bytes) (id : Int32) (data : Bytes) (db : Db) :
    Db × Int32 :=
  if done then
    let changed := db.entries.count (namedBy user id)
    ({ db with entries := db.entries.modify (namedBy user id) fun e => { e with data := data } },
      if 0 < changed then 0 else -1)
  else (db, -1)

/-- `storage_delete_entry`. -/
def storageDeleteEntry (done : Bool) (user : Bytes) (id : Int32) (db : Db) : Db × Int32 :=
  if done then
    let changed := db.entries.count (namedBy user id)
    ({ db with entries := db.entries.remove (namedBy user id) },
      if 0 < changed then 0 else -1)
  else (db, -1)

/-! ### Rowids below `2^31` survive the narrowing -/

theorem toInt_rowidToInt {id : ℕ} (h : id < 2 ^ 31) : (rowidToInt id).toInt = id := by
  rw [rowidToInt, Int64.toInt_toInt32, Int64.toInt_ofNat_of_lt (by omega)]
  exact Int.bmod_eq_of_le (by omega) (by omega)

/-- Read back as a rowid, it is the one it was. -/
theorem toNatClampNeg_rowidToInt {id : ℕ} (h : id < 2 ^ 31) :
    (rowidToInt id).toNatClampNeg = id := by
  rw [← Int32.toNat_toInt, toInt_rowidToInt h, Int.toNat_natCast]

theorem rowidToInt_not_neg {id : ℕ} (h : id < 2 ^ 31) : ¬ (rowidToInt id).toInt < 0 := by
  rw [toInt_rowidToInt h]
  omega

theorem lt_maxRowid {id : ℕ} (h : id < 2 ^ 31) : id < maxRowid := lt_trans h (by decide)

/-! ### One lemma for each statement -/

theorem namedBy_iff {user : Bytes} {id : Int32} {k : ℕ} {e : Entry} :
    namedBy user id (k, e) = true ↔ (k : ℤ) = id.toInt ∧ e.authPubkey = user := by
  simp [namedBy]

/-- A statement that names a row names the one under the id's value. -/
theorem namedBy_of_ne {user : Bytes} {id : Int32} {k : ℕ} (h : k ≠ id.toNatClampNeg)
    (e : Entry) : namedBy user id (k, e) = false := by
  refine Bool.eq_false_iff.mpr fun hp => h ?_
  rw [← Int32.toNat_toInt, ← (namedBy_iff.mp hp).1, Int.toNat_natCast]

theorem namedBy_self {db : Db} {user : Bytes} {id : Int32} {e : Entry}
    (he : db.entries.lookup id.toNatClampNeg = some e) (hu : e.authPubkey = user) :
    namedBy user id (id.toNatClampNeg, e) = true := by
  have hpos := db.entries.pos _ (AutoTable.lookup_eq_some_iff.mp he)
  rw [← Int32.toNat_toInt] at hpos ⊢
  exact namedBy_iff.mpr ⟨by simp only at hpos; omega, hu⟩

theorem count_namedBy_pos {db : Db} {user : Bytes} {id : Int32} :
    0 < db.entries.count (namedBy user id) ↔
      ∃ e, db.entries.lookup id.toNatClampNeg = some e ∧ e.authPubkey = user := by
  rw [AutoTable.count_pos_iff]
  constructor
  · rintro ⟨k, e, hk, hp⟩
    obtain ⟨hid, hu⟩ := namedBy_iff.mp hp
    refine ⟨e, ?_, hu⟩
    rwa [← Int32.toNat_toInt, ← hid, Int.toNat_natCast]
  · rintro ⟨e, he, hu⟩
    exact ⟨_, e, he, namedBy_self he hu⟩

/-- What an INSERT can do: append a row under the next id, or nothing. -/
theorem storageAddEntry_cases (done : Bool) (user data : Bytes) (ts : Int64) (db : Db) :
    (done = true ∧ db.entries.seq < maxRowid ∧
      storageAddEntry done user data ts db =
        ({ db with entries := db.entries.insert ⟨user, ts, data⟩ },
          rowidToInt (db.entries.seq + 1))) ∨
    storageAddEntry done user data ts db = (db, -1) := by
  by_cases h : done = true ∧ db.entries.seq < maxRowid
  · exact Or.inl ⟨h.1, h.2, if_pos h⟩
  · exact Or.inr (if_neg h)

/-- What an UPDATE can do: change the data of the one row it names, or
nothing. -/
theorem storageUpdateEntry_cases (done : Bool) (user : Bytes) (id : Int32) (data : Bytes)
    (db : Db) :
    (∃ e, done = true ∧ db.entries.lookup id.toNatClampNeg = some e ∧ e.authPubkey = user ∧
      storageUpdateEntry done user id data db =
        ({ db with entries :=
            db.entries.modify (namedBy user id) fun e => { e with data := data } }, 0)) ∨
    storageUpdateEntry done user id data db = (db, -1) := by
  cases done with
  | false => exact Or.inr rfl
  | true =>
      by_cases h : 0 < db.entries.count (namedBy user id)
      · obtain ⟨e, he, hu⟩ := count_namedBy_pos.mp h
        exact Or.inl ⟨e, rfl, he, hu, by simp [storageUpdateEntry, h]⟩
      · refine Or.inr ?_
        simp only [storageUpdateEntry, if_true, if_neg h, AutoTable.modify_of_count_zero h]

/-- What a DELETE can do: remove the one row it names, or nothing. -/
theorem storageDeleteEntry_cases (done : Bool) (user : Bytes) (id : Int32) (db : Db) :
    (∃ e, done = true ∧ db.entries.lookup id.toNatClampNeg = some e ∧ e.authPubkey = user ∧
      storageDeleteEntry done user id db =
        ({ db with entries := db.entries.remove (namedBy user id) }, 0)) ∨
    storageDeleteEntry done user id db = (db, -1) := by
  cases done with
  | false => exact Or.inr rfl
  | true =>
      by_cases h : 0 < db.entries.count (namedBy user id)
      · obtain ⟨e, he, hu⟩ := count_namedBy_pos.mp h
        exact Or.inl ⟨e, rfl, he, hu, by simp [storageDeleteEntry, h]⟩
      · refine Or.inr ?_
        simp only [storageDeleteEntry, if_true, if_neg h, AutoTable.remove_of_count_zero h]

/-- The map after an UPDATE that names a row of the user. -/
theorem lookup_modify_namedBy {db : Db} {user : Bytes} {id : Int32} {e : Entry}
    (he : db.entries.lookup id.toNatClampNeg = some e) (hu : e.authPubkey = user)
    (data : Bytes) :
    (db.entries.modify (namedBy user id) fun e => { e with data := data }).lookup
      = Function.update db.entries.lookup id.toNatClampNeg (some { e with data := data }) := by
  funext k
  rw [AutoTable.lookup_modify]
  by_cases hk : k = id.toNatClampNeg
  · subst hk
    rw [he, Function.update_self, Option.map_some, if_pos (namedBy_self he hu)]
  · rw [Function.update_of_ne hk]
    simp [namedBy_of_ne hk]

/-- The map after a DELETE that names a row of the user. -/
theorem lookup_remove_namedBy {db : Db} {user : Bytes} {id : Int32} {e : Entry}
    (he : db.entries.lookup id.toNatClampNeg = some e) (hu : e.authPubkey = user) :
    (db.entries.remove (namedBy user id)).lookup
      = Function.update db.entries.lookup id.toNatClampNeg none := by
  funext k
  rw [AutoTable.lookup_remove]
  by_cases hk : k = id.toNatClampNeg
  · subst hk
    rw [he, Function.update_self, Option.filter_some, namedBy_self he hu]
    rfl
  · rw [Function.update_of_ne hk]
    cases db.entries.lookup k with
    | none => rfl
    | some a => simp [namedBy_of_ne hk]

end Diary
