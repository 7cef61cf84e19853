/-
Diary/Book.lean

What the server is for: a book of entries, the partial map from ids to
(owner, timestamp, data), with the greatest id ever given out.
`Book.Step` says what a request may do to the book, and what its reply
then is; it knows nothing of tables, statements or request lines.

`book_step` is the refinement: whatever one request does to the database,
it does a step of the book.  `requests_refine_book` carries it to every
state any interleaving of requests can reach, and adds that ids are never
reused.
-/
import Diary.Handler

namespace Diary

open CString Machine

/-! ### The book -/

/-- The entries by id, and the greatest id ever given out. -/
structure Book where
  entry : ℕ → Option Entry
  last : ℕ

/-- The book a database holds. -/
def Db.book (db : Db) : Book := ⟨db.entries.lookup, db.entries.seq⟩

/-- A reply that acknowledges a change. -/
def Reply.Acknowledges : Reply → Prop
  | .okId _ | .ok => True
  | .bye | .entries _ | .fail _ => False

/-- What a command of `user` may do to the book under a reply. -/
inductive Book.Step (user : Bytes) : Command → Reply → Book → Book → Prop
  | post {b : Book} {ts : Int64} {data : Bytes} {id : Int32}
      (hid : id.toInt = (b.last + 1 : ℕ)) (hfresh : ∀ k, b.last < k → b.entry k = none) :
      Book.Step user (.post ts data) (.okId id) b
        ⟨Function.update b.entry (b.last + 1) (some ⟨user, ts, data⟩), b.last + 1⟩
  | update {b : Book} {id : Int32} {data : Bytes} {e : Entry}
      (he : b.entry id.toNatClampNeg = some e) (hu : e.authPubkey = user) :
      Book.Step user (.update id data) .ok b
        ⟨Function.update b.entry id.toNatClampNeg (some { e with data := data }), b.last⟩
  | delete {b : Book} {id : Int32} {e : Entry}
      (he : b.entry id.toNatClampNeg = some e) (hu : e.authPubkey = user) :
      Book.Step user (.delete id) .ok b
        ⟨Function.update b.entry id.toNatClampNeg none, b.last⟩
  | skip {c : Command} {reply : Reply} {b : Book} (h : ¬ reply.Acknowledges) :
      Book.Step user c reply b b

/-! ### The statements on the book -/

theorem book_insert (db : Db) (e : Entry) :
    Db.book { db with entries := db.entries.insert e }
      = ⟨Function.update db.book.entry (db.book.last + 1) (some e), db.book.last + 1⟩ := by
  simp [Db.book, AutoTable.lookup_insert]

theorem book_modify {db : Db} {user data : Bytes} {id : Int32} {e : Entry}
    (he : db.entries.lookup id.toNatClampNeg = some e) (hu : e.authPubkey = user) :
    Db.book { db with entries :=
        db.entries.modify (namedBy user id) fun e => { e with data := data } }
      = ⟨Function.update db.book.entry id.toNatClampNeg (some { e with data := data }),
          db.book.last⟩ := by
  simp [Db.book, lookup_modify_namedBy he hu data]

theorem book_remove {db : Db} {user : Bytes} {id : Int32} {e : Entry}
    (he : db.entries.lookup id.toNatClampNeg = some e) (hu : e.authPubkey = user) :
    Db.book { db with entries := db.entries.remove (namedBy user id) }
      = ⟨Function.update db.book.entry id.toNatClampNeg none, db.book.last⟩ := by
  simp [Db.book, lookup_remove_namedBy he hu]

theorem book_entry_of_last_lt {db : Db} {k : ℕ} (h : db.book.last < k) :
    db.book.entry k = none :=
  AutoTable.lookup_of_seq_lt h

/-! ### One request is one step -/

/-- **Refinement step.**  While ids fit an `int`, one request steps the
book, and only an acknowledged request changes the database at all. -/
theorem book_step {db db' : Db} {r : Request} {reply : Reply}
    (hs : serve db r = (db', reply)) (hids : db'.entries.seq < 2 ^ 31) :
    Book.Step r.user (parseLine r.env.now r.line) reply db.book db'.book ∧
      (¬ reply.Acknowledges → db' = db) := by
  cases effect_of_serve hs with
  | post hline hroom =>
      have hid : (rowidToInt (db.entries.seq + 1)).toInt = (db.entries.seq + 1 : ℕ) :=
        toInt_rowidToInt hids
      -- the id narrows to itself, so the reply is no failure and the key is new
      rw [if_neg (by omega), hline, book_insert]
      exact ⟨.post hid fun k => book_entry_of_last_lt, fun h => absurd trivial h⟩
  | update hline he hu =>
      rw [hline, book_modify he hu]
      exact ⟨.update he hu, fun h => absurd trivial h⟩
  | delete hline he hu =>
      rw [hline, book_remove he hu]
      exact ⟨.delete he hu, fun h => absurd trivial h⟩
  | get hline => exact ⟨.skip id, fun _ => rfl⟩
  | bye hline => exact ⟨.skip id, fun _ => rfl⟩
  | fail why => exact ⟨.skip id, fun _ => rfl⟩

/-- An acknowledged POST gets the id after the last one. -/
theorem book_post_id {user : Bytes} {c : Command} {id : Int32} {b b' : Book}
    (h : Book.Step user c (.okId id) b b') : b.last < id.toNatClampNeg := by
  cases h with
  | post hval hfresh =>
      rw [← Int32.toNat_toInt, hval, Int.toNat_natCast]
      exact Nat.lt_succ_self _
  | skip h => exact absurd trivial h

/-! ### Every reachable state -/

/-- The ids given out in a run: a ghost list, the newest last. -/
def noteId (ids : List ℕ) (q : Request × Reply) : List ℕ :=
  match q.2 with
  | .okId id => ids ++ [id.toNatClampNeg]
  | _ => ids

/-- The ids a run acknowledged. -/
def assignedIds (db : Db) (reqs : List Request) : List ℕ :=
  (trace serve db reqs).foldl noteId (db.entries.rows.map Prod.fst)

/-- The counter stays below a bound only if it was below before. -/
theorem seq_lt_of_serve {n : ℕ} (db : Db) (r : Request)
    (h : (serve db r).1.entries.seq < n) : db.entries.seq < n :=
  lt_of_le_of_lt (seq_le_serve db r) h

theorem noteId_serve {db : Db} {ids : List ℕ} {r : Request}
    (hids : (serve db r).1.entries.seq < 2 ^ 31) (h : ∀ k ∈ ids, k ≤ db.entries.seq) :
    ∀ k ∈ noteId ids (r, (serve db r).2), k ≤ (serve db r).1.entries.seq := by
  rcases hs : serve db r with ⟨db', reply⟩
  rw [hs] at hids
  cases effect_of_serve hs with
  | post hline hroom =>
      have hid : (rowidToInt (db.entries.seq + 1)).toInt = (db.entries.seq + 1 : ℕ) :=
        toInt_rowidToInt hids
      rw [if_neg (by omega)]
      intro k hk
      rcases List.mem_append.mp hk with hk | hk
      · exact Nat.le_succ_of_le (h k hk)
      · obtain rfl : k = (rowidToInt (db.entries.seq + 1)).toNatClampNeg := by simpa using hk
        exact Nat.le_of_eq (toNatClampNeg_rowidToInt hids)
  | update | delete | get | bye | fail => exact h

theorem assignedIds_le {db : Db} {reqs : List Request}
    (hids : (final serve db reqs).entries.seq < 2 ^ 31) :
    ∀ k ∈ assignedIds db reqs, k ≤ (final serve db reqs).entries.seq := by
  have h₀ : ∀ k ∈ db.entries.rows.map Prod.fst, k ≤ db.entries.seq := by
    intro k hk
    obtain ⟨row, hrow, rfl⟩ := List.mem_map.mp hk
    exact db.entries.le_seq row hrow
  -- the ghost list only grows, by the counter's new value
  exact monitor (R := fun db ids => ∀ k ∈ ids, k ≤ db.entries.seq)
    (B := fun db => db.entries.seq < 2 ^ 31) (fun db r => seq_lt_of_serve db r)
    (fun db ids r hids h => noteId_serve hids h) h₀ reqs hids

/-- **The command loop refines the book.**  From every state that an
interleaving of request lines of any users reaches, the next request steps
the book as its command and reply say; a request that is not acknowledged
leaves both tables unchanged; and the id of an acknowledged POST is greater
than every id any row ever had. -/
theorem requests_refine_book (db : Db) (reqs : List Request) (r : Request)
    (hids : (final serve db (reqs ++ [r])).entries.seq < 2 ^ 31) :
    let db₁ := final serve db reqs
    let db₂ := (serve db₁ r).1
    let reply := (serve db₁ r).2
    Book.Step r.user (parseLine r.env.now r.line) reply db₁.book db₂.book ∧
      db₂.users = db₁.users ∧
      (¬ reply.Acknowledges → db₂ = db₁) ∧
      ∀ id, reply = .okId id → ∀ k ∈ assignedIds db reqs, k < id.toNatClampNeg := by
  intro db₁ db₂ reply
  rw [final_concat] at hids
  obtain ⟨hstep, hskip⟩ := book_step (r := r) (Prod.mk.eta (p := serve db₁ r)).symm hids
  refine ⟨hstep, users_serve _ _, hskip, fun id hid k hk => ?_⟩
  have hle := assignedIds_le (seq_lt_of_serve _ r hids) k hk
  change (serve db₁ r).2 = .okId id at hid
  rw [hid] at hstep
  exact lt_of_le_of_lt hle (book_post_id hstep)

theorem requests_refine_book_update :
    let post : Request := ⟨lit "alice", ⟨7, true, true, []⟩, lit "POST aGk="⟩
    let update : Request := ⟨lit "alice", ⟨8, true, true, []⟩, lit "UPDATE 1 eW8="⟩
    (serve (final serve Db.fresh [post]) update).2 = .ok ∧
      Book.Step (lit "alice") (.update 1 (lit "eW8=")) .ok
        (final serve Db.fresh [post]).book (final serve Db.fresh [post, update]).book := by
  intro post update
  exact ⟨by decide, (requests_refine_book Db.fresh [post] update (by decide)).1⟩

end Diary
