/-
Diary/View.lean

What one user sees of the database: the user's rows, in id order, with ids
as they are printed.

* A request of another user leaves the view alone (`view_serve_of_ne`).
* A request of the user is answered from the view alone, but for the id a
  POST gets (`answer_serve`), and changes the view as the reply says
  (`view_serve`).

So the view is a ghost of the replies: `acknowledged_eq_view` says that
keeping the acknowledged entries in a list, as a session could, gives
exactly the view.  With it a GET is compared to what was acknowledged
(`get_after_requests`): it returns the first `MAX_ENTRIES` of those
entries, and all of them as long as there are no more.
-/
import Diary.Book

namespace Diary

open CString Machine

/-! ### The view -/

/-- A row as `collect_entry` is told about it. -/
def EntryLine.ofRow (r : ℕ × Entry) : EntryLine := ⟨rowidToInt r.1, r.2.timestamp, r.2.data⟩

/-- The rows of a user. -/
def Db.view (user : Bytes) (db : Db) : List EntryLine :=
  (db.entries.select (ownedBy user)).map EntryLine.ofRow

/-- The lines a GET collects out of a view. -/
def collect (malloc : List Bool) (v : List EntryLine) : List EntryLine :=
  (v.foldl (fun c l => collectEntry l.id l.ts l.data c) ⟨[], malloc⟩).lines

theorem storageGetEntries_collectEntry (user : Bytes) (malloc : List Bool) (db : Db) :
    (storageGetEntries user collectEntry ⟨[], malloc⟩ db).lines
      = collect malloc (db.view user) := by
  simp only [storageGetEntries, collect, Db.view, List.foldl_map, EntryLine.ofRow]

/-- The data of the row under an id is replaced. -/
def EntryLine.withData (id : Int32) (data : Bytes) (l : EntryLine) : EntryLine :=
  if l.id = id then { l with data := data } else l

/-- The acknowledged entries of a user, after one more request and its
reply: what was said to be stored, changed and removed. -/
def noteEntry (user : Bytes) (v : List EntryLine) (q : Request × Reply) : List EntryLine :=
  if q.1.user = user then
    match parseLine q.1.env.now q.1.line, q.2 with
    | .post ts data, .okId id => v ++ [⟨id, ts, data⟩]
    | .update id data, .ok => v.map (EntryLine.withData id data)
    | .delete id, .ok => v.filter fun l => l.id ≠ id
    | _, _ => v
  else v

theorem noteEntry_of_not_acknowledges {user : Bytes} {v : List EntryLine} {r : Request}
    {reply : Reply} (h : ¬ reply.Acknowledges) : noteEntry user v (r, reply) = v := by
  cases reply with
  | okId id | ok => exact absurd trivial h
  | bye | entries lines | fail why =>
      rw [noteEntry]
      split
      · cases parseLine r.env.now r.line <;> rfl
      · rfl

/-- The reply to a command of a user whose view is `v`, when the next rowid
prints as `next`. -/
def answer (env : Env) (next : Int32) (v : List EntryLine) : Command → Reply
  | .quit => .bye
  | .post _ _ => if env.done then .okId next else .fail .saveEntry
  | .get => if env.calloc then .entries (collect env.malloc v) else .fail .outOfMemory
  | .update id _ | .delete id =>
      if env.done = true ∧ id ∈ v.map EntryLine.id then .ok else .fail .notFound
  | .badUpdate => .fail .updateFormat
  | .unknown => .fail .unknownCommand

/-! ### Ids in the view -/

theorem mem_view_iff {user : Bytes} {db : Db} {l : EntryLine} :
    l ∈ db.view user ↔
      ∃ k e, (k, e) ∈ db.entries.rows ∧ e.authPubkey = user ∧ EntryLine.ofRow (k, e) = l := by
  simp only [Db.view, AutoTable.select, List.mem_map, List.mem_filter, ownedBy, beq_iff_eq,
    Prod.exists, and_assoc]

theorem rowidToInt_of_mem {db : Db} (hids : db.entries.seq < 2 ^ 31) {k : ℕ} {e : Entry}
    (h : (k, e) ∈ db.entries.rows) : (rowidToInt k).toInt = k :=
  toInt_rowidToInt (lt_of_le_of_lt (db.entries.le_seq _ h) hids)

/-- Ids in a view are positive and at most the counter. -/
theorem view_id_bounds {user : Bytes} {db : Db} (hids : db.entries.seq < 2 ^ 31)
    {l : EntryLine} (h : l ∈ db.view user) : 0 < l.id.toInt ∧ l.id.toInt ≤ db.entries.seq := by
  obtain ⟨k, e, hmem, -, rfl⟩ := mem_view_iff.mp h
  have hpos := db.entries.pos _ hmem
  have hle := db.entries.le_seq _ hmem
  have hk := rowidToInt_of_mem hids hmem
  simp only [EntryLine.ofRow, hk]
  omega

/-- A view is in ascending id order. -/
theorem view_ascending {user : Bytes} {db : Db} (hids : db.entries.seq < 2 ^ 31) :
    (db.view user).Pairwise fun l m => l.id.toInt < m.id.toInt := by
  apply List.pairwise_map.mpr
  have hsorted := db.entries.sorted.filter (ownedBy user)
  refine hsorted.imp_of_mem fun {r s} hr hs hlt => ?_
  have hr' := rowidToInt_of_mem hids (List.mem_of_mem_filter hr)
  have hs' := rowidToInt_of_mem hids (List.mem_of_mem_filter hs)
  simp only [EntryLine.ofRow, hr', hs']
  omega

/-- A row is named by an id exactly when its line carries that id. -/
theorem namedBy_eq_ofRow {user : Bytes} {db : Db} (hids : db.entries.seq < 2 ^ 31) (id : Int32)
    {r : ℕ × Entry} (hr : r ∈ db.entries.rows) (hu : ownedBy user r = true) :
    namedBy user id r = true ↔ (EntryLine.ofRow r).id = id := by
  have hk := rowidToInt_of_mem hids hr
  have hu' : r.2.authPubkey = user := by simpa [ownedBy] using hu
  rw [show r = (r.1, r.2) from rfl, namedBy_iff, ← Int32.toInt_inj]
  simp only [EntryLine.ofRow, hk]
  exact ⟨fun h => h.1, fun h => ⟨h, hu'⟩⟩

theorem owned_of_namedBy {user user' : Bytes} {id : Int32} {r : ℕ × Entry}
    (h : namedBy user id r = true) : ownedBy user' r = true ↔ user = user' := by
  have hu : r.2.authPubkey = user := (namedBy_iff (k := r.1) (e := r.2).mp h).2
  simp [ownedBy, hu]

/-- A statement that names a row by its id and owner touches one exactly
when the id is in the owner's view. -/
theorem count_namedBy_pos_iff_view (user : Bytes) {db : Db} (hids : db.entries.seq < 2 ^ 31)
    (id : Int32) :
    0 < db.entries.count (namedBy user id) ↔ id ∈ (db.view user).map EntryLine.id := by
  simp only [AutoTable.count, List.countP_pos_iff, Db.view, List.map_map, List.mem_map,
    AutoTable.select, List.mem_filter, Function.comp_apply]
  constructor
  · rintro ⟨r, hr, hp⟩
    have hu : ownedBy user r = true := (owned_of_namedBy hp).mpr rfl
    exact ⟨r, ⟨hr, hu⟩, (namedBy_eq_ofRow hids id hr hu).mp hp⟩
  · rintro ⟨r, ⟨hr, hu⟩, hid⟩
    exact ⟨r, hr, (namedBy_eq_ofRow hids id hr hu).mpr hid⟩

/-! ### The statements on the view -/

theorem view_insert (user : Bytes) (db : Db) (e : Entry) :
    Db.view user { db with entries := db.entries.insert e }
      = if e.authPubkey = user then
          db.view user ++ [⟨rowidToInt (db.entries.seq + 1), e.timestamp, e.data⟩]
        else db.view user := by
  simp only [Db.view, AutoTable.select, AutoTable.insert, List.filter_append, List.map_append]
  split
  · next hu => simp [ownedBy, hu, EntryLine.ofRow]
  · next hu => simp [ownedBy, hu]

/-- An UPDATE keeps every row's owner, so it commutes with the selection. -/
theorem ownedBy_modifyRow (user user' data : Bytes) (id : Int32) (r : ℕ × Entry) :
    ownedBy user' (AutoTable.modifyRow (namedBy user id) (fun e => { e with data := data }) r)
      = ownedBy user' r := by
  rw [AutoTable.modifyRow]
  split <;> rfl

theorem view_modify {user user' : Bytes} {db : Db} (hids : db.entries.seq < 2 ^ 31)
    (id : Int32) (data : Bytes) :
    Db.view user'
        { db with entries :=
            db.entries.modify (namedBy user id) fun e => { e with data := data } }
      = if user = user' then (db.view user').map (EntryLine.withData id data)
        else db.view user' := by
  have hsel : ∀ r ∈ db.entries.select (ownedBy user'),
      r ∈ db.entries.rows ∧ ownedBy user' r = true := fun r hr => List.mem_filter.mp hr
  have hcomm : (db.entries.modify (namedBy user id) fun e => { e with data := data }).select
        (ownedBy user')
      = (db.entries.select (ownedBy user')).map
          (AutoTable.modifyRow (namedBy user id) fun e => { e with data := data }) := by
    simp only [AutoTable.select, AutoTable.modify, List.filter_map]
    exact congrArg _ (List.filter_congr fun r _ => ownedBy_modifyRow user user' data id r)
  simp only [Db.view, hcomm, List.map_map]
  split
  · next hu =>
      -- the rows of the user: the one named is the one whose line has the id
      subst hu
      refine List.map_congr_left fun r hr => ?_
      obtain ⟨hmem, hown⟩ := hsel r hr
      have hiff := namedBy_eq_ofRow hids id hmem hown
      by_cases hp : namedBy user id r = true
      · have hid : rowidToInt r.1 = id := hiff.mp hp
        simp [AutoTable.modifyRow, EntryLine.withData, hp, hid, EntryLine.ofRow]
      · simp [AutoTable.modifyRow, EntryLine.withData, hp, mt hiff.mpr hp]
  · next hu =>
      -- the rows of someone else: none is named
      refine List.map_congr_left fun r hr => ?_
      have hp : ¬ namedBy user id r = true := fun hp =>
        hu ((owned_of_namedBy hp).mp (hsel r hr).2)
      simp [AutoTable.modifyRow, hp]

theorem view_remove {user user' : Bytes} {db : Db} (hids : db.entries.seq < 2 ^ 31)
    (id : Int32) :
    Db.view user' { db with entries := db.entries.remove (namedBy user id) }
      = if user = user' then (db.view user').filter fun l => l.id ≠ id
        else db.view user' := by
  simp only [Db.view, AutoTable.select, AutoTable.remove, List.filter_filter]
  split
  · next hu =>
      subst hu
      rw [List.filter_map, List.filter_filter]
      refine congrArg _ (List.filter_congr fun r hr => ?_)
      by_cases hown : ownedBy user r = true
      · have hiff := namedBy_eq_ofRow hids id hr hown
        by_cases hp : namedBy user id r = true
        · simp [hown, hp, hiff.mp hp]
        · simp [hown, hp, mt hiff.mpr hp]
      · simp [hown]
  · next hu =>
      refine congrArg _ (List.filter_congr fun r hr => ?_)
      by_cases hp : namedBy user id r = true
      · simp [Bool.eq_false_iff.mpr (mt (owned_of_namedBy hp).mp hu)]
      · simp [hp]

/-! ### One request and the views -/

/-- A request of another user leaves the view alone. -/
theorem view_serve_of_ne {user : Bytes} {db : Db} {r : Request} (hu : r.user ≠ user)
    (hids : (serve db r).1.entries.seq < 2 ^ 31) :
    (serve db r).1.view user = db.view user := by
  have hids₀ := seq_lt_of_serve db r hids
  rcases hs : serve db r with ⟨db', reply⟩
  cases effect_of_serve hs with
  | post hline hroom => rw [view_insert, if_neg hu]
  | update hline he howner => rw [view_modify hids₀, if_neg hu]
  | delete hline he howner => rw [view_remove hids₀, if_neg hu]
  | get | bye | fail => rfl

/-- **The reply is a function of the view**, but for the id a POST gets. -/
theorem answer_serve {db : Db} {r : Request} (hids : (serve db r).1.entries.seq < 2 ^ 31) :
    (serve db r).2 = answer r.env (rowidToInt (db.entries.seq + 1)) (db.view r.user)
      (parseLine r.env.now r.line) := by
  have hids₀ := seq_lt_of_serve db r hids
  have hroom := lt_maxRowid hids₀
  rw [serve_eq] at hids ⊢
  rcases hline : parseLine r.env.now r.line with - | ⟨ts, data⟩ | - | ⟨id, data⟩ | - | id | -
  · rfl
  · -- a POST: `hids` says that its row id survives the narrowing
    rw [hline] at hids
    cases hdone : r.env.done with
    | false => simp [perform, answer, storageAddEntry, hdone]
    | true =>
        simp only [perform, storageAddEntry, hdone, hroom, and_self, if_true,
          AutoTable.seq_insert] at hids
        have hid := rowidToInt_not_neg hids
        simp [perform, answer, storageAddEntry, hdone, hroom, hid]
  · cases hcalloc : r.env.calloc with
    | false => simp [perform, answer, hcalloc]
    | true => simp [perform, answer, hcalloc, storageGetEntries_collectEntry]
  · -- `sqlite3_changes` is positive exactly for an id in the view
    have hiff := count_namedBy_pos_iff_view r.user hids₀ id
    cases hdone : r.env.done with
    | false => simp [perform, answer, storageUpdateEntry, hdone]
    | true => simp only [perform, answer, storageUpdateEntry, hdone, hiff]; split <;> simp_all
  · rfl
  · have hiff := count_namedBy_pos_iff_view r.user hids₀ id
    cases hdone : r.env.done with
    | false => simp [perform, answer, storageDeleteEntry, hdone]
    | true => simp only [perform, answer, storageDeleteEntry, hdone, hiff]; split <;> simp_all
  · rfl

/-- **The view follows the replies.** -/
theorem view_serve {user : Bytes} {db : Db} {r : Request}
    (hids : (serve db r).1.entries.seq < 2 ^ 31) :
    (serve db r).1.view user = noteEntry user (db.view user) (r, (serve db r).2) := by
  by_cases hu : r.user = user
  · have hids₀ := seq_lt_of_serve db r hids
    rcases hs : serve db r with ⟨db', reply⟩
    rw [hs] at hids
    cases effect_of_serve hs with
    | post hline hroom =>
        -- the id answered is the one the new line carries
        have hid : (rowidToInt (db.entries.seq + 1)).toInt = (db.entries.seq + 1 : ℕ) :=
          toInt_rowidToInt hids
        rw [if_neg (by omega), view_insert, if_pos hu]
        simp [noteEntry, hu, hline]
    | update hline he howner =>
        rw [view_modify hids₀, if_pos hu]
        simp [noteEntry, hu, hline]
    | delete hline he howner =>
        rw [view_remove hids₀, if_pos hu]
        simp [noteEntry, hu, hline]
    | get hline => simp [noteEntry, hline]
    | bye hline => simp [noteEntry, hline]
    | fail why =>
        -- nothing was stored and nothing acknowledged
        exact (noteEntry_of_not_acknowledges id).symm
  · rw [view_serve_of_ne hu hids]
    simp [noteEntry, hu]

/-! ### Whole runs -/

/-- The acknowledged entries of a user after a run, kept from the replies
alone; `v` are the entries before it. -/
def acknowledged (user : Bytes) (v : List EntryLine) (run : List (Request × Reply)) :
    List EntryLine :=
  run.foldl (noteEntry user) v

/-- **What is acknowledged is what is stored.** -/
theorem acknowledged_eq_view (user : Bytes) {db : Db} {reqs : List Request}
    (hids : (final serve db reqs).entries.seq < 2 ^ 31) :
    acknowledged user (db.view user) (trace serve db reqs) = (final serve db reqs).view user := by
  refine (monitor (R := fun (db : Db) v => db.view user = v)
    (B := fun db => db.entries.seq < 2 ^ 31) (fun db r => seq_lt_of_serve db r) ?_
    rfl reqs hids).symm
  rintro db v r hids rfl
  exact view_serve hids

/-! ### GET -/

/-- A GET collects some of the lines, in their order. -/
theorem collect_sublist (malloc : List Bool) (v : List EntryLine) :
    (collect malloc v).Sublist v := by
  have hfold : ∀ (v : List EntryLine) (c : EntryCollect), ∃ w, w.Sublist v ∧
      (v.foldl (fun c l => collectEntry l.id l.ts l.data c) c).lines = c.lines ++ w := by
    intro v
    induction v with
    | nil => exact fun c => ⟨[], List.Sublist.refl _, by simp⟩
    | cons l v ih =>
        intro c
        obtain ⟨w, hw, heq⟩ := ih (collectEntry l.id l.ts l.data c)
        rw [List.foldl_cons, heq, collectEntry]
        -- a line that is dropped, twice, and one that is kept
        split
        · exact ⟨w, hw.cons l, rfl⟩
        · split
          · exact ⟨w, hw.cons l, rfl⟩
          · exact ⟨l :: w, hw.cons_cons l, by simp⟩
  obtain ⟨w, hw, heq⟩ := hfold v ⟨[], malloc⟩
  rw [collect, heq]
  simpa using hw

/-- A GET with every allocation granted collects the first `MAX_ENTRIES`
lines. -/
theorem collect_eq_take {malloc : List Bool} (hm : ∀ b ∈ malloc, b = true)
    (v : List EntryLine) : collect malloc v = v.take maxEntries := by
  have hfold : ∀ (v ls : List EntryLine) (malloc : List Bool), (∀ b ∈ malloc, b = true) →
      ls.length ≤ maxEntries →
      (v.foldl (fun c l => collectEntry l.id l.ts l.data c) ⟨ls, malloc⟩).lines
        = (ls ++ v).take maxEntries := by
    intro v
    induction v with
    | nil =>
        intro ls malloc _ hls
        simp [List.take_of_length_le hls]
    | cons l v ih =>
        intro ls malloc hm hls
        rw [List.foldl_cons]
        -- once full, a line is dropped; before, `malloc` grants it
        by_cases hfull : maxEntries ≤ ls.length
        · rw [collectEntry, if_pos hfull, ih ls malloc hm hls,
            List.take_append_of_le_length hfull, List.take_append_of_le_length hfull]
        · have hhead : ¬ malloc.head? = some false := fun h => by
            have hmem := hm false (List.mem_of_mem_head? h)
            cases hmem
          rw [collectEntry, if_neg hfull, if_neg hhead,
            ih _ malloc.tail (fun b hb => hm b (List.mem_of_mem_tail hb)) (by simp; omega),
            List.append_assoc, List.singleton_append]
  simpa [collect] using hfold v [] malloc hm (by simp)

/-- A row whose id is a positive `int` is printed in full. -/
theorem text_eq_row {l : EntryLine} (h : 0 ≤ l.id.toInt) : l.text = l.row := by
  have hid := length_dec_int_le h
  have hts := length_dec_long_le l.ts
  apply snprintf_eq_self
  simp only [EntryLine.row, List.length_append, List.length_cons]
  omega

theorem parseLine_get {now : Int64} {line : Bytes} (h : line = lit "GET") :
    parseLine now line = .get := by
  subst h
  rfl

theorem entries_header {n : ℕ} (hn : n ≤ maxEntries) :
    snprintf 32 (lit "ENTRIES " ++ dec n) = lit "ENTRIES " ++ dec n := by
  have hdec : (dec n).length ≤ 4 := by
    rw [dec_natCast]
    exact length_decNat_le (by decide) (lt_of_le_of_lt hn (by decide))
  have hlit : (lit "ENTRIES ").length = 8 := rfl
  apply snprintf_eq_self
  rw [List.length_append]
  omega

/-- The lines of the reply to a GET. -/
theorem lines_serve_get {db : Db} {r : Request} (hids : db.entries.seq < 2 ^ 31)
    (hline : r.line = lit "GET") (hcalloc : r.env.calloc = true)
    (hmalloc : ∀ b ∈ r.env.malloc, b = true) :
    (serve db r).2.lines
      = (lit "ENTRIES " ++ dec (min (db.view r.user).length maxEntries : ℕ))
          :: ((db.view r.user).take maxEntries).map EntryLine.row := by
  have hreply : serve db r = (db, .entries ((db.view r.user).take maxEntries)) := by
    rw [serve_eq, parseLine_get hline]
    simp [perform, hcalloc, storageGetEntries_collectEntry, collect_eq_take hmalloc]
  have htext : ∀ l ∈ (db.view r.user).take maxEntries, l.text = l.row := fun l hl =>
    text_eq_row (le_of_lt (view_id_bounds hids (List.mem_of_mem_take hl)).1)
  rw [hreply, Reply.lines, List.length_take, min_comm, entries_header (min_le_right _ _),
    List.map_congr_left htext]

/-- **A GET returns what was acknowledged, up to `MAX_ENTRIES`.**  After
any requests of any users, in any order, the reply to a GET lists the
entries the user's POSTs were answered OK for, less those a DELETE answered
OK removed, each with its first timestamp and its last data, in ascending
id order; past the first `MAX_ENTRIES` of them it stops. -/
theorem get_after_requests (user : Bytes) (db : Db) (reqs : List Request) (get : Request)
    (hids : (final serve db reqs).entries.seq < 2 ^ 31)
    (huser : get.user = user) (hline : get.line = lit "GET")
    (hcalloc : get.env.calloc = true) (hmalloc : ∀ b ∈ get.env.malloc, b = true) :
    let es := acknowledged user (db.view user) (trace serve db reqs)
    (serve (final serve db reqs) get).2.lines
        = (lit "ENTRIES " ++ dec (min es.length maxEntries : ℕ))
            :: (es.take maxEntries).map EntryLine.row ∧
      es.Pairwise fun l m => l.id.toInt < m.id.toInt := by
  intro es
  have hes : es = (final serve db reqs).view user := acknowledged_eq_view user hids
  subst huser
  rw [hes]
  exact ⟨lines_serve_get hids hline hcalloc hmalloc, view_ascending hids⟩

theorem get_after_requests_two_posts :
    let post (data : Bytes) : Request := ⟨lit "alice", ⟨7, true, true, []⟩, lit "POST " ++ data⟩
    let del : Request := ⟨lit "alice", ⟨8, true, true, []⟩, lit "DELETE 1"⟩
    let get : Request := ⟨lit "alice", ⟨9, true, true, []⟩, lit "GET"⟩
    (serve (final serve Db.fresh [post (lit "aGk="), post (lit "eW8="), del]) get).2.lines
      = [lit "ENTRIES 1", lit "2 7 eW8="] := by
  intro post del get
  have h := get_after_requests (lit "alice") Db.fresh [post (lit "aGk="), post (lit "eW8="), del]
    get (by decide) rfl rfl rfl (by simp [get])
  exact h.1.trans (by decide)

/-! ### More than `MAX_ENTRIES` -/

theorem serve_post {db : Db} {r : Request} {ts : Int64} {data : Bytes}
    (hline : parseLine r.env.now r.line = .post ts data) (hdone : r.env.done = true)
    (hids : db.entries.seq + 1 < 2 ^ 31) :
    serve db r = ({ db with entries := db.entries.insert ⟨r.user, ts, data⟩ },
      .okId (rowidToInt (db.entries.seq + 1))) := by
  have hroom := lt_maxRowid (lt_of_le_of_lt (Nat.le_succ _) hids)
  have hid := rowidToInt_not_neg hids
  rw [serve_eq, hline]
  simp [perform, storageAddEntry, hdone, hroom, hid]

/-- A session that only posts. -/
theorem final_replicate_post {post : Request} {ts : Int64} {data : Bytes}
    (hline : parseLine post.env.now post.line = .post ts data) (hdone : post.env.done = true)
    (n : ℕ) (hn : n < 2 ^ 31) :
    (final serve Db.fresh (List.replicate n post)).entries.seq = n ∧
      ((final serve Db.fresh (List.replicate n post)).view post.user).length = n := by
  induction n with
  | zero => exact ⟨rfl, rfl⟩
  | succ n ih =>
      obtain ⟨hseq, hlen⟩ := ih (by omega)
      have hroom : (final serve Db.fresh (List.replicate n post)).entries.seq + 1 < 2 ^ 31 := by
        omega
      rw [List.replicate_succ', final_concat, serve_post hline hdone hroom]
      refine ⟨by rw [AutoTable.seq_insert, hseq], ?_⟩
      rw [view_insert, if_pos rfl, List.length_append, hlen]
      rfl

/-- The GET after `n` POSTs of one user on a fresh database. -/
theorem get_after_posts (post get : Request) {ts : Int64} {data : Bytes}
    (hpost : parseLine post.env.now post.line = .post ts data) (hdone : post.env.done = true)
    (huser : get.user = post.user) (hget : get.line = lit "GET")
    (hcalloc : get.env.calloc = true) (hmalloc : ∀ b ∈ get.env.malloc, b = true)
    (n : ℕ) (hn : n < 2 ^ 31) :
    let run := List.replicate n post
    let lines := (serve (final serve Db.fresh run) get).2.lines
    (final serve Db.fresh run).entries.seq < 2 ^ 31 ∧
      (acknowledged post.user [] (trace serve Db.fresh run)).length = n ∧
      lines.head? = some (lit "ENTRIES " ++ dec (min n maxEntries : ℕ)) ∧
      lines.length = 1 + min n maxEntries := by
  intro run lines
  obtain ⟨hseq, hlen⟩ := final_replicate_post hpost hdone n hn
  have hids : (final serve Db.fresh run).entries.seq < 2 ^ 31 := by
    rw [hseq]
    exact hn
  have hlines := lines_serve_get hids hget hcalloc hmalloc
  rw [huser, hlen] at hlines
  refine ⟨hids, ?_, ?_, ?_⟩
  · rw [show ([] : List EntryLine) = Db.fresh.view post.user from rfl,
      acknowledged_eq_view post.user hids, hlen]
  · rw [show lines = _ from hlines, List.head?_cons]
  · rw [show lines = _ from hlines, List.length_cons, List.length_map, List.length_take, hlen,
      min_comm, add_comm]

/-- The entry over `MAX_ENTRIES` is stored and acknowledged, and not shown. -/
theorem get_hides_entry :
    let post : Request := ⟨lit "alice", ⟨1, true, true, []⟩, lit "POST aGk="⟩
    let get : Request := ⟨lit "alice", ⟨1, true, true, []⟩, lit "GET"⟩
    let run := List.replicate 1025 post
    (final serve Db.fresh run).entries.seq < 2 ^ 31 ∧
      (acknowledged (lit "alice") [] (trace serve Db.fresh run)).length = 1025 ∧
      (serve (final serve Db.fresh run) get).2.lines.head? = some (lit "ENTRIES 1024") ∧
      (serve (final serve Db.fresh run) get).2.lines.length = 1 + 1024 := by
  intro post get
  have hmin : min 1025 maxEntries = 1024 := by decide
  have hpost : parseLine post.env.now post.line = .post 1 (lit "aGk=") := rfl
  obtain ⟨hids, hack, hhead, hlen⟩ :=
    get_after_posts post get hpost rfl rfl rfl rfl (by simp [get]) 1025 (by decide)
  rw [hmin] at hhead hlen
  exact ⟨hids, hack, hhead, hlen⟩

end Diary
