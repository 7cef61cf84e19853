/-
Diary/Devices.lean

One account on many devices: any number of terminals running the C client
and of phones running the Android client, each with a connection of its own,
and other users of the server besides.

Whatever the devices do and in whatever order, what they are answered is
what one notebook of plain texts would answer (`devices_keep_one_notebook`):
a page is on every device once it is on one, and none is lost, mixed up or
revived.  The devices differ only in how they show it: the C client newest
first and up to a NUL, the Android client as the string its bytes make.

The two clients meet in the boxes of libsodium, and in base64.
-/
import Diary.DiaryConnection
import Diary.Lockstep
import Diary.Notebook

namespace Diary

open CString Machine

variable {ν : Type*}

/-! ### The devices -/

/-- What the two clients owe each other: a box either of them makes is
opened by both. -/
structure Interoperates (P : Proto ν) (S : Sodium ν) (keys : ConnectionKeys) : Prop where
  proto : P.Lawful
  sodium : S.Lawful
  constructed : ∃ authSk encSk, ConnectionKeys.construct S authSk encSk = some keys
  sealNew_eq : ∀ {n text b64}, P.sealNew n text = some b64 →
    b64 = encodeBase64 (S.boxSeal n text keys.encPk)
  unsealNew_eq : ∀ n text, P.unsealNew (encodeBase64 (S.boxSeal n text keys.encPk)) = some text

/-- A call of the Android client. -/
inductive PhoneCall
  | post (text : List UInt16)
  | update (id : Int32) (text : List UInt16)
  | delete (id : Int32)
  | get

/-- What it returns; `none` is an exception. -/
inductive PhoneResult
  | stored (id : Option Int32)
  | deleted (r : Option Unit)
  | entries (es : Option (List JavaEntry))
deriving DecidableEq

/-- The database, and what each device has still to read. -/
structure Devices where
  db : Db
  terminals : ℕ → List Bytes
  phones : ℕ → Bytes

/-- All connections are made and idle. -/
def Devices.idle (db : Db) : Devices := ⟨db, fun _ => [], fun _ => []⟩

/-- Which device makes a call; or another user makes a request. -/
inductive DeviceStep (ν : Type*)
  | terminal (k : ℕ) (env : CallEnv ν) (call : Call)
  | phone (k : ℕ) (env : PhoneEnv ν) (call : PhoneCall)
  | other (r : Request)

inductive DeviceResult
  | terminal (r : CallResult)
  | phone (r : PhoneResult)
  | other (reply : Reply)
deriving DecidableEq

section Source

variable (P : Proto ν) (S : Sodium ν) (keys : ConnectionKeys) (user : Bytes)

def phoneCall (env : PhoneEnv ν) (w : Socket) : PhoneCall → Socket × PhoneResult
  | .post text =>
      let r := DiaryConnection.postEntry S keys user env text w
      (r.1, .stored r.2)
  | .update id text =>
      let r := DiaryConnection.updateEntry S keys user env id text w
      (r.1, .stored r.2)
  | .delete id =>
      let r := DiaryConnection.deleteEntry user env id w
      (r.1, .deleted r.2)
  | .get =>
      let r := DiaryConnection.getEntries S keys user env w
      (r.1, .entries r.2)

def deviceStep (d : Devices) : DeviceStep ν → Devices × DeviceResult
  | .terminal k env call =>
      let r := callStep P user ⟨d.db, d.terminals k⟩ ⟨[], env, call⟩
      ({ d with db := r.1.db, terminals := Function.update d.terminals k r.1.unread },
        .terminal r.2)
  | .phone k env call =>
      let r := phoneCall S keys user env ⟨d.db, d.phones k⟩ call
      ({ d with db := r.1.db, phones := Function.update d.phones k r.1.stream }, .phone r.2)
  | .other r => ({ d with db := (serve d.db r).1 }, .other (serve d.db r).2)

end Source

/-! ### What it comes to -/

/-- What a call asks of the notebook. -/
def DeviceStep.request : DeviceStep ν → Option NotebookRequest
  | .terminal _ env (.post text t) =>
      some (.write text (if 0 < t.toInt then t else env.server.now).toInt)
  | .terminal _ _ (.update id text) => some (.rewrite id.toInt text)
  | .terminal _ _ (.delete id) => some (.remove id.toInt)
  | .terminal _ _ .get => some .read
  | .phone _ env (.post text) => some (.write (getBytes text) env.server.now.toInt)
  | .phone _ _ (.update id text) => some (.rewrite id.toInt (getBytes text))
  | .phone _ _ (.delete id) => some (.remove id.toInt)
  | .phone _ _ .get => some .read
  | .other _ => none

/-- The server grants a request what it needs. -/
def Env.grants (env : Env) : NotebookRequest → Bool
  | .write _ _ | .rewrite _ _ | .remove _ => env.done
  | .read => env.calloc && env.malloc.all id

/-- Everything a call needs is granted: the box is made, the statement done,
the memory given. -/
def DeviceStep.granted (P : Proto ν) : DeviceStep ν → Bool
  | .terminal _ env (.post text _) | .terminal _ env (.update _ text) =>
      (P.sealNew env.nonce text).isSome && env.server.done
  | .terminal _ env (.delete _) => env.server.done
  | .terminal _ env .get => env.server.grants .read
  | .phone _ env (.post _) | .phone _ env (.update _ _) | .phone _ env (.delete _) =>
      env.server.done
  | .phone _ env .get => env.server.grants .read
  | .other _ => true

/-- A text is not too long for a Java array, the C client has memory for the
rows it was announced, and the other users are others. -/
def DeviceStep.Fits (user : Bytes) : DeviceStep ν → Prop
  | .terminal _ _ (.post text _) | .terminal _ _ (.update _ text) => text.length + 48 < 2 ^ 31
  | .terminal _ _ (.delete _) => True
  | .terminal _ env .get => env.calloc = true
  | .phone _ _ (.post text) | .phone _ _ (.update _ text) => Sealable text
  | .phone _ _ (.delete _) | .phone _ _ .get => True
  | .other r => r.user ≠ user

/-- A page as the C client lists it. -/
def Page.onTerminal (n : Page) : DiaryEntry :=
  ⟨Int32.ofInt n.id, Int64.ofInt n.timestamp, cstr n.text⟩

/-- A page as the Android client lists it. -/
def Page.onPhone (n : Page) : JavaEntry :=
  ⟨Int32.ofInt n.id, Int64.ofInt n.timestamp, newString n.text⟩

/-- What the C client makes of an answer. -/
def NotebookAnswer.onTerminal : NotebookRequest → NotebookAnswer → CallResult
  | .read, .pages ns => .entries (some (sortNewestFirst (ns.map Page.onTerminal)))
  | .read, _ => .entries none
  | _, .noted id => .code (Int32.ofInt id)
  | _, .removed => .code 0
  | _, _ => .code (-1)

/-- What the Android client makes of it. -/
def NotebookAnswer.onPhone : NotebookRequest → NotebookAnswer → PhoneResult
  | .read, .pages ns => .entries (some (ns.map Page.onPhone))
  | .read, _ => .entries none
  | .remove _, .removed => .deleted (some ())
  | .remove _, _ => .deleted none
  | _, .noted id => .stored (some (Int32.ofInt id))
  | _, _ => .stored none

/-- A step of the devices, as the notebook takes it. -/
inductive NotebookStep (P : Proto ν) :
    DeviceStep ν → DeviceResult → Notebook → Notebook → Prop
  | terminal {k env call request answer nb nb'}
      (hrequest : (DeviceStep.terminal k env call).request = some request)
      (hstep : Notebook.Step maxEntries ((DeviceStep.terminal k env call).granted P) request
        answer nb nb') :
      NotebookStep P (.terminal k env call) (.terminal (answer.onTerminal request)) nb nb'
  | phone {k env call request answer nb nb'}
      (hrequest : (DeviceStep.phone k env call).request = some request)
      (hstep : Notebook.Step maxEntries ((DeviceStep.phone k env call).granted P) request
        answer nb nb') :
      NotebookStep P (.phone k env call) (.phone (answer.onPhone request)) nb nb'
  | other {r reply nb} : NotebookStep P (.other r) (.other reply) nb nb

/-! ### The rows of a notebook -/

section Rows

variable {P : Proto ν} {S : Sodium ν} {keys : ConnectionKeys} {user : Bytes}

/-- A row that a client wrote: the page in a box. -/
structure Written (S : Sodium ν) (keys : ConnectionKeys) (l : EntryLine) (n : Page) : Prop where
  id_eq : n.id = l.id.toInt
  timestamp_eq : n.timestamp = l.ts.toInt
  boxed : ∃ nonce, l.data = encodeBase64 (S.boxSeal nonce n.text keys.encPk)
  fits : n.text.length + 48 < 2 ^ 31

/-- The database keeps a notebook for the user. -/
structure Records (S : Sodium ν) (keys : ConnectionKeys) (user : Bytes) (db : Db) (nb : Notebook) :
    Prop where
  rows : List.Forall₂ (Written S keys) (db.view user) nb.pages
  last_le : nb.last ≤ db.entries.seq

theorem keeps_fresh : Records S keys user Db.fresh Notebook.empty :=
  ⟨List.Forall₂.nil, le_refl _⟩

theorem map_id_of_written {rows : List EntryLine} {pages : List Page}
    (h : List.Forall₂ (Written S keys) rows pages) :
    pages.map Page.id = rows.map fun l => l.id.toInt := by
  induction h with
  | nil => rfl
  | cons hl hrest ih => rw [List.map_cons, List.map_cons, hl.id_eq, ih]

theorem Records.mem_ids_iff {db : Db} {nb : Notebook} (h : Records S keys user db nb) {id : Int32} :
    id.toInt ∈ nb.pages.map Page.id ↔ id ∈ (db.view user).map EntryLine.id := by
  rw [map_id_of_written h.rows, List.mem_map, List.mem_map]
  constructor
  · rintro ⟨l, hl, heq⟩
    exact ⟨l, hl, Int32.toInt_inj.mp heq⟩
  · rintro ⟨l, hl, rfl⟩
    exact ⟨l, hl, rfl⟩

/-- The numbers of the pages are ids. -/
theorem Records.exists_id {db : Db} {nb : Notebook} (h : Records S keys user db nb) {k : ℤ}
    {text : Bytes} (hhas : nb.Has k text) : ∃ id : Int32, id.toInt = k := by
  obtain ⟨n, hn, rfl, -⟩ := hhas
  have hmem := List.mem_map_of_mem (f := Page.id) hn
  rw [map_id_of_written h.rows] at hmem
  obtain ⟨l, -, hl⟩ := List.mem_map.mp hmem
  exact ⟨l.id, hl⟩

/-- A command that asks the server for what a request asks the notebook. -/
inductive Asks (S : Sodium ν) (keys : ConnectionKeys) : Command → NotebookRequest → Prop
  | post {ts nonce text} (hfits : text.length + 48 < 2 ^ 31) :
      Asks S keys (.post ts (encodeBase64 (S.boxSeal nonce text keys.encPk)))
        (.write text ts.toInt)
  | update {id nonce text} (hfits : text.length + 48 < 2 ^ 31) :
      Asks S keys (.update id (encodeBase64 (S.boxSeal nonce text keys.encPk)))
        (.rewrite id.toInt text)
  | delete {id} : Asks S keys (.delete id) (.remove id.toInt)
  | get : Asks S keys .get .read

/-- A reply that gives the answer. -/
inductive Gives (S : Sodium ν) (keys : ConnectionKeys) :
    NotebookRequest → Reply → NotebookAnswer → Prop
  | stored {text ts id} : Gives S keys (.write text ts) (.okId id) (.noted id.toInt)
  | updated {id text} : Gives S keys (.rewrite id text) .ok (.noted id)
  | deleted {id} : Gives S keys (.remove id) .ok .removed
  | entries {rows ns} (h : List.Forall₂ (Written S keys) rows ns) :
      Gives S keys .read (.entries rows) (.pages ns)
  | failed {request why} : Gives S keys request (.fail why) .refused

theorem written_rewrite {rows : List EntryLine} {pages : List Page} {id : Int32} {nonce : ν}
    {text : Bytes} (hfits : text.length + 48 < 2 ^ 31)
    (h : List.Forall₂ (Written S keys) rows pages) :
    List.Forall₂ (Written S keys)
      (rows.map (EntryLine.withData id (encodeBase64 (S.boxSeal nonce text keys.encPk))))
      (pages.map (Page.withText id.toInt text)) := by
  refine List.forall₂_map_left_iff.mpr (List.forall₂_map_right_iff.mpr (h.imp fun l n hl => ?_))
  have hiff : n.id = id.toInt ↔ l.id = id := by rw [hl.id_eq, Int32.toInt_inj]
  rw [EntryLine.withData, Page.withText]
  by_cases heq : l.id = id
  · rw [if_pos heq, if_pos (hiff.mpr heq)]
    exact ⟨hl.id_eq, hl.timestamp_eq, ⟨nonce, rfl⟩, hfits⟩
  · rw [if_neg heq, if_neg (mt hiff.mp heq)]
    exact hl

theorem written_remove {rows : List EntryLine} {pages : List Page} (id : Int32)
    (h : List.Forall₂ (Written S keys) rows pages) :
    List.Forall₂ (Written S keys) (rows.filter fun l => l.id ≠ id)
      (pages.filter fun n => n.id ≠ id.toInt) := by
  induction h with
  | nil => exact .nil
  | @cons l n rows pages hl hrest ih =>
      have hiff : n.id = id.toInt ↔ l.id = id := by rw [hl.id_eq, Int32.toInt_inj]
      by_cases heq : l.id = id
      · rw [List.filter_cons_of_neg (by simpa using heq),
          List.filter_cons_of_neg (by simpa using hiff.mpr heq)]
        exact ih
      · rw [List.filter_cons_of_pos (by simpa using heq),
          List.filter_cons_of_pos (by simpa using mt hiff.mp heq)]
        exact .cons hl ih

theorem written_sublist {rows rows' : List EntryLine} {pages : List Page}
    (hsub : rows'.Sublist rows) (h : List.Forall₂ (Written S keys) rows pages) :
    ∃ ns : List Page, ns.Sublist pages ∧ List.Forall₂ (Written S keys) rows' ns := by
  induction hsub generalizing pages with
  | slnil =>
      cases h
      exact ⟨[], List.Sublist.refl _, .nil⟩
  | cons l hsub ih =>
      cases h with
      | cons hl hrest =>
          obtain ⟨ns, hns, hrows⟩ := ih hrest
          exact ⟨ns, hns.cons _, hrows⟩
  | cons_cons l hsub ih =>
      cases h with
      | cons hl hrest =>
          obtain ⟨ns, hns, hrows⟩ := ih hrest
          exact ⟨_ :: ns, hns.cons_cons _, .cons hl hrows⟩

/-! ### A request of the account -/

theorem serve_fst_of_not_acknowledges {db : Db} {r : Request}
    (hids : (serve db r).1.entries.seq < 2 ^ 31) (h : ¬ (serve db r).2.Acknowledges) :
    (serve db r).1 = db :=
  (book_step (r := r) rfl hids).2 h

/-- A request that was refused leaves the notebook. -/
theorem keeps_of_fail {db : Db} {nb : Notebook} {r : Request} {why : Failure}
    (h : Records S keys user db nb) (hids : (serve db r).1.entries.seq < 2 ^ 31)
    (hreply : (serve db r).2 = .fail why) : Records S keys user (serve db r).1 nb := by
  rw [serve_fst_of_not_acknowledges hids (by rw [hreply]; exact id)]
  exact h

/-- **One request.**  The server answers as the notebook does. -/
theorem keeps_serve {db : Db} {nb : Notebook} {r : Request} {c : Command}
    {request : NotebookRequest} (h : Records S keys user db nb) (hu : r.user = user)
    (hline : parseLine r.env.now r.line = c) (hasks : Asks S keys c request)
    (hids : (serve db r).1.entries.seq < 2 ^ 31) :
    ∃ answer nb', Gives S keys request (serve db r).2 answer ∧
      Notebook.Step maxEntries (r.env.grants request) request answer nb nb' ∧
      Records S keys user (serve db r).1 nb' := by
  have hreply := answer_serve hids
  have hview : (serve db r).1.view user
      = noteEntry user (db.view user) (r, (serve db r).2) := view_serve hids
  have hseq := seq_le_serve db r
  rw [hline, hu] at hreply
  rw [noteEntry, if_pos hu, hline, hreply] at hview
  cases hasks with
  | @post ts nonce text hfits =>
      -- the INSERT completes, or nothing is stored
      cases hdone : r.env.done with
      | false =>
          rw [answer, hdone] at hreply
          exact ⟨.refused, nb, hreply ▸ .failed,
            .refuse fun hgranted => absurd (hdone.symm.trans hgranted) Bool.false_ne_true,
            keeps_of_fail h hids hreply⟩
      | true =>
          have hids₀ : db.entries.seq + 1 < 2 ^ 31 := by
            have hroom := lt_maxRowid (seq_lt_of_serve _ _ hids)
            rw [serve_eq, hline] at hids
            simpa [perform, storageAddEntry, hdone, hroom] using hids
          have hserve := serve_post hline hdone hids₀
          have hid : (rowidToInt (db.entries.seq + 1)).toInt = (db.entries.seq + 1 : ℕ) :=
            toInt_rowidToInt hids₀
          -- the new id is above every page number handed out
          have hlast : nb.last < (rowidToInt (db.entries.seq + 1)).toInt := by
            have := h.last_le
            omega
          refine ⟨_, _, by rw [hserve]; exact .stored, .write hlast (by omega), ?_, ?_⟩
          · rw [hserve, view_insert, if_pos hu]
            exact List.rel_append h.rows
              (.cons ⟨rfl, rfl, ⟨nonce, rfl⟩, hfits⟩ .nil)
          · rw [hserve]
            exact hid.le
  | @update id nonce text hfits =>
      -- the row is there and the statement completes, or the request is refused
      by_cases hok : r.env.done = true ∧ id ∈ (db.view user).map EntryLine.id
      · rw [answer, if_pos hok] at hreply hview
        refine ⟨_, _, hreply ▸ .updated, .rewrite (h.mem_ids_iff.mpr hok.2), ?_, ?_⟩
        · rw [hview]
          exact written_rewrite hfits h.rows
        · exact h.last_le.trans (by exact_mod_cast hseq)
      · rw [answer, if_neg hok] at hreply
        refine ⟨.refused, nb, hreply ▸ .failed, .refuse fun hgranted => ⟨_, rfl, ?_⟩,
          keeps_of_fail h hids hreply⟩
        exact fun hmem => hok ⟨hgranted, h.mem_ids_iff.mp hmem⟩
  | @delete id =>
      -- as for an update
      by_cases hok : r.env.done = true ∧ id ∈ (db.view user).map EntryLine.id
      · rw [answer, if_pos hok] at hreply hview
        refine ⟨_, _, hreply ▸ .deleted, .remove (h.mem_ids_iff.mpr hok.2), ?_, ?_⟩
        · rw [hview]
          exact written_remove id h.rows
        · exact h.last_le.trans (by exact_mod_cast hseq)
      · rw [answer, if_neg hok] at hreply
        refine ⟨.refused, nb, hreply ▸ .failed, .refuse fun hgranted => ⟨_, rfl, ?_⟩,
          keeps_of_fail h hids hreply⟩
        exact fun hmem => hok ⟨hgranted, h.mem_ids_iff.mp hmem⟩
  | get =>
      have hkeeps : Records S keys user (serve db r).1 nb := by
        rw [serve_eq, hline]
        exact h
      cases hcalloc : r.env.calloc with
      | false =>
          rw [answer, hcalloc] at hreply
          refine ⟨.refused, nb, hreply ▸ .failed, .refuse fun hgranted => ?_, hkeeps⟩
          rw [Env.grants, hcalloc] at hgranted
          cases hgranted
      | true =>
          rw [answer, hcalloc, if_pos rfl] at hreply
          -- the rows collected are a part of the pages: the first ones, if nothing fails
          by_cases hmalloc : r.env.malloc.all id = true
          · have htake := collect_eq_take (fun b hb => List.all_eq_true.mp hmalloc b hb)
              (db.view user)
            refine ⟨.pages (nb.pages.take maxEntries), nb, hreply ▸ .entries ?_,
              .read (List.take_sublist _ _) fun _ => rfl, hkeeps⟩
            rw [htake]
            exact List.forall₂_take _ h.rows
          · obtain ⟨ns, hns, hrows⟩ :=
              written_sublist (collect_sublist r.env.malloc (db.view user)) h.rows
            refine ⟨.pages ns, nb, hreply ▸ .entries hrows, .read hns fun hgranted => ?_,
              hkeeps⟩
            rw [Env.grants, hcalloc, Bool.true_and] at hgranted
            exact absurd hgranted hmalloc

/-! ### The C client -/

/-- The code a verb of the C client returns for a reply. -/
def replyCode (ok : Int32) : Reply → Int32
  | .okId id => id
  | .ok => ok
  | .bye | .entries _ | .fail _ => -1

theorem netPostEntry_serve (hP : P.Lawful) (user : Bytes) {env : CallEnv ν} {text b64 : Bytes}
    (t : Int64) (db : Db) (hseal : P.sealNew env.nonce text = some b64) :
    netPostEntry P user env text t ⟨db, []⟩
      = let r := serve db ⟨user, env.server, postPrefix t ++ b64⟩
        (⟨r.1, []⟩, replyCode 0 r.2) := by
  rw [netPostEntry_eq hP user t rfl hseal]
  simp only [serve_eq, parseLine_postPrefix _ _ (hP.sealed_no_space hseal), perform]
  generalize storageAddEntry env.server.done user b64 _ db = r
  split <;> rfl

theorem netUpdateEntry_serve (hP : P.Lawful) (user : Bytes) {env : CallEnv ν} {text b64 : Bytes}
    (id : Int32) (db : Db) (hseal : P.sealNew env.nonce text = some b64) :
    netUpdateEntry P user env id text ⟨db, []⟩
      = let r := serve db ⟨user, env.server, lit "UPDATE " ++ (dec id.toInt ++ 32 :: b64)⟩
        (⟨r.1, []⟩, replyCode id r.2) := by
  rw [netUpdateEntry_eq hP user id rfl hseal]
  simp only [serve_eq, parseLine_update, perform]
  split <;> rfl

theorem netDeleteEntry_serve (hP : P.Lawful) (user : Bytes) (env : CallEnv ν) (id : Int32)
    (db : Db) :
    netDeleteEntry P user env id ⟨db, []⟩
      = let r := serve db ⟨user, env.server, lit "DELETE " ++ dec id.toInt⟩
        (⟨r.1, []⟩, replyCode 0 r.2) := by
  rw [netDeleteEntry_eq hP id rfl]
  simp only [serve_eq, parseLine_delete, perform]
  split <;> rfl

theorem serve_get (user : Bytes) (env : Env) (db : Db) :
    serve db ⟨user, env, lit "GET"⟩
      = (db, if env.calloc = false then .fail .outOfMemory
          else .entries (sentRows env user db)) := by
  rw [serve_eq, parseLine_get rfl]
  simp only [perform, storageGetEntries_collectEntry, sentRows]

/-- The C client's split of a row gives back the page. -/
theorem parseRow_of_written (I : Interoperates P S keys) {l : EntryLine} {n : Page}
    (h : Written S keys l n) (hid : 0 ≤ l.id.toInt) : parseRow P l.text = some n.onTerminal := by
  obtain ⟨nonce, hdata⟩ := h.boxed
  have hne : l.data ≠ [] := by
    rw [hdata]
    apply encodeBase64_ne_nil
    have hlen := I.sodium.length_boxSeal nonce n.text keys.encPk
    exact List.ne_nil_of_length_pos (hlen ▸ Nat.succ_pos _)
  have hsp : (32 : UInt8) ∉ l.data := fun hmem =>
    (inert_of_mem_encodeBase64 _ 32 (hdata ▸ hmem)).1 rfl
  rw [parseRow_text, sentData_eq hid, strtok_of_notMem hne hsp, Option.map_some, Page.onTerminal,
    h.id_eq, h.timestamp_eq, Int32.ofInt_toInt, Int64.ofInt_toInt]
  simp only [shownText, hdata, I.unsealNew_eq]

theorem map_parseRow_of_written (I : Interoperates P S keys) {rows : List EntryLine}
    {ns : List Page} (h : List.Forall₂ (Written S keys) rows ns)
    (hids : ∀ l ∈ rows, 0 ≤ l.id.toInt) :
    (rows.map EntryLine.text).map (parseRow P) = (ns.map Page.onTerminal).map some := by
  induction h with
  | nil => rfl
  | cons hl hrest ih =>
      rw [List.forall_mem_cons] at hids
      simp only [List.map_cons, parseRow_of_written I hl hids.1]
      rw [ih hids.2]

theorem netGetEntries_of_written (I : Interoperates P S keys) {env : CallEnv ν} {db : Db}
    {ns : List Page} (hserver : env.server.calloc = true) (hclient : env.calloc = true)
    (h : List.Forall₂ (Written S keys) (sentRows env.server user db) ns)
    (hids : db.entries.seq < 2 ^ 31) :
    netGetEntries P user env ⟨db, []⟩
      = (⟨db, []⟩, some (sortNewestFirst (ns.map Page.onTerminal))) := by
  have hpos : ∀ l ∈ sentRows env.server user db, 0 ≤ l.id.toInt := fun l hl =>
    (view_id_bounds hids ((collect_sublist _ _).subset hl)).1.le
  have hget := getRows_of_forall I.proto (map_parseRow_of_written I h hpos) []
  rw [List.length_map] at hget
  rw [netGetEntries_eq I.proto rfl]
  simp only [hserver, hclient, Bool.true_eq_false, if_false, hget, Option.map_some,
    List.nil_append]
  split
  · next hnil =>
      rw [hnil] at h
      cases h
      simp [sortNewestFirst]
  · rfl

/-- A call of a terminal that sends a line. -/
theorem terminal_served {db : Db} {nb : Notebook} {k : ℕ} {env : CallEnv ν} {call : Call}
    {line : Bytes} {c : Command} {request : NotebookRequest} {w : World} {result : CallResult}
    (h : Records S keys user db nb) (hline : parseLine env.server.now line = c)
    (hasks : Asks S keys c request)
    (hrequest : (DeviceStep.terminal k env call).request = some request)
    (hgranted : (DeviceStep.terminal k env call).granted P = env.server.grants request)
    (hw : w = ⟨(serve db ⟨user, env.server, line⟩).1, []⟩)
    (hresult : ∀ answer, Gives S keys request (serve db ⟨user, env.server, line⟩).2 answer →
      result = answer.onTerminal request)
    (hids : w.db.entries.seq < 2 ^ 31) :
    (∃ nb', NotebookStep P (.terminal k env call) (.terminal result) nb nb' ∧
      Records S keys user w.db nb') ∧ w.unread = [] := by
  subst hw
  obtain ⟨answer, nb', hgives, hstep, hkeeps⟩ :=
    keeps_serve (r := ⟨user, env.server, line⟩) h rfl hline hasks hids
  rw [hresult answer hgives]
  refine ⟨⟨nb', .terminal hrequest ?_, hkeeps⟩, rfl⟩
  rw [hgranted]
  exact hstep

/-- One that does not, as the text could not be sealed. -/
theorem terminal_unsealed {db : Db} {nb : Notebook} {k : ℕ} {env : CallEnv ν} {call : Call}
    {request : NotebookRequest} (h : Records S keys user db nb)
    (hrequest : (DeviceStep.terminal k env call).request = some request)
    (hgranted : (DeviceStep.terminal k env call).granted P = false)
    (hresult : CallResult.code (-1) = NotebookAnswer.refused.onTerminal request) :
    ∃ nb', NotebookStep P (.terminal k env call) (.terminal (.code (-1))) nb nb' ∧
      Records S keys user db nb' := by
  rw [hresult]
  refine ⟨nb, .terminal hrequest (.refuse fun hyes => ?_), h⟩
  rw [hgranted] at hyes
  cases hyes

section Codes

variable {reply : Reply} {answer : NotebookAnswer} {text : Bytes} {ts : ℤ} {id : Int32}

/-! What a verb returns for a reply is what the client makes of the
answer. -/

theorem replyCode_write (h : Gives S keys (.write text ts) reply answer) :
    CallResult.code (replyCode 0 reply) = answer.onTerminal (.write text ts) := by
  cases h with
  | stored =>
      show CallResult.code _ = CallResult.code _
      rw [Int32.ofInt_toInt]
      rfl
  | failed => rfl

theorem replyCode_rewrite (h : Gives S keys (.rewrite id.toInt text) reply answer) :
    CallResult.code (replyCode id reply) = answer.onTerminal (.rewrite id.toInt text) := by
  cases h with
  | updated =>
      show CallResult.code _ = CallResult.code _
      rw [Int32.ofInt_toInt]
      rfl
  | failed => rfl

theorem replyCode_remove (h : Gives S keys (.remove id.toInt) reply answer) :
    CallResult.code (replyCode 0 reply) = answer.onTerminal (.remove id.toInt) := by
  cases h with
  | deleted => rfl
  | failed => rfl

end Codes

/-- **What a terminal is answered** is what the notebook answers, and
nothing of it is left to read. -/
theorem keeps_terminal (I : Interoperates P S keys) {db : Db} {nb : Notebook} {k : ℕ}
    {env : CallEnv ν} {call : Call} (h : Records S keys user db nb)
    (hfits : (DeviceStep.terminal k env call).Fits user)
    (hids : (callStep P user ⟨db, []⟩ ⟨[], env, call⟩).1.db.entries.seq < 2 ^ 31) :
    (∃ nb', NotebookStep P (.terminal k env call)
        (.terminal (callStep P user ⟨db, []⟩ ⟨[], env, call⟩).2) nb nb' ∧
      Records S keys user (callStep P user ⟨db, []⟩ ⟨[], env, call⟩).1.db nb') ∧
      (callStep P user ⟨db, []⟩ ⟨[], env, call⟩).1.unread = [] := by
  cases call with
  | post text t =>
      -- a text that is not sealed never reaches the server
      cases hseal : P.sealNew env.nonce text with
      | none =>
          have hcall : callStep P user ⟨db, []⟩ ⟨[], env, .post text t⟩
              = (⟨db, []⟩, .code (-1)) := by
            simp [callStep, netPostEntry, hseal, World.meanwhile]
          rw [hcall]
          exact ⟨terminal_unsealed h rfl (by simp [DeviceStep.granted, hseal]) rfl, rfl⟩
      | some b64 =>
          have hcall := netPostEntry_serve I.proto user t db hseal
          have hline := parseLine_postPrefix env.server.now t (I.proto.sealed_no_space hseal)
          obtain rfl := I.sealNew_eq hseal
          refine terminal_served h hline (.post hfits) rfl ?_ (congrArg Prod.fst hcall) ?_ hids
          · simp [DeviceStep.granted, Env.grants, hseal]
          · intro answer hgives
            exact (congrArg CallResult.code (congrArg Prod.snd hcall)).trans
              (replyCode_write hgives)
  | update id text =>
      cases hseal : P.sealNew env.nonce text with
      | none =>
          have hcall : callStep P user ⟨db, []⟩ ⟨[], env, .update id text⟩
              = (⟨db, []⟩, .code (-1)) := by
            simp [callStep, netUpdateEntry, hseal, World.meanwhile]
          rw [hcall]
          exact ⟨terminal_unsealed h rfl (by simp [DeviceStep.granted, hseal]) rfl, rfl⟩
      | some b64 =>
          have hcall := netUpdateEntry_serve I.proto user id db hseal
          have hline := parseLine_update env.server.now id b64
          obtain rfl := I.sealNew_eq hseal
          refine terminal_served h hline (.update hfits) rfl ?_ (congrArg Prod.fst hcall) ?_ hids
          · simp [DeviceStep.granted, Env.grants, hseal]
          · intro answer hgives
            exact (congrArg CallResult.code (congrArg Prod.snd hcall)).trans
              (replyCode_rewrite hgives)
  | delete id =>
      have hcall := netDeleteEntry_serve I.proto user env id db
      have hline := parseLine_delete env.server.now id
      refine terminal_served h hline .delete rfl rfl (congrArg Prod.fst hcall) ?_ hids
      intro answer hgives
      exact (congrArg CallResult.code (congrArg Prod.snd hcall)).trans
        (replyCode_remove hgives)
  | get =>
      have hserve := serve_get user env.server db
      have hline : parseLine env.server.now (lit "GET") = .get := parseLine_get rfl
      -- a GET changes nothing, so the ids are small before it too
      have hseq : db.entries.seq < 2 ^ 31 := by
        have hdb : (callStep P user ⟨db, []⟩ ⟨[], env, .get⟩).1.db = db := by
          show (netGetEntries P user env ⟨db, []⟩).1.db = db
          rw [netGetEntries_eq_receive]
          exact congrArg Prod.fst hserve
        rwa [hdb] at hids
      cases hcalloc : env.server.calloc with
      | false =>
          have hcall : netGetEntries P user env ⟨db, []⟩ = (⟨db, []⟩, none) := by
            rw [netGetEntries_eq I.proto rfl]
            simp only [hcalloc, if_true]
          rw [hcalloc, if_pos rfl] at hserve
          refine terminal_served h hline .get rfl rfl ?_ ?_ hids
          · rw [hserve]
            exact congrArg Prod.fst hcall
          · intro answer hgives
            rw [hserve] at hgives
            refine (congrArg CallResult.entries (congrArg Prod.snd hcall)).trans ?_
            cases hgives
            rfl
      | true =>
          rw [hcalloc, if_neg Bool.true_eq_false_eq_False] at hserve
          -- the rows sent are written pages, and are read back as such
          obtain ⟨ns, -, hns⟩ :=
            written_sublist (collect_sublist env.server.malloc (db.view user)) h.rows
          have hcall := netGetEntries_of_written I hcalloc hfits hns hseq
          refine terminal_served h hline .get rfl rfl ?_ ?_ hids
          · rw [hserve]
            exact congrArg Prod.fst hcall
          · intro answer hgives
            rw [hserve] at hgives
            cases hgives with
            | entries hrows =>
                exact congrArg CallResult.entries
                  (congrArg Prod.snd (netGetEntries_of_written I hcalloc hfits hrows hseq))

/-! ### The Android client -/

/-- The keys of a connection: the public one belongs to the secret one. -/
theorem Interoperates.keys_eq (I : Interoperates P S keys) :
    keys.encPk = S.scalarmultBase (keys.encSk.take 32) ∧ 32 ≤ keys.encSk.length := by
  obtain ⟨authSk, encSk, hconstruct⟩ := I.constructed
  obtain ⟨⟨-, henc⟩, rfl⟩ := (construct_eq_some_iff I.sodium).mp hconstruct
  exact ⟨rfl, henc⟩

theorem Interoperates.sealToBase64_eq (I : Interoperates P S keys) {n : ν} {text : List UInt16}
    (htext : Sealable text) :
    sealToBase64 S n text keys.encPk
      = some (encodeBase64 (S.boxSeal n (getBytes text) keys.encPk)) := by
  apply Diary.sealToBase64_eq I.sodium _ htext
  rw [I.keys_eq.1]
  exact I.sodium.length_scalarmultBase _

/-- The Android client opens a row as the page in it. -/
theorem opens_of_written (I : Interoperates P S keys) {l : EntryLine} {n : Page}
    (h : Written S keys l n) (hid : 0 ≤ l.id.toInt) :
    DiaryConnection.Opens S keys l n.onPhone := by
  obtain ⟨nonce, hdata⟩ := h.boxed
  obtain ⟨hpk, hsk⟩ := I.keys_eq
  have hopen : unsealToString S l.data keys.encPk keys.encSk = some (some (newString n.text)) := by
    rw [hpk]
    apply unsealToString_boxSeal I.sodium hsk h.fits
    rw [hdata, decodeBase64_encodeBase64, hpk]
  refine ⟨fun c hc => (inert_of_mem_encodeBase64 _ c (hdata ▸ hc)).2, text_eq_row hid,
    _, hopen, ?_⟩
  rw [Page.onPhone, h.id_eq, h.timestamp_eq, Int32.ofInt_toInt, Int64.ofInt_toInt]
  rfl

theorem forall_opens_of_written (I : Interoperates P S keys) {rows : List EntryLine}
    {ns : List Page} (h : List.Forall₂ (Written S keys) rows ns)
    (hids : ∀ l ∈ rows, 0 ≤ l.id.toInt) :
    List.Forall₂ (DiaryConnection.Opens S keys) rows (ns.map Page.onPhone) := by
  induction h with
  | nil => exact .nil
  | cons hl hrest ih =>
      rw [List.forall_mem_cons] at hids
      exact .cons (opens_of_written I hl hids.1) (ih hids.2)

/-- A call of a phone. -/
theorem phone_served {db : Db} {nb : Notebook} {k : ℕ} {env : PhoneEnv ν} {call : PhoneCall}
    {line : Bytes} {c : Command} {request : NotebookRequest} {w : Socket} {result : PhoneResult}
    (h : Records S keys user db nb) (hline : parseLine env.server.now line = c)
    (hasks : Asks S keys c request)
    (hrequest : (DeviceStep.phone k env call).request = some request)
    (hgranted : (DeviceStep.phone k env call).granted P = env.server.grants request)
    (hw : w = ⟨(serve db ⟨user, env.server, line⟩).1, []⟩)
    (hresult : ∀ answer, Gives S keys request (serve db ⟨user, env.server, line⟩).2 answer →
      result = answer.onPhone request)
    (hids : w.db.entries.seq < 2 ^ 31) :
    (∃ nb', NotebookStep P (.phone k env call) (.phone result) nb nb' ∧
      Records S keys user w.db nb') ∧ w.stream = [] := by
  subst hw
  obtain ⟨answer, nb', hgives, hstep, hkeeps⟩ :=
    keeps_serve (r := ⟨user, env.server, line⟩) h rfl hline hasks hids
  rw [hresult answer hgives]
  refine ⟨⟨nb', .phone hrequest ?_, hkeeps⟩, rfl⟩
  rw [hgranted]
  exact hstep

/-- **What a phone is answered** is what the notebook answers. -/
theorem keeps_phone (I : Interoperates P S keys) {db : Db} {nb : Notebook} {k : ℕ}
    {env : PhoneEnv ν} {call : PhoneCall} (h : Records S keys user db nb)
    (hfits : (DeviceStep.phone k env call).Fits user)
    (hids : (phoneCall S keys user env ⟨db, []⟩ call).1.db.entries.seq < 2 ^ 31) :
    (∃ nb', NotebookStep P (.phone k env call)
        (.phone (phoneCall S keys user env ⟨db, []⟩ call).2) nb nb' ∧
      Records S keys user (phoneCall S keys user env ⟨db, []⟩ call).1.db nb') ∧
      (phoneCall S keys user env ⟨db, []⟩ call).1.stream = [] := by
  cases call with
  | post text =>
      have hseal := I.sealToBase64_eq (n := env.nonce) hfits
      -- base64 has no blank, so the server does not look for a timestamp
      have hsp : (32 : UInt8) ∉ encodeBase64 (S.boxSeal env.nonce (getBytes text) keys.encPk) :=
        fun hmem => (inert_of_mem_encodeBase64 _ 32 hmem).1 rfl
      have hcall := DiaryConnection.postEntry_eq user db hseal hsp
      have hline := DiaryConnection.parseLine_post_of_no_space env.server.now hsp
      refine phone_served h hline (.post hfits) rfl rfl (congrArg Prod.fst hcall) ?_ hids
      intro answer hgives
      refine (congrArg PhoneResult.stored (congrArg Prod.snd hcall)).trans ?_
      -- the id in the reply is the one the notebook noted
      generalize (serve db ⟨user, env.server, _⟩).2 = reply at hgives
      cases hgives with
      | stored =>
          show PhoneResult.stored _ = PhoneResult.stored _
          rw [Int32.ofInt_toInt]
          rfl
      | failed => rfl
  | update id text =>
      have hseal := I.sealToBase64_eq (n := env.nonce) hfits
      have hcall := DiaryConnection.updateEntry_eq user db id hseal
      have hline := parseLine_update env.server.now id
        (encodeBase64 (S.boxSeal env.nonce (getBytes text) keys.encPk))
      refine phone_served h hline (.update hfits) rfl rfl (congrArg Prod.fst hcall) ?_ hids
      intro answer hgives
      refine (congrArg PhoneResult.stored (congrArg Prod.snd hcall)).trans ?_
      generalize (serve db ⟨user, env.server, _⟩).2 = reply at hgives
      cases hgives with
      | updated =>
          show PhoneResult.stored _ = PhoneResult.stored _
          rw [Int32.ofInt_toInt]
          rfl
      | failed => rfl
  | delete id =>
      have hcall := DiaryConnection.deleteEntry_eq user env db id
      have hline := parseLine_delete env.server.now id
      refine phone_served h hline .delete rfl rfl (congrArg Prod.fst hcall) ?_ hids
      intro answer hgives
      refine (congrArg PhoneResult.deleted (congrArg Prod.snd hcall)).trans ?_
      generalize (serve db ⟨user, env.server, _⟩).2 = reply at hgives
      cases hgives with
      | deleted => rfl
      | failed => rfl
  | get =>
      have hserve := serve_get user env.server db
      have hline : parseLine env.server.now (lit "GET") = .get := parseLine_get rfl
      cases hcalloc : env.server.calloc with
      | false =>
          have hcall := DiaryConnection.getEntries_fail S keys user db hcalloc
          rw [hcalloc, if_pos rfl] at hserve
          refine phone_served h hline .get rfl rfl ?_ ?_ hids
          · rw [hserve]
            exact congrArg Prod.fst hcall
          · intro answer hgives
            rw [hserve] at hgives
            refine (congrArg PhoneResult.entries (congrArg Prod.snd hcall)).trans ?_
            cases hgives
            rfl
      | true =>
          rw [hcalloc, if_neg Bool.true_eq_false_eq_False] at hserve
          obtain ⟨ns, -, hns⟩ :=
            written_sublist (collect_sublist env.server.malloc (db.view user)) h.rows
          -- whatever pages the rows sent are, they open
          have hopens : ∀ {ms}, List.Forall₂ (Written S keys) (sentRows env.server user db) ms →
              DiaryConnection.getEntries S keys user env ⟨db, []⟩
                = (⟨db, []⟩, some (ms.map Page.onPhone)) := by
            intro ms hms
            have hseq : db.entries.seq < 2 ^ 31 := by
              rwa [show (phoneCall S keys user env ⟨db, []⟩ .get).1.db = db from
                DiaryConnection.db_getEntries ⟨db, []⟩] at hids
            apply DiaryConnection.getEntries_opens hcalloc
            apply forall_opens_of_written I hms
            exact fun l hl => (view_id_bounds hseq ((collect_sublist _ _).subset hl)).1.le
          refine phone_served h hline .get rfl rfl ?_ ?_ hids
          · rw [hserve]
            exact congrArg Prod.fst (hopens hns)
          · intro answer hgives
            rw [hserve] at hgives
            cases hgives with
            | entries hrows =>
                exact congrArg PhoneResult.entries (congrArg Prod.snd (hopens hrows))

/-! ### Runs -/

theorem seq_le_send (env : Env) (user line : Bytes) (w : World) :
    w.db.entries.seq ≤ (w.send env user line).db.entries.seq :=
  seq_le_serve w.db ⟨user, env, line⟩

theorem seq_le_sendLine (env : Env) (user line : Bytes) (w : Socket) :
    w.db.entries.seq ≤ (w.sendLine env user line).db.entries.seq :=
  seq_le_serve w.db ⟨user, env, line⟩

theorem seq_le_callStep (w : World) (s : CallStep ν) :
    (w.meanwhile s.others).db.entries.seq ≤ (callStep P user w s).1.db.entries.seq := by
  rw [callStep]
  generalize w.meanwhile s.others = w
  cases s.call with
  | post text t =>
      simp only [netPostEntry]
      -- nothing was sealed, or the line is served
      split
      · exact le_refl _
      · next b64 _ =>
        have hle := seq_le_send s.env.server user (postPrefix t ++ b64) w
        split <;> exact hle
  | update id text =>
      simp only [netUpdateEntry]
      split
      · exact le_refl _
      · next b64 _ =>
        have hle := seq_le_send s.env.server user
          (snprintf 32 (lit "UPDATE " ++ (dec id.toInt ++ [32])) ++ b64) w
        split <;> exact hle
  | delete id =>
      have hle := seq_le_send s.env.server user (snprintf 32 (lit "DELETE " ++ dec id.toInt)) w
      simp only [netDeleteEntry]
      split <;> exact hle
  | get =>
      simp only [netGetEntries_eq_receive]
      exact seq_le_send s.env.server user (lit "GET") w

theorem seq_le_phoneCall (env : PhoneEnv ν) (w : Socket) (call : PhoneCall) :
    w.db.entries.seq ≤ (phoneCall S keys user env w call).1.db.entries.seq := by
  cases call with
  | post text =>
      simp only [phoneCall, DiaryConnection.postEntry]
      split
      · exact le_refl _
      · next b64 _ =>
        have hle := seq_le_sendLine env.server user (lit "POST " ++ b64) w
        split <;> exact hle
  | update id text =>
      simp only [phoneCall, DiaryConnection.updateEntry]
      split
      · exact le_refl _
      · next b64 _ =>
        have hle := seq_le_sendLine env.server user
          (lit "UPDATE " ++ (dec id.toInt ++ 32 :: b64)) w
        split <;> exact hle
  | delete id =>
      have hle := seq_le_sendLine env.server user (lit "DELETE " ++ dec id.toInt) w
      simp only [phoneCall, DiaryConnection.deleteEntry]
      split <;> exact hle
  | get =>
      show _ ≤ (DiaryConnection.getEntries S keys user env w).1.db.entries.seq
      rw [DiaryConnection.db_getEntries]

theorem seq_le_deviceStep (d : Devices) (s : DeviceStep ν) :
    d.db.entries.seq ≤ (deviceStep P S keys user d s).1.db.entries.seq := by
  cases s with
  | terminal k env call => exact seq_le_callStep ⟨d.db, d.terminals k⟩ ⟨[], env, call⟩
  | phone k env call => exact seq_le_phoneCall env ⟨d.db, d.phones k⟩ call
  | other r => exact seq_le_serve d.db r

/-- The account is a notebook, and no device has anything left to read. -/
structure InStepWith (S : Sodium ν) (keys : ConnectionKeys) (user : Bytes) (d : Devices)
    (nb : Notebook) : Prop where
  keeps : Records S keys user d.db nb
  terminals : ∀ k, d.terminals k = []
  phones : ∀ k, d.phones k = []

theorem update_of_forall_eq {α β : Type*} [DecidableEq α] {f : α → β} {b b' : β}
    (h : ∀ a, f a = b) (hb : b' = b) (a a' : α) : Function.update f a b' a' = b := by
  rw [Function.update_apply, h a', hb, ite_self]

theorem shows_step (I : Interoperates P S keys) {d : Devices} {nb : Notebook} {s : DeviceStep ν}
    (h : InStepWith S keys user d nb) (hfits : s.Fits user)
    (hids : (deviceStep P S keys user d s).1.db.entries.seq < 2 ^ 31) :
    ∃ nb', NotebookStep P s (deviceStep P S keys user d s).2 nb nb' ∧
      InStepWith S keys user (deviceStep P S keys user d s).1 nb' := by
  cases s with
  | terminal k env call =>
      rw [deviceStep, h.terminals k] at hids ⊢
      obtain ⟨⟨nb', hstep, hkeeps⟩, hunread⟩ := keeps_terminal I h.keeps hfits hids
      exact ⟨nb', hstep, hkeeps, update_of_forall_eq h.terminals hunread k, h.phones⟩
  | phone k env call =>
      rw [deviceStep, h.phones k] at hids ⊢
      obtain ⟨⟨nb', hstep, hkeeps⟩, hunread⟩ := keeps_phone (P := P) I h.keeps hfits hids
      exact ⟨nb', hstep, hkeeps, h.terminals, update_of_forall_eq h.phones hunread k⟩
  | other r =>
      refine ⟨nb, .other, ⟨?_, ?_⟩, h.terminals, h.phones⟩
      · have hview := view_serve_of_ne hfits hids
        show List.Forall₂ _ ((serve d.db r).1.view user) _
        rw [hview]
        exact h.keeps.rows
      · exact h.keeps.last_le.trans (by exact_mod_cast seq_le_serve d.db r)

end Rows

/-- A run from any state that shows a notebook. -/
theorem shows_run {P : Proto ν} {S : Sodium ν} {keys : ConnectionKeys} {user : Bytes}
    (I : Interoperates P S keys) {d : Devices} {nb : Notebook} (h : InStepWith S keys user d nb)
    (run : List (DeviceStep ν)) (hfits : ∀ s ∈ run, s.Fits user)
    (hids : (final (deviceStep P S keys user) d run).db.entries.seq < 2 ^ 31) :
    ∃ nb', Follows (NotebookStep P) nb (trace (deviceStep P S keys user) d run) nb' ∧
      InStepWith S keys user (final (deviceStep P S keys user) d run) nb' :=
  follows (B := fun d : Devices => d.db.entries.seq < 2 ^ 31)
    (fun d s h => lt_of_le_of_lt (seq_le_deviceStep d s) h)
    (fun _ _ _ hseq hfit h => shows_step I h hfit hseq) h run hfits hids

theorem shows_idle (S : Sodium ν) (keys : ConnectionKeys) (user : Bytes) :
    InStepWith S keys user (Devices.idle Db.fresh) Notebook.empty :=
  ⟨keeps_fresh, fun _ => rfl, fun _ => rfl⟩

/-! ### Two devices -/

/-- A proto library over a libsodium. -/
def boxingProto (S : Sodium Unit) (keys : ConnectionKeys) : Proto Unit where
  sealNew n text := some (encodeBase64 (S.boxSeal n text keys.encPk))
  unsealNew blob :=
    if 32 ∈ blob then none
    else (decodeBase64 blob).bind fun cipher => S.boxSealOpen cipher keys.encPk keys.encSk
  recvLine := taggingProto.recvLine
  recvLineDyn := taggingProto.recvLineDyn

/-- The keys of the user below. -/
def openKeys : ConnectionKeys where
  authSk := List.replicate 64 1
  authPk := List.replicate 32 1
  encPk := List.replicate 32 2
  encSk := List.replicate 32 2

theorem interoperates_openBoxes :
    Interoperates (boxingProto openBoxes openKeys) openBoxes openKeys := by
  have hopen : ∀ text, openBoxes.boxSealOpen (openBoxes.boxSeal () text openKeys.encPk)
      openKeys.encPk openKeys.encSk = some text := fun text =>
    openBoxes_lawful.open_seal () text openKeys.encSk rfl
  have hsp : ∀ data, (32 : UInt8) ∉ encodeBase64 data := fun data hmem =>
    (inert_of_mem_encodeBase64 data 32 hmem).1 rfl
  have hunseal : ∀ text, (boxingProto openBoxes openKeys).unsealNew
      (encodeBase64 (openBoxes.boxSeal () text openKeys.encPk)) = some text := by
    intro text
    simp only [boxingProto, if_neg (hsp _), decodeBase64_encodeBase64, Option.bind_some, hopen]
  -- the laws of the C client, in their order, and of the shared keys
  refine ⟨⟨?_, ?_, ?_, ?_, taggingProto_lawful.recvLine_fits,
    taggingProto_lawful.recvLineDyn_cons⟩, openBoxes_lawful,
    ⟨openKeys.authSk, openKeys.encSk, ?_⟩, ?_, fun _ => hunseal⟩
  · rintro n text b64 h
    obtain rfl := Option.some.inj h
    apply encodeBase64_ne_nil
    have hlen := openBoxes_lawful.length_boxSeal () text openKeys.encPk
    exact List.ne_nil_of_length_pos (hlen ▸ Nat.succ_pos _)
  · rintro n text b64 h
    obtain rfl := Option.some.inj h
    exact hsp _
  · rintro n text b64 h
    obtain rfl := Option.some.inj h
    exact hunseal text
  · exact fun hmem => if_pos hmem
  · exact (construct_eq_some_iff openBoxes_lawful).mpr ⟨⟨by decide, by decide⟩, rfl⟩
  · exact fun h => (Option.some.inj h).symm

/-- The server grants everything. -/
def grantingEnv (now : Int64) : Env := ⟨now, true, true, []⟩

/-- A terminal begins a page, and a phone another. -/
def terminalThenPhone : List (DeviceStep Unit) :=
  [.terminal 0 ⟨(), grantingEnv 7, true⟩ (.post [0x68, 0xC3, 0xA9] 5),
    .phone 3 ⟨(), grantingEnv 8⟩ (.post [0x21])]

theorem fits_terminalThenPhone :
    ∀ s ∈ terminalThenPhone, s.Fits (lit "alice") := by
  intro s hs
  simp only [terminalThenPhone, List.mem_cons, List.not_mem_nil, or_false] at hs
  rcases hs with rfl | rfl
  · exact (by decide : [0x68, 0xC3, 0xA9].length + 48 < 2 ^ 31)
  · exact (by decide : Sealable [0x21])

/-! ### One notebook -/

/-- **The devices of a user keep one notebook.**  Over every run of calls of
any devices in any order, with requests of other users in between, there is
a notebook that starts empty and answers every call as it was answered; at
the end the database holds exactly its pages, sealed, and no device has
anything left to read. -/
theorem devices_keep_one_notebook {P : Proto ν} {S : Sodium ν} {keys : ConnectionKeys}
    (I : Interoperates P S keys) (user : Bytes) (run : List (DeviceStep ν))
    (hfits : ∀ s ∈ run, s.Fits user)
    (hids : (final (deviceStep P S keys user) (Devices.idle Db.fresh) run).db.entries.seq
      < 2 ^ 31) :
    ∃ nb, Follows (NotebookStep P) Notebook.empty
        (trace (deviceStep P S keys user) (Devices.idle Db.fresh) run) nb ∧
      InStepWith S keys user (final (deviceStep P S keys user) (Devices.idle Db.fresh) run) nb :=
  shows_run I (shows_idle S keys user) run hfits hids

theorem one_notebook_of_two_devices :
    ∃ nb, Follows (NotebookStep (boxingProto openBoxes openKeys)) Notebook.empty
        (trace (deviceStep (boxingProto openBoxes openKeys) openBoxes openKeys (lit "alice"))
          (Devices.idle Db.fresh) terminalThenPhone) nb ∧
      InStepWith openBoxes openKeys (lit "alice")
        (final (deviceStep (boxingProto openBoxes openKeys) openBoxes openKeys (lit "alice"))
          (Devices.idle Db.fresh) terminalThenPhone) nb :=
  devices_keep_one_notebook interoperates_openBoxes (lit "alice") terminalThenPhone
    fits_terminalThenPhone (by decide)

/-! ### From one device to another -/

/-- The id a call says its text is stored under. -/
def DeviceResult.saved : DeviceResult → Option Int32
  | .terminal (.code id) => if 0 < id.toInt then some id else none
  | .phone (.stored id) => id
  | .terminal (.entries _) | .phone (.deleted _) | .phone (.entries _) | .other _ => none

/-- The entry is listed with its text, as this client shows it. -/
def DeviceResult.Lists (id : Int32) (text : Bytes) : DeviceResult → Prop
  | .terminal (.entries (some es)) => ∃ e ∈ es, e.id = id ∧ e.text = cstr text
  | .phone (.entries (some es)) => ∃ e ∈ es, e.id = id ∧ e.text = newString text
  | _ => False

section Across

variable {P : Proto ν} {S : Sodium ν} {keys : ConnectionKeys} {user : Bytes} {nb nb' : Notebook}
  {s : DeviceStep ν} {result : DeviceResult} {id : Int32} {text : Bytes}

/-- Of a call that says so the text is noted. -/
theorem has_of_saved (h : NotebookStep P s result nb nb')
    (htext : s.request.bind NotebookRequest.text = some text) (hsaved : result.saved = some id) :
    ∃ k, Int32.ofInt k = id ∧ nb'.Has k text := by
  have hnoted : ∀ {granted request answer}, s.request = some request →
      Notebook.Step maxEntries granted request answer nb nb' → ∀ k, answer = .noted k →
      Int32.ofInt k = id → ∃ k, Int32.ofInt k = id ∧ nb'.Has k text := by
    rintro granted request answer hrequest hstep k rfl hk
    rw [hrequest] at htext
    exact ⟨k, hk, hstep.has_noted htext⟩
  cases h with
  | @terminal k env call request answer nb nb' hrequest hstep =>
      -- only a write and a rewrite are answered with a number
      cases answer with
      | noted k =>
          refine hnoted hrequest hstep k rfl ?_
          cases hstep with
          | write | rewrite =>
              have hcode : (if 0 < (Int32.ofInt k).toInt then some (Int32.ofInt k) else none)
                  = some id := hsaved
              split at hcode
              · exact Option.some.inj hcode
              · cases hcode
      | removed | pages | refused => cases request <;> cases hsaved
  | @phone k env call request answer nb nb' hrequest hstep =>
      cases answer with
      | noted k =>
          refine hnoted hrequest hstep k rfl ?_
          cases hstep with
          | write | rewrite => exact Option.some.inj hsaved
      | removed | pages | refused => cases request <;> cases hsaved
  | other => cases hsaved

/-- A call about another number leaves it. -/
theorem has_of_other {k : ℤ} (h : NotebookStep P s result nb nb')
    (hother : s.request.bind NotebookRequest.names ≠ some k) (hhas : nb.Has k text) :
    nb'.Has k text := by
  cases h with
  | terminal hrequest hstep | phone hrequest hstep =>
      rw [hrequest] at hother
      exact hstep.has_kept (fun hnames => absurd hnames hother) hhas
  | other => exact hhas

/-- A GET of a notebook that is not too long lists all of it. -/
theorem lists_of_has {k : ℤ} (h : NotebookStep P s result nb nb') (hread : s.request = some .read)
    (hgranted : s.granted P = true) (hlen : nb.pages.length ≤ maxEntries)
    (hhas : nb.Has k text) : result.Lists (Int32.ofInt k) text := by
  obtain ⟨n, hn, rfl, rfl⟩ := hhas
  cases h with
  | terminal hrequest hstep =>
      obtain rfl := Option.some.inj (hrequest.symm.trans hread)
      rw [hgranted] at hstep
      cases hstep with
      | @read _ ns hsub hall =>
          rw [hall rfl, List.take_of_length_le hlen]
          refine ⟨n.onTerminal, ?_, rfl, rfl⟩
          exact (sortNewestFirst_perm _).symm.subset (List.mem_map_of_mem hn)
      -- a granted GET is not refused
      | refuse hwhy =>
          obtain ⟨id, hid, -⟩ := hwhy rfl
          cases hid
  | phone hrequest hstep =>
      obtain rfl := Option.some.inj (hrequest.symm.trans hread)
      rw [hgranted] at hstep
      cases hstep with
      | @read _ ns hsub hall =>
          rw [hall rfl, List.take_of_length_le hlen]
          exact ⟨n.onPhone, List.mem_map_of_mem hn, rfl, rfl⟩
      | refuse hwhy =>
          obtain ⟨id, hid, -⟩ := hwhy rfl
          cases hid
  | other => cases hread

end Across

/-- **What one device saves, every device shows.**  After any run, a text
that some device is told is stored under an id is listed under that id by
every later GET of every device, with whatever others do in between, as long
as no call between them is about that id, the GET is granted its memory, and
the account has at most `MAX_ENTRIES` entries. -/
theorem saved_is_listed_everywhere {P : Proto ν} {S : Sodium ν} {keys : ConnectionKeys}
    (I : Interoperates P S keys) (user : Bytes) (js ks : List (DeviceStep ν))
    (s get : DeviceStep ν) {id : Int32} {text : Bytes}
    (hfits : ∀ s' ∈ js ++ s :: (ks ++ [get]), s'.Fits user)
    (hids : (final (deviceStep P S keys user) (Devices.idle Db.fresh)
      (js ++ s :: (ks ++ [get]))).db.entries.seq < 2 ^ 31)
    (htext : s.request.bind NotebookRequest.text = some text)
    (hsaved : (deviceStep P S keys user
      (final (deviceStep P S keys user) (Devices.idle Db.fresh) js) s).2.saved = some id)
    (hothers : ∀ s' ∈ ks, s'.request.bind NotebookRequest.names ≠ some id.toInt)
    (hget : get.request = some .read) (hgranted : get.granted P = true)
    (hcount : ((final (deviceStep P S keys user) (Devices.idle Db.fresh)
      (js ++ s :: ks)).db.view user).length ≤ maxEntries) :
    (deviceStep P S keys user (final (deviceStep P S keys user) (Devices.idle Db.fresh)
      (js ++ s :: ks)) get).2.Lists id text := by
  have hseq : ∀ d : Devices, ∀ run, (final (deviceStep P S keys user) d run).db.entries.seq
      < 2 ^ 31 → d.db.entries.seq < 2 ^ 31 := fun d run h =>
    of_final (B := fun d : Devices => d.db.entries.seq < 2 ^ 31)
      (fun d s h => lt_of_le_of_lt (seq_le_deviceStep d s) h) run h
  rw [final_append, final_cons] at hcount ⊢
  rw [final_append, final_cons, final_concat] at hids
  generalize hd : final (deviceStep P S keys user) (Devices.idle Db.fresh) js = d
    at hids hsaved hcount ⊢
  have hids₂ := lt_of_le_of_lt (seq_le_deviceStep _ get) hids
  have hids₁ := hseq _ ks hids₂
  have hids₀ := lt_of_le_of_lt (seq_le_deviceStep d s) hids₁
  -- up to the call that saves, and over it
  obtain ⟨nb₀, -, h₀⟩ := shows_run I (shows_idle S keys user) js
    (fun s' hs' => hfits s' (List.mem_append_left _ hs')) (hd ▸ hids₀)
  rw [hd] at h₀
  obtain ⟨nb₁, hstep, h₁⟩ := shows_step I h₀ (hfits s (by simp)) hids₁
  obtain ⟨k, hk, hhas⟩ := has_of_saved hstep htext hsaved
  have hkid : k = id.toInt := by
    obtain ⟨id', rfl⟩ := h₁.keeps.exists_id hhas
    rw [← hk, Int32.ofInt_toInt]
  -- the calls in between leave it, and the GET lists it
  obtain ⟨nb₂, hfollows, h₂⟩ := shows_run I h₁ ks
    (fun s' hs' => hfits s' (by simp [hs'])) hids₂
  have hhas₂ : nb₂.Has k text := by
    refine hfollows.invariant (I := fun nb => nb.Has k text)
      (fun s' result b b' hmem hspec => has_of_other hspec ?_) hhas
    obtain ⟨js', s'', ks', heq, hpair⟩ := (mem_trace_iff _).mp hmem
    obtain ⟨rfl, -⟩ := Prod.mk.inj hpair
    rw [hkid]
    exact hothers s' (heq ▸ by simp)
  obtain ⟨nb₃, hlast, -⟩ := shows_step I h₂ (hfits get (by simp)) hids
  have hlen : nb₂.pages.length ≤ maxEntries := h₂.keeps.rows.length_eq ▸ hcount
  exact hk ▸ lists_of_has hlast hget hgranted hlen hhas₂

/-- What the terminal saved is on another phone. -/
theorem saved_is_listed_on_phone :
    (deviceStep (boxingProto openBoxes openKeys) openBoxes openKeys (lit "alice")
      (final (deviceStep (boxingProto openBoxes openKeys) openBoxes openKeys (lit "alice"))
        (Devices.idle Db.fresh) terminalThenPhone)
      (.phone 0 ⟨(), grantingEnv 9⟩ .get)).2.Lists 1 [0x68, 0xC3, 0xA9] := by
  refine saved_is_listed_everywhere interoperates_openBoxes (lit "alice") []
    [.phone 3 ⟨(), grantingEnv 8⟩ (.post [0x21])]
    (.terminal 0 ⟨(), grantingEnv 7, true⟩ (.post [0x68, 0xC3, 0xA9] 5))
    (.phone 0 ⟨(), grantingEnv 9⟩ .get) ?_ (by decide) rfl (by decide) ?_ rfl rfl (by decide)
  · intro s hs
    rw [List.nil_append, List.mem_cons, List.mem_append, List.mem_singleton,
      List.mem_singleton] at hs
    rcases hs with rfl | rfl | rfl
    · exact fits_terminalThenPhone _ List.mem_cons_self
    · exact fits_terminalThenPhone _ (List.mem_cons_of_mem _ List.mem_cons_self)
    · exact trivial
  · intro s hs
    obtain rfl := List.mem_singleton.mp hs
    exact nofun

end Diary
