/-
Diary/Isolation.lean

Ownership isolation, as a statement about two runs: the requests of many
users, and the same requests with those of every other user left out.  The
id counter is shared, so the ids one user is given depend on the others;
nothing else does.

The runs are related by a renaming `ρ` of the user's ids, which grows as
the user is given ids (`Isolated`): the two counters drift apart, the view
of the second run is the renamed view of the first, and `ρ` keeps the order
of every id the user knows.  A request of another user moves the first run
alone (`Isolated.other`); a request of the user moves both and is answered
alike (`Isolated.own`), provided the ids it names are known.
-/
import Diary.View

namespace Diary

open CString Machine

/-! ### Renaming -/

variable {ρ ρ' : Int32 → Int32}

def EntryLine.rename (ρ : Int32 → Int32) (l : EntryLine) : EntryLine := { l with id := ρ l.id }

/-- A reply, with its ids renamed. -/
def Reply.rename (ρ : Int32 → Int32) : Reply → Reply
  | .bye => .bye
  | .okId id => .okId (ρ id)
  | .ok => .ok
  | .entries ls => .entries (ls.map (EntryLine.rename ρ))
  | .fail why => .fail why

def Command.rename (ρ : Int32 → Int32) : Command → Command
  | .update id data => .update (ρ id) data
  | .delete id => .delete (ρ id)
  | c => c

/-- A request, with the id in its line renamed; a line that names no entry
stays as it is. -/
def Request.rename (ρ : Int32 → Int32) (r : Request) : Request :=
  { r with
    line :=
      match parseLine r.env.now r.line with
      | .update id data => lit "UPDATE " ++ (dec (ρ id).toInt ++ 32 :: data)
      | .delete id => lit "DELETE " ++ dec (ρ id).toInt
      | _ => r.line }

@[simp] theorem Request.rename_user (r : Request) : (r.rename ρ).user = r.user := rfl

@[simp] theorem Request.rename_env (r : Request) : (r.rename ρ).env = r.env := rfl

/-- The renamed line spells the renamed command. -/
theorem parseLine_rename (r : Request) :
    parseLine r.env.now (r.rename ρ).line = (parseLine r.env.now r.line).rename ρ := by
  rw [Request.rename]
  rcases hline : parseLine r.env.now r.line with - | ⟨ts, data⟩ | - | ⟨id, data⟩ | - | id | -
  case update => exact parseLine_update _ _ _
  case delete => exact parseLine_delete _ _
  all_goals simpa [Command.rename] using hline

/-! ### The ids a user knows -/

/-- The entry a command names. -/
def Command.namedId : Command → Option Int32
  | .update id _ | .delete id => some id
  | .quit | .post _ _ | .get | .badUpdate | .unknown => none

/-- The ids in a reply. -/
def Reply.givenIds : Reply → List Int32
  | .okId id => [id]
  | .entries ls => ls.map EntryLine.id
  | .bye | .ok | .fail _ => []

/-- The replies a user got in a run. -/
def repliesTo (user : Bytes) (run : List (Request × Reply)) : List Reply :=
  (run.filter fun q => q.1.user = user).map Prod.snd

/-- The ids a user was given in a run. -/
def givenIds (user : Bytes) (run : List (Request × Reply)) : List Int32 :=
  (repliesTo user run).flatMap Reply.givenIds

/-- Every UPDATE and DELETE of the user names an id of `known`, or one the
user was given before. -/
def NamesKnownIds (user : Bytes) (known : List Int32) (db : Db) (reqs : List Request) : Prop :=
  ∀ before r after, reqs = before ++ r :: after → r.user = user →
    ∀ id, (parseLine r.env.now r.line).namedId = some id →
      id ∈ known ∨ id ∈ givenIds user (trace serve db before)

/-- The requests of one user, renamed, without anybody else's. -/
def alone (user : Bytes) (ρ : Int32 → Int32) (reqs : List Request) : List Request :=
  (reqs.filter fun r => r.user = user).map (Request.rename ρ)

theorem Request.rename_congr {r : Request}
    (h : ∀ id, (parseLine r.env.now r.line).namedId = some id → ρ id = ρ' id) :
    r.rename ρ = r.rename ρ' := by
  unfold Request.rename
  rcases hline : parseLine r.env.now r.line with - | ⟨ts, data⟩ | - | ⟨id, data⟩ | - | id | -
  case update => simp only [h id (by rw [hline]; rfl)]
  case delete => simp only [h id (by rw [hline]; rfl)]
  all_goals rfl

theorem Reply.rename_congr {reply : Reply} (h : ∀ id ∈ reply.givenIds, ρ id = ρ' id) :
    reply.rename ρ = reply.rename ρ' := by
  cases reply with
  | bye | ok | fail => rfl
  | okId id => simp [Reply.rename, h id (by simp [Reply.givenIds])]
  | entries ls =>
      simp only [Reply.rename, Reply.entries.injEq]
      refine List.map_congr_left fun l hl => ?_
      simp [EntryLine.rename, h l.id (List.mem_map_of_mem hl)]

/-! ### GET under a renaming -/

def EntryCollect.rename (ρ : Int32 → Int32) (c : EntryCollect) : EntryCollect :=
  { c with lines := c.lines.map (EntryLine.rename ρ) }

/-- The collector never looks at the ids. -/
theorem collectEntry_rename (l : EntryLine) (c : EntryCollect) :
    collectEntry (ρ l.id) l.ts l.data (c.rename ρ)
      = (collectEntry l.id l.ts l.data c).rename ρ := by
  by_cases hfull : maxEntries ≤ c.lines.length
  · simp [collectEntry, EntryCollect.rename, hfull]
  · by_cases hnull : c.malloc.head? = some false
    · simp [collectEntry, EntryCollect.rename, hfull, hnull]
    · simp [collectEntry, EntryCollect.rename, EntryLine.rename, hfull, hnull]

theorem collect_rename (malloc : List Bool) (v : List EntryLine) :
    collect malloc (v.map (EntryLine.rename ρ)) = (collect malloc v).map (EntryLine.rename ρ) := by
  have hfold : ∀ (v : List EntryLine) (c : EntryCollect),
      (v.map (EntryLine.rename ρ)).foldl (fun c l => collectEntry l.id l.ts l.data c) (c.rename ρ)
        = (v.foldl (fun c l => collectEntry l.id l.ts l.data c) c).rename ρ := by
    intro v
    induction v with
    | nil => exact fun c => rfl
    | cons l v ih =>
        intro c
        rw [List.map_cons, List.foldl_cons, List.foldl_cons, ← ih, ← collectEntry_rename]
        rfl
  exact congrArg EntryCollect.lines (hfold v ⟨[], malloc⟩)

/-! ### The relation between the two runs -/

/-- Two databases that look alike to one user, up to `ρ` on the ids of
`known`. -/
structure Isolated (user : Bytes) (ρ : Int32 → Int32) (known : List Int32) (db₁ db₂ : Db) :
    Prop where
  seq_le : db₂.entries.seq ≤ db₁.entries.seq
  view_eq : db₂.view user = (db₁.view user).map (EntryLine.rename ρ)
  view_known : ∀ l ∈ db₁.view user, l.id ∈ known
  id_le : ∀ i ∈ known, i.toInt ≤ db₁.entries.seq
  rename_le : ∀ i ∈ known, (ρ i).toInt ≤ db₂.entries.seq
  mono : ∀ i ∈ known, ∀ j ∈ known, i.toInt < j.toInt → (ρ i).toInt < (ρ j).toInt

variable {user : Bytes} {known : List Int32} {db₁ db₂ : Db}

/-- A renaming that keeps the order keeps ids apart. -/
theorem Isolated.inj (h : Isolated user ρ known db₁ db₂) {i j : Int32} (hi : i ∈ known)
    (hj : j ∈ known) (he : ρ i = ρ j) : i = j := by
  rcases lt_trichotomy i.toInt j.toInt with hlt | heq | hgt
  · have := h.mono i hi j hj hlt
    rw [he] at this
    omega
  · exact Int32.toInt_inj.mp heq
  · have := h.mono j hj i hi hgt
    rw [he] at this
    omega

/-- The relation asks about the ids in `known`, not how they are listed. -/
theorem Isolated.known_congr (h : Isolated user ρ known db₁ db₂) {known' : List Int32}
    (hsub : ∀ i, i ∈ known' ↔ i ∈ known) : Isolated user ρ known' db₁ db₂ where
  seq_le := h.seq_le
  view_eq := h.view_eq
  view_known := fun l hl => (hsub _).mpr (h.view_known l hl)
  id_le := fun i hi => h.id_le i ((hsub i).mp hi)
  rename_le := fun i hi => h.rename_le i ((hsub i).mp hi)
  mono := fun i hi j hj => h.mono i ((hsub i).mp hi) j ((hsub j).mp hj)

/-- A database looks like itself. -/
theorem isolated_refl (user : Bytes) {db : Db} (hids : db.entries.seq < 2 ^ 31) :
    Isolated user id ((db.view user).map EntryLine.id) db db where
  seq_le := le_refl _
  view_eq := (List.map_id _).symm
  view_known := fun l hl => List.mem_map_of_mem hl
  id_le := by
    intro i hi
    obtain ⟨l, hl, rfl⟩ := List.mem_map.mp hi
    exact (view_id_bounds hids hl).2
  rename_le := by
    intro i hi
    obtain ⟨l, hl, rfl⟩ := List.mem_map.mp hi
    exact (view_id_bounds hids hl).2
  mono := fun i _ j _ h => h

/-- A request of another user moves the first run alone. -/
theorem Isolated.other (h : Isolated user ρ known db₁ db₂) {r : Request} (hu : r.user ≠ user)
    (hids : (serve db₁ r).1.entries.seq < 2 ^ 31) :
    Isolated user ρ known (serve db₁ r).1 db₂ := by
  have hview := view_serve_of_ne hu hids
  have hseq := seq_le_serve db₁ r
  exact
    { seq_le := h.seq_le.trans hseq
      view_eq := by rw [hview]; exact h.view_eq
      view_known := by rw [hview]; exact h.view_known
      id_le := fun i hi => (h.id_le i hi).trans (by exact_mod_cast hseq)
      rename_le := h.rename_le
      mono := h.mono }

/-! ### A request of the user -/

theorem seq_serve_of_not_post (db : Db) {r : Request}
    (h : ∀ ts data, parseLine r.env.now r.line = .post ts data → r.env.done = false) :
    (serve db r).1.entries.seq = db.entries.seq := by
  rw [serve_eq]
  rcases hline : parseLine r.env.now r.line with - | ⟨ts, data⟩ | - | ⟨id, data⟩ | - | id | -
  · rfl
  · simp [perform, storageAddEntry, h ts data hline]
  · rfl
  · cases hdone : r.env.done <;> simp [perform, storageUpdateEntry, hdone]
  · rfl
  · cases hdone : r.env.done <;> simp [perform, storageDeleteEntry, hdone]
  · rfl

/-- A renaming that is one-to-one on the ids at hand commutes with the
answer, whatever the next id, to anything but a POST that stores a row. -/
theorem answer_rename {env : Env} {next next' : Int32} {v : List EntryLine} {c : Command}
    (hpost : ∀ ts data, c = .post ts data → env.done = false)
    (hinj : ∀ id, c.namedId = some id → ∀ l ∈ v, ρ l.id = ρ id → l.id = id) :
    answer env next' (v.map (EntryLine.rename ρ)) (c.rename ρ)
      = (answer env next v c).rename ρ := by
  -- an id names a row of the view if and only if its new name does
  have hmem : ∀ id, c.namedId = some id →
      (ρ id ∈ (v.map (EntryLine.rename ρ)).map EntryLine.id ↔ id ∈ v.map EntryLine.id) := by
    intro id hid
    simp only [List.map_map, List.mem_map, Function.comp_apply, EntryLine.rename]
    constructor
    · rintro ⟨l, hl, he⟩
      exact ⟨l, hl, hinj id hid l hl he⟩
    · rintro ⟨l, hl, rfl⟩
      exact ⟨l, hl, rfl⟩
  cases c with
  | quit | badUpdate | unknown => rfl
  | post ts data => simp [answer, Command.rename, Reply.rename, hpost ts data rfl]
  | get =>
      simp only [answer, Command.rename, collect_rename]
      split <;> rfl
  | update id data =>
      simp only [answer, Command.rename, hmem id rfl]
      split <;> rfl
  | delete id =>
      simp only [answer, Command.rename, hmem id rfl]
      split <;> rfl

/-- The view follows the renamed reply as it follows the reply. -/
theorem noteEntry_rename {v : List EntryLine} {r : Request} {reply : Reply}
    (hinj : ∀ id, (parseLine r.env.now r.line).namedId = some id →
      ∀ l ∈ v, ρ l.id = ρ id → l.id = id) :
    noteEntry user (v.map (EntryLine.rename ρ)) (r.rename ρ, reply.rename ρ)
      = (noteEntry user v (r, reply)).map (EntryLine.rename ρ) := by
  unfold noteEntry
  simp only [Request.rename_user, Request.rename_env, parseLine_rename]
  split
  · rcases hline : parseLine r.env.now r.line with - | ⟨ts, data⟩ | - | ⟨id, data⟩ | - | id | -
    -- the row named is the same one under its new name
    case update =>
      cases reply <;> simp only [Command.rename, Reply.rename]
      simp only [List.map_map]
      refine List.map_congr_left fun l hl => ?_
      by_cases he : l.id = id
      · simp [EntryLine.withData, EntryLine.rename, he]
      · have hne : ρ l.id ≠ ρ id := fun h => he (hinj id (by rw [hline]; rfl) l hl h)
        simp [EntryLine.withData, EntryLine.rename, he, hne]
    case delete =>
      cases reply <;> simp only [Command.rename, Reply.rename]
      rw [List.filter_map]
      refine congrArg _ (List.filter_congr fun l hl => ?_)
      by_cases he : l.id = id
      · simp [EntryLine.rename, he]
      · have hne : ρ l.id ≠ ρ id := fun h => he (hinj id (by rw [hline]; rfl) l hl h)
        simp [EntryLine.rename, he, hne]
    all_goals
      cases reply <;> simp [Command.rename, Reply.rename, EntryLine.rename]
  · rfl

/-- An entry is noted under an id that was there before or was just given. -/
theorem mem_noteEntry {v : List EntryLine} {r : Request} {reply : Reply} {l : EntryLine}
    (h : l ∈ noteEntry user v (r, reply)) :
    (∃ l' ∈ v, l'.id = l.id) ∨ l.id ∈ reply.givenIds := by
  rw [noteEntry] at h
  simp only at h
  split at h
  · split at h
    · next id =>
        rcases List.mem_append.mp h with h | h
        · exact Or.inl ⟨l, h, rfl⟩
        · right
          rw [List.mem_singleton.mp h]
          simp [Reply.givenIds]
    · obtain ⟨l', hl', rfl⟩ := List.mem_map.mp h
      refine Or.inl ⟨l', hl', ?_⟩
      rw [EntryLine.withData]
      split <;> rfl
    · exact Or.inl ⟨l, List.mem_of_mem_filter h, rfl⟩
    · exact Or.inl ⟨l, h, rfl⟩
  · exact Or.inl ⟨l, h, rfl⟩

/-- Only a stored POST hands out an id that is not in the view. -/
theorem givenIds_answer {env : Env} {next id : Int32} {v : List EntryLine} {c : Command}
    (hpost : ∀ ts data, c = .post ts data → env.done = false)
    (h : id ∈ (answer env next v c).givenIds) : ∃ l ∈ v, l.id = id := by
  cases c with
  | quit | badUpdate | unknown => simp [answer, Reply.givenIds] at h
  | post ts data => simp [answer, hpost ts data rfl, Reply.givenIds] at h
  | get =>
      simp only [answer] at h
      split at h
      · obtain ⟨l, hl, he⟩ := List.mem_map.mp h
        exact ⟨l, (collect_sublist _ _).subset hl, he⟩
      · simp [Reply.givenIds] at h
  | update | delete =>
      simp only [answer] at h
      split at h <;> simp [Reply.givenIds] at h

/-- A POST that stores a row: both counters give out their next id, and the
renaming is extended by the pair. -/
theorem Isolated.own_post (h : Isolated user ρ known db₁ db₂) {r : Request} (hu : r.user = user)
    {ts : Int64} {data : Bytes} (hline : parseLine r.env.now r.line = .post ts data)
    (hdone : r.env.done = true) (hids : (serve db₁ r).1.entries.seq < 2 ^ 31) :
    ∃ ρ' : Int32 → Int32, (∀ i ∈ known, ρ' i = ρ i) ∧
      (serve db₂ (r.rename ρ')).2 = (serve db₁ r).2.rename ρ' ∧
      Isolated user ρ' (known ++ (serve db₁ r).2.givenIds) (serve db₁ r).1
        (serve db₂ (r.rename ρ')).1 := by
  have hroom := lt_maxRowid (seq_lt_of_serve _ _ hids)
  have hids₁ : db₁.entries.seq + 1 < 2 ^ 31 := by
    rw [serve_eq, hline] at hids
    simpa [perform, storageAddEntry, hdone, hroom] using hids
  have hids₂ : db₂.entries.seq + 1 < 2 ^ 31 := lt_of_le_of_lt (by simpa using h.seq_le) hids₁
  -- the ids the two runs give to the new row
  obtain ⟨n₁, hn₁⟩ : ∃ n, n = rowidToInt (db₁.entries.seq + 1) := ⟨_, rfl⟩
  obtain ⟨n₂, hn₂⟩ : ∃ n, n = rowidToInt (db₂.entries.seq + 1) := ⟨_, rfl⟩
  have hval₁ : n₁.toInt = (db₁.entries.seq + 1 : ℕ) := hn₁ ▸ toInt_rowidToInt hids₁
  have hval₂ : n₂.toInt = (db₂.entries.seq + 1 : ℕ) := hn₂ ▸ toInt_rowidToInt hids₂
  have hfresh : ∀ i ∈ known, i ≠ n₁ := by
    rintro i hi rfl
    have := h.id_le _ hi
    omega
  have hsame : ∀ i ∈ known, Function.update ρ n₁ n₂ i = ρ i := fun i hi =>
    Function.update_of_ne (hfresh i hi) _ _
  have hrename : r.rename (Function.update ρ n₁ n₂) = r := by
    simp [Request.rename, hline]
  have hs₁ := serve_post hline hdone hids₁
  have hs₂ := serve_post hline hdone hids₂
  rw [← hn₁] at hs₁
  rw [← hn₂] at hs₂
  refine ⟨Function.update ρ n₁ n₂, hsame, ?_, ?_⟩
  · rw [hrename, hs₁, hs₂]
    simp [Reply.rename]
  rw [hrename, hs₁, hs₂]
  have hmem : ∀ i, i ∈ known ++ [n₁] ↔ i ∈ known ∨ i = n₁ := by simp
  refine
    { seq_le := by simpa using h.seq_le
      view_eq := ?_
      view_known := ?_
      id_le := ?_
      rename_le := ?_
      mono := ?_ }
  · -- the old lines are renamed as before, the new one by the pair
    have hold : (db₁.view user).map (EntryLine.rename (Function.update ρ n₁ n₂))
        = (db₁.view user).map (EntryLine.rename ρ) :=
      List.map_congr_left fun l hl => by
        simp only [EntryLine.rename, hsame _ (h.view_known l hl)]
    rw [view_insert, view_insert, if_pos hu, if_pos hu, List.map_append, hold, h.view_eq,
      ← hn₁, ← hn₂]
    simp [EntryLine.rename]
  · intro l hl
    rw [view_insert, if_pos hu, ← hn₁] at hl
    rcases List.mem_append.mp hl with hl | hl
    · exact (hmem _).mpr (Or.inl (h.view_known l hl))
    · exact (hmem _).mpr (Or.inr (by simp [List.mem_singleton.mp hl]))
  · intro i hi
    rcases (hmem i).mp hi with hold | hnew
    · exact (h.id_le i hold).trans (by simp)
    · rw [hnew]
      exact hval₁.le
  · intro i hi
    rcases (hmem i).mp hi with hold | hnew
    · rw [hsame i hold]
      exact (h.rename_le i hold).trans (by simp)
    · rw [hnew, Function.update_self]
      exact hval₂.le
  · intro i hi j hj hlt
    -- every known id is at most its counter, so only the new one is above it
    rcases (hmem i).mp hi with hold | hnew <;> rcases (hmem j).mp hj with hold' | hnew'
    · rw [hsame i hold, hsame j hold']
      exact h.mono i hold j hold' hlt
    · have := h.rename_le i hold
      rw [hsame i hold, hnew', Function.update_self]
      omega
    · have := h.id_le j hold'
      rw [hnew] at hlt
      omega
    · rw [hnew, hnew'] at hlt
      exact absurd hlt (lt_irrefl _)

/-- Any other request of the user: neither counter moves, and the same
renaming does. -/
theorem Isolated.own_other (h : Isolated user ρ known db₁ db₂) {r : Request} (hu : r.user = user)
    (hpost : ∀ ts data, parseLine r.env.now r.line = .post ts data → r.env.done = false)
    (hnamed : ∀ id, (parseLine r.env.now r.line).namedId = some id → id ∈ known)
    (hids : (serve db₁ r).1.entries.seq < 2 ^ 31) :
    (serve db₂ (r.rename ρ)).2 = (serve db₁ r).2.rename ρ ∧
      Isolated user ρ (known ++ (serve db₁ r).2.givenIds) (serve db₁ r).1
        (serve db₂ (r.rename ρ)).1 := by
  subst hu
  have hpost₂ : ∀ ts data, parseLine (r.rename ρ).env.now (r.rename ρ).line = .post ts data →
      (r.rename ρ).env.done = false := by
    intro ts data hline
    rw [Request.rename_env, parseLine_rename] at hline
    cases hc : parseLine r.env.now r.line with
    | post ts' data' => exact hpost ts' data' hc
    | quit | get | update | badUpdate | delete | unknown => rw [hc] at hline; cases hline
  have hseq₁ := seq_serve_of_not_post db₁ hpost
  have hseq₂ := seq_serve_of_not_post db₂ hpost₂
  have hids₂ : (serve db₂ (r.rename ρ)).1.entries.seq < 2 ^ 31 := by
    rw [hseq₂]
    rw [hseq₁] at hids
    exact lt_of_le_of_lt h.seq_le hids
  -- an id that is named is known, and the renaming is one-to-one on known ids
  have hinj : ∀ id, (parseLine r.env.now r.line).namedId = some id →
      ∀ l ∈ db₁.view r.user, ρ l.id = ρ id → l.id = id := fun id hid l hl he =>
    h.inj (h.view_known l hl) (hnamed id hid) he
  have hreply₁ := answer_serve hids
  have hreply : (serve db₂ (r.rename ρ)).2 = (serve db₁ r).2.rename ρ := by
    rw [answer_serve hids₂, hreply₁, Request.rename_user, Request.rename_env, parseLine_rename,
      h.view_eq]
    exact answer_rename hpost hinj
  have hview : (serve db₂ (r.rename ρ)).1.view r.user
      = ((serve db₁ r).1.view r.user).map (EntryLine.rename ρ) := by
    rw [view_serve hids₂, view_serve hids, h.view_eq, hreply]
    exact noteEntry_rename hinj
  -- the ids a GET gives are those of the view, which are known
  have hsub : ∀ i, i ∈ known ++ (serve db₁ r).2.givenIds ↔ i ∈ known := by
    intro i
    refine ⟨fun hi => ?_, fun hi => List.mem_append_left _ hi⟩
    rcases List.mem_append.mp hi with hi | hi
    · exact hi
    · rw [hreply₁] at hi
      obtain ⟨l, hl, rfl⟩ := givenIds_answer hpost hi
      exact h.view_known l hl
  have hstep : Isolated r.user ρ known (serve db₁ r).1 (serve db₂ (r.rename ρ)).1 :=
    { seq_le := by rw [hseq₁, hseq₂]; exact h.seq_le
      view_eq := hview
      view_known := fun l hl => by
        rw [view_serve hids] at hl
        rcases mem_noteEntry hl with ⟨l', hl', he⟩ | hgiven
        · rw [← he]
          exact h.view_known l' hl'
        · exact (hsub _).mp (List.mem_append_right _ hgiven)
      id_le := by rw [hseq₁]; exact h.id_le
      rename_le := by rw [hseq₂]; exact h.rename_le
      mono := h.mono }
  exact ⟨hreply, hstep.known_congr hsub⟩

/-- A request of the user, whatever it is. -/
theorem Isolated.own (h : Isolated user ρ known db₁ db₂) {r : Request} (hu : r.user = user)
    (hnamed : ∀ id, (parseLine r.env.now r.line).namedId = some id → id ∈ known)
    (hids : (serve db₁ r).1.entries.seq < 2 ^ 31) :
    ∃ ρ' : Int32 → Int32, (∀ i ∈ known, ρ' i = ρ i) ∧
      (serve db₂ (r.rename ρ')).2 = (serve db₁ r).2.rename ρ' ∧
      Isolated user ρ' (known ++ (serve db₁ r).2.givenIds) (serve db₁ r).1
        (serve db₂ (r.rename ρ')).1 := by
  by_cases hpost : ∃ ts data, parseLine r.env.now r.line = .post ts data ∧ r.env.done = true
  · obtain ⟨ts, data, hline, hdone⟩ := hpost
    exact h.own_post hu hline hdone hids
  · have hnot : ∀ ts data, parseLine r.env.now r.line = .post ts data → r.env.done = false :=
      fun ts data hline => Bool.eq_false_iff.mpr fun hdone => hpost ⟨ts, data, hline, hdone⟩
    exact ⟨ρ, fun i _ => rfl, h.own_other hu hnot hnamed hids⟩

/-! ### Whole runs -/

theorem repliesTo_cons (user : Bytes) (r : Request) (reply : Reply)
    (run : List (Request × Reply)) :
    repliesTo user ((r, reply) :: run)
      = if r.user = user then reply :: repliesTo user run else repliesTo user run := by
  simp only [repliesTo, List.filter_cons, decide_eq_true_eq]
  split <;> rfl

theorem givenIds_cons (user : Bytes) (r : Request) (reply : Reply)
    (run : List (Request × Reply)) :
    givenIds user ((r, reply) :: run)
      = if r.user = user then reply.givenIds ++ givenIds user run else givenIds user run := by
  simp only [givenIds, repliesTo_cons]
  split <;> rfl

theorem alone_cons (user : Bytes) (ρ : Int32 → Int32) (r : Request) (reqs : List Request) :
    alone user ρ (r :: reqs)
      = if r.user = user then r.rename ρ :: alone user ρ reqs else alone user ρ reqs := by
  simp only [alone, List.filter_cons, decide_eq_true_eq]
  split <;> rfl

theorem namesKnownIds_nil (user : Bytes) (known : List Int32) (db : Db) :
    NamesKnownIds user known db [] := by
  intro before r after h
  simp at h

/-- What was known before a request and what it gave is known after it. -/
theorem namesKnownIds_cons_iff {db : Db} {r : Request} {reqs : List Request} :
    NamesKnownIds user known db (r :: reqs) ↔
      (r.user = user → ∀ id, (parseLine r.env.now r.line).namedId = some id → id ∈ known) ∧
      NamesKnownIds user
        (known ++ if r.user = user then (serve db r).2.givenIds else []) (serve db r).1 reqs := by
  -- the ids given in the first reply are known to the rest
  have hgiven : ∀ before, givenIds user (trace serve db (r :: before))
      = (if r.user = user then (serve db r).2.givenIds else [])
        ++ givenIds user (trace serve (serve db r).1 before) := by
    intro before
    rw [trace_cons, givenIds_cons]
    split <;> rfl
  constructor
  · intro h
    constructor
    · intro hu id hid
      exact (h [] r reqs rfl hu id hid).resolve_right (by simp [givenIds, repliesTo])
    · rintro before q after rfl hq id hid
      have hmem := h (r :: before) q after rfl hq id hid
      rw [hgiven] at hmem
      rw [List.mem_append, or_assoc, ← List.mem_append]
      exact hmem
  · rintro ⟨hhead, htail⟩ before q after heq hq id hid
    cases before with
    | nil =>
        obtain ⟨rfl, rfl⟩ := List.cons.inj heq
        exact Or.inl (hhead hq id hid)
    | cons r' before =>
        obtain ⟨rfl, rfl⟩ := List.cons.inj heq
        have hmem := htail before q after rfl hq id hid
        rw [List.mem_append, or_assoc, ← List.mem_append] at hmem
        rw [hgiven]
        exact hmem

/-- The relation over a whole run. -/
theorem Isolated.run {reqs : List Request} (h : Isolated user ρ known db₁ db₂)
    (hnamed : NamesKnownIds user known db₁ reqs)
    (hids : (final serve db₁ reqs).entries.seq < 2 ^ 31) :
    ∃ ρ' : Int32 → Int32, (∀ i ∈ known, ρ' i = ρ i) ∧
      (trace serve db₂ (alone user ρ' reqs)).map Prod.snd
        = (repliesTo user (trace serve db₁ reqs)).map (Reply.rename ρ') ∧
      Isolated user ρ' (known ++ givenIds user (trace serve db₁ reqs)) (final serve db₁ reqs)
        (final serve db₂ (alone user ρ' reqs)) := by
  induction reqs generalizing ρ known db₁ db₂ with
  | nil => exact ⟨ρ, fun _ _ => rfl, rfl, by simpa [givenIds, repliesTo, alone] using h⟩
  | cons r reqs ih =>
      have hids₁ : (serve db₁ r).1.entries.seq < 2 ^ 31 :=
        of_final (B := fun db : Db => db.entries.seq < 2 ^ 31)
          (fun db r => seq_lt_of_serve db r) reqs hids
      obtain ⟨hhead, htail⟩ := namesKnownIds_cons_iff.mp hnamed
      by_cases hu : r.user = user
      · obtain ⟨ρ₁, hsame₁, hreply, hstep⟩ := h.own hu (hhead hu) hids₁
        rw [if_pos hu] at htail
        obtain ⟨ρ', hsame, hrun, hfinal⟩ := ih hstep htail hids
        -- `ρ'` renames this request and its reply as `ρ₁` does
        have hreq : r.rename ρ' = r.rename ρ₁ :=
          Request.rename_congr fun id hid => hsame id (List.mem_append_left _ (hhead hu id hid))
        have hgiven : (serve db₁ r).2.rename ρ' = (serve db₁ r).2.rename ρ₁ :=
          Reply.rename_congr fun id hid => hsame id (List.mem_append_right _ hid)
        refine ⟨ρ', fun i hi => ?_, ?_, ?_⟩
        · rw [hsame i (List.mem_append_left _ hi), hsame₁ i hi]
        · rw [alone_cons, if_pos hu, trace_cons, trace_cons, repliesTo_cons, if_pos hu, hreq,
            List.map_cons, List.map_cons, hrun, hgiven, ← hreply]
        · rw [alone_cons, if_pos hu, trace_cons, givenIds_cons, if_pos hu, final_cons, final_cons,
            hreq, ← List.append_assoc]
          exact hfinal
      · -- the second run does not see the request
        rw [if_neg hu, List.append_nil] at htail
        obtain ⟨ρ', hsame, hrun, hfinal⟩ := ih (h.other hu hids₁) htail hids
        refine ⟨ρ', hsame, ?_, ?_⟩
        · rw [alone_cons, if_neg hu, trace_cons, repliesTo_cons, if_neg hu]
          exact hrun
        · rw [alone_cons, if_neg hu, trace_cons, givenIds_cons, if_neg hu, final_cons]
          exact hfinal

/-- Every id a row of the user has in a run: before it, or given in it. -/
def idsOf (user : Bytes) (db : Db) (reqs : List Request) : List Int32 :=
  (db.view user).map EntryLine.id ++ givenIds user (trace serve db reqs)

/-- **Isolation.**  Leave the requests of all other users out of a run.
Then, up to a renaming of the user's ids that keeps their order, and that
the user's own requests go through too, the user gets the same replies and
is left with the same rows. -/
theorem others_do_not_show (user : Bytes) (db : Db) (reqs : List Request)
    (hnamed : NamesKnownIds user [] db reqs)
    (hids : (final serve db reqs).entries.seq < 2 ^ 31) :
    ∃ ρ : Int32 → Int32,
      (∀ i ∈ idsOf user db reqs, ∀ j ∈ idsOf user db reqs,
        i.toInt < j.toInt → (ρ i).toInt < (ρ j).toInt) ∧
      (trace serve db (alone user ρ reqs)).map Prod.snd
        = (repliesTo user (trace serve db reqs)).map (Reply.rename ρ) ∧
      (final serve db (alone user ρ reqs)).view user
        = ((final serve db reqs).view user).map (EntryLine.rename ρ) := by
  have hids₀ : db.entries.seq < 2 ^ 31 :=
    of_final (B := fun db : Db => db.entries.seq < 2 ^ 31)
      (fun db r => seq_lt_of_serve db r) reqs hids
  have hnamed' : NamesKnownIds user ((db.view user).map EntryLine.id) db reqs :=
    fun before r after hreqs hu id hid =>
      Or.inr ((hnamed before r after hreqs hu id hid).resolve_left (List.not_mem_nil))
  obtain ⟨ρ, -, hrun, hfinal⟩ := (isolated_refl user hids₀).run hnamed' hids
  exact ⟨ρ, hfinal.mono, hrun, hfinal.view_eq⟩

theorem others_do_not_show_bob :
    let post (user : Bytes) : Request := ⟨user, ⟨7, true, true, []⟩, lit "POST aGk="⟩
    let update : Request := ⟨lit "bob", ⟨8, true, true, []⟩, lit "UPDATE 2 eW8="⟩
    let reqs := [post (lit "alice"), post (lit "bob"), update]
    ∃ ρ : Int32 → Int32,
      (trace serve Db.fresh (alone (lit "bob") ρ reqs)).map Prod.snd
        = [.okId (ρ 2), .ok] := by
  intro post update reqs
  have hnamed : NamesKnownIds (lit "bob") [] Db.fresh reqs := by
    refine namesKnownIds_cons_iff.mpr ⟨by decide, ?_⟩
    refine namesKnownIds_cons_iff.mpr ⟨fun _ id hid => ?_, ?_⟩
    · cases hid
    refine namesKnownIds_cons_iff.mpr ⟨fun _ id hid => ?_, namesKnownIds_nil _ _ _⟩
    obtain rfl : 2 = id := Option.some.inj hid
    decide
  obtain ⟨ρ, -, hrun, -⟩ := others_do_not_show (lit "bob") Db.fresh reqs hnamed (by decide)
  exact ⟨ρ, hrun⟩

end Diary
