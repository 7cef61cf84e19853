/-
Diary/Entries.lean

What the client makes of the rows the server keeps for it.

`EntryLine.shown` is what should be shown of a row: its id, its timestamp,
and its text or the words for a blob that does not open.

* `post_then_get`: an entry that is posted is shown, beside what was shown
  before; none of the fixed buffers on the way cuts it.
* `shows_every_row_iff`: rows that no client of ours wrote may be there
  too, and hide the others exactly when their data is nothing but blanks,
  or misrepresent themselves when a blob is hidden behind a blank.
-/
import Diary.Net

namespace Diary

open CString Machine

variable {ν : Type*} {P : Proto ν} {user : Bytes}

/-! ### What is shown of a row -/

/-- What a row should be shown as. -/
def EntryLine.shown (P : Proto ν) (l : EntryLine) : DiaryEntry :=
  ⟨l.id, l.ts, shownText P l.data⟩

/-- What the split of a row's data shows. -/
def EntryLine.split (P : Proto ν) (l : EntryLine) : Option DiaryEntry :=
  (strtok 32 l.data).map fun t => ⟨l.id, l.ts, shownText P t.1⟩

theorem split_of_no_space {l : EntryLine} (hne : l.data ≠ []) (hsp : (32 : UInt8) ∉ l.data) :
    l.split P = some (l.shown P) := by
  rw [EntryLine.split, strtok_of_notMem hne hsp]
  rfl

theorem split_eq_none_iff {l : EntryLine} : l.split P = none ↔ ∀ c ∈ l.data, c = 32 := by
  rw [EntryLine.split, Option.map_eq_none_iff, strtok_eq_none_iff]

theorem sortNewestFirst_perm (arr : List DiaryEntry) : (sortNewestFirst arr).Perm arr :=
  List.mergeSort_perm _ _

/-- The environment of a GET in which every allocation succeeds. -/
structure CallEnv.Allocates (env : CallEnv ν) : Prop where
  server : env.server.calloc = true
  lines : ∀ b ∈ env.server.malloc, b = true
  client : env.calloc = true

/-- The rows of a GET, as they are sent and split. -/
theorem map_parseRow_sentRows (P : Proto ν) (user : Bytes) {env : CallEnv ν}
    (henv : env.Allocates) {db : Db} (hids : db.entries.seq < 2 ^ 31) :
    sentRows env.server user db = (db.view user).take maxEntries ∧
      (((db.view user).take maxEntries).map EntryLine.text).map (parseRow P)
        = ((db.view user).take maxEntries).map (EntryLine.split P) := by
  refine ⟨by rw [sentRows, collect_eq_take henv.lines], ?_⟩
  rw [List.map_map]
  refine List.map_congr_left fun l hl => ?_
  have hid := view_id_bounds hids (List.mem_of_mem_take hl)
  rw [Function.comp_apply, parseRow_text, sentData_eq hid.1.le]
  rfl

/-- A GET whose rows all split. -/
theorem netGetEntries_of_split (hP : P.Lawful) {env : CallEnv ν} (henv : env.Allocates)
    {db : Db} (hids : db.entries.seq < 2 ^ 31) {es : List DiaryEntry}
    (hes : ((db.view user).take maxEntries).map (EntryLine.split P) = es.map some) :
    netGetEntries P user env ⟨db, []⟩ = (⟨db, []⟩, some (sortNewestFirst es)) := by
  obtain ⟨hrows, hparse⟩ := map_parseRow_sentRows P user henv hids
  have hget := getRows_of_forall hP (hparse.trans hes) []
  rw [List.length_map] at hget
  rw [netGetEntries_eq hP rfl]
  simp only [hrows, henv.server, henv.client, Bool.true_eq_false, if_false, hget, Option.map_some,
    List.nil_append]
  split
  · next hnil =>
      obtain rfl : es = [] := by simpa [hnil] using hes.symm
      simp [sortNewestFirst]
  · rfl

/-- A GET with a row that does not split. -/
theorem netGetEntries_of_bad (hP : P.Lawful) {env : CallEnv ν} (henv : env.Allocates) {db : Db}
    (hids : db.entries.seq < 2 ^ 31) {l : EntryLine} (hl : l ∈ (db.view user).take maxEntries)
    (hbad : l.split P = none) : (netGetEntries P user env ⟨db, []⟩).2 = none := by
  obtain ⟨hrows, hparse⟩ := map_parseRow_sentRows P user henv hids
  have hmem : none ∈ ((db.view user).take maxEntries).map (EntryLine.split P) :=
    List.mem_map.mpr ⟨l, hl, hbad⟩
  rw [← hparse] at hmem
  obtain ⟨good, bad, rest, hlines, hgood, hnone⟩ := exists_first_bad (List.mem_map.mp hmem)
  have hget := getRows_of_bad hP hgood hnone rest []
  rw [← hlines, List.length_map] at hget
  rw [netGetEntries_eq hP rfl]
  simp only [hrows, henv.server, henv.client, Bool.true_eq_false, if_false, hget, Option.map_none,
    if_neg (List.ne_nil_of_mem hl)]

/-- **When a list is loaded**: every row sent splits, and the list is the
sort of what they split into. -/
theorem netGetEntries_eq_some_iff (hP : P.Lawful) {env : CallEnv ν} (henv : env.Allocates)
    {db : Db} (hids : db.entries.seq < 2 ^ 31) {es : List DiaryEntry} :
    (netGetEntries P user env ⟨db, []⟩).2 = some es ↔
      ∃ arr : List DiaryEntry,
        ((db.view user).take maxEntries).map (EntryLine.split P) = arr.map some ∧
          es = sortNewestFirst arr := by
  constructor
  · intro hes
    have hall : ∀ l ∈ (db.view user).take maxEntries, (l.split P).isSome := by
      intro l hl
      by_contra hnone
      rw [netGetEntries_of_bad hP henv hids hl (by simpa using hnone)] at hes
      cases hes
    obtain ⟨arr, harr⟩ := exists_map_eq_map_some hall
    rw [netGetEntries_of_split hP henv hids harr] at hes
    exact ⟨arr, harr, (Option.some.inj hes).symm⟩
  · rintro ⟨arr, harr, rfl⟩
    rw [netGetEntries_of_split hP henv hids harr]

/-! ### An entry that is posted is shown -/

/-- A sealed row: non-empty, and base64 has no space. -/
def EntryLine.Sealed (l : EntryLine) : Prop := l.data ≠ [] ∧ (32 : UInt8) ∉ l.data

theorem map_split_of_sealed {v : List EntryLine} (h : ∀ l ∈ v, l.Sealed) :
    v.map (EntryLine.split P) = (v.map (EntryLine.shown P)).map some := by
  rw [List.map_map]
  exact List.map_congr_left fun l hl => split_of_no_space (h l hl).1 (h l hl).2

/-- A GET of at most `MAX_ENTRIES` sealed rows. -/
theorem netGetEntries_of_sealed (hP : P.Lawful) {env : CallEnv ν} (henv : env.Allocates) {db : Db}
    (hids : db.entries.seq < 2 ^ 31) (hcount : (db.view user).length ≤ maxEntries)
    (h : ∀ l ∈ db.view user, l.Sealed) :
    netGetEntries P user env ⟨db, []⟩
      = (⟨db, []⟩, some (sortNewestFirst ((db.view user).map (EntryLine.shown P)))) := by
  apply netGetEntries_of_split hP henv hids
  rw [List.take_of_length_le hcount]
  exact map_split_of_sealed h

/-- What `net_post_entry` stores and returns. -/
theorem netPostEntry_stores (hP : P.Lawful) (user : Bytes) {env : CallEnv ν} {text b64 : Bytes}
    (t : Int64) {db : Db} (hseal : P.sealNew env.nonce text = some b64)
    (hdone : env.server.done = true)
    (hids : db.entries.seq + 1 < 2 ^ 31) :
    netPostEntry P user env text t ⟨db, []⟩
      = (⟨{ db with
              entries :=
                db.entries.insert ⟨user, if 0 < t.toInt then t else env.server.now, b64⟩ }, []⟩,
          rowidToInt (db.entries.seq + 1)) := by
  have hroom := lt_maxRowid (lt_of_le_of_lt (Nat.le_succ _) hids)
  have hid := rowidToInt_not_neg hids
  rw [netPostEntry_eq hP user t rfl hseal]
  simp [storageAddEntry, hdone, hroom, hid]

/-- **Round trip.**  A text posted by `net_post_entry` is in the table
under the id returned, and the next `net_get_entries` returns it under that
id, with the timestamp asked for or else the server's, beside everything
returned before.  No buffer on the way cuts a line. -/
theorem post_then_get {P : Proto ν} (hP : P.Lawful) (user : Bytes) (post get : CallEnv ν)
    (db : Db) (text : Bytes) (t : Int64) (htext : 0 ∉ text)
    (hids : db.entries.seq + 1 < 2 ^ 31) (hcount : (db.view user).length ≤ 1023)
    (hrows : ∀ l ∈ db.view user, l.Sealed) (hseal : (P.sealNew post.nonce text).isSome)
    (hdone : post.server.done = true) (hget : get.Allocates) :
    let ts := if 0 < t.toInt then t else post.server.now
    let w := (netPostEntry P user post text t ⟨db, []⟩).1
    let id := (netPostEntry P user post text t ⟨db, []⟩).2
    (∃ before after,
      netGetEntries P user get ⟨db, []⟩ = (⟨db, []⟩, some before) ∧
      netGetEntries P user get w = (w, some after) ∧
      after.Perm (⟨id, ts, text⟩ :: before)) ∧
    (id.toInt = (db.entries.seq + 1 : ℕ) ∧ ∃ b64, P.sealNew post.nonce text = some b64 ∧
      w.db.entries.lookup (db.entries.seq + 1) = some ⟨user, ts, b64⟩) ∧
    (postPrefix t = (if 0 < t.toInt then lit "POST " ++ (dec t.toInt ++ [32]) else lit "POST ") ∧
      (Reply.okId id).lines = [lit "OK " ++ dec id.toInt] ∧
      ∀ l ∈ w.db.view user, l.text = l.row) := by
  intro ts w id
  obtain ⟨b64, hb64⟩ := Option.isSome_iff_exists.mp hseal
  have hpost := netPostEntry_stores hP user t hb64 hdone hids
  have hid : id = rowidToInt (db.entries.seq + 1) := congrArg Prod.snd hpost
  have hw : w = ⟨{ db with entries := db.entries.insert ⟨user, ts, b64⟩ }, []⟩ :=
    congrArg Prod.fst hpost
  have hids' : w.db.entries.seq < 2 ^ 31 := by
    rw [hw]
    exact hids
  have hview : w.db.view user = db.view user ++ [⟨id, ts, b64⟩] := by
    rw [hw, hid, view_insert, if_pos rfl]
  have hsealed : ∀ l ∈ w.db.view user, l.Sealed := by
    intro l hl
    rw [hview] at hl
    rcases List.mem_append.mp hl with hl | hl
    · exact hrows l hl
    · obtain rfl := List.mem_singleton.mp hl
      exact ⟨hP.sealed_ne_nil hb64, hP.sealed_no_space hb64⟩
  have hshown : EntryLine.shown P ⟨id, ts, b64⟩ = ⟨id, ts, text⟩ := by
    simp only [EntryLine.shown, shownText, hP.unseal_sealed hb64, cstr_eq_self htext]
  -- the same GET, on the rows before and on one row more
  have hbefore := netGetEntries_of_sealed hP hget (lt_of_le_of_lt (Nat.le_succ _) hids)
    (hcount.trans (by decide)) hrows
  have hafter := netGetEntries_of_sealed hP hget hids'
    (by rw [hview, List.length_append]; exact Nat.succ_le_succ hcount) hsealed
  have hw' : (⟨w.db, []⟩ : World) = w := by rw [hw]
  rw [hw'] at hafter
  refine ⟨⟨_, _, hbefore, hafter, ?_⟩, ⟨?_, b64, hb64, ?_⟩, postPrefix_eq t, ?_, ?_⟩
  · -- sorting only moves the new row to its place
    refine (sortNewestFirst_perm _).trans ?_
    rw [hview, List.map_append, List.map_singleton, hshown]
    exact List.perm_append_singleton _ _ |>.trans ((sortNewestFirst_perm _).symm.cons _)
  · rw [hid]
    exact toInt_rowidToInt hids
  · rw [hw]
    simp [AutoTable.lookup_insert]
  · exact okId_lines id
  · exact fun l hl => text_eq_row (view_id_bounds hids' hl).1.le

theorem post_then_get_hi :
    let env : CallEnv Unit := ⟨(), ⟨7, true, true, []⟩, true⟩
    let db := final serve Db.fresh [⟨lit "alice", env.server, lit "POST c2VhbGVkaGk="⟩]
    let w := (netPostEntry taggingProto (lit "alice") env (lit "yo") 5 ⟨db, []⟩).1
    ∃ before after,
      netGetEntries taggingProto (lit "alice") env ⟨db, []⟩ = (⟨db, []⟩, some before) ∧
      netGetEntries taggingProto (lit "alice") env w = (w, some after) ∧
      after.Perm
        (⟨(netPostEntry taggingProto (lit "alice") env (lit "yo") 5 ⟨db, []⟩).2, 5, lit "yo"⟩
          :: before) := by
  intro env db w
  have hview : db.view (lit "alice") = [⟨1, 7, lit "c2VhbGVkaGk="⟩] := by decide
  have hsealed : ∀ l ∈ db.view (lit "alice"), l.Sealed := by
    intro l hl
    rw [hview] at hl
    obtain rfl := List.mem_singleton.mp hl
    exact ⟨by decide, by decide⟩
  have hcount : (db.view (lit "alice")).length ≤ 1023 := by
    rw [hview]
    decide
  exact (post_then_get taggingProto_lawful (lit "alice") env env db (lit "yo") 5 (by decide)
    (by decide) hcount hsealed (by decide) rfl ⟨rfl, by simp [env], rfl⟩).1

/-! ### Rows no client of ours wrote -/

/-- `net_get_entries` succeeds with one element for each row of the user,
and every element is what its row should be shown as. -/
def ShowsEveryRow (P : Proto ν) (user : Bytes) (env : CallEnv ν) (db : Db) : Prop :=
  ∃ es, (netGetEntries P user env ⟨db, []⟩).2 = some es ∧
    es.Perm ((db.view user).map (EntryLine.shown P))

/-- The data of a row survives the split into fields: it has a byte that is
not a space, and if it has a space then its first field opens no blob. -/
def Splits (P : Proto ν) (data : Bytes) : Prop :=
  (∃ c ∈ data, c ≠ 32) ∧
    ∀ field rest, strtok 32 data = some (field, rest) → (32 : UInt8) ∈ data →
      shownText P field = couldNotDecrypt

theorem shownText_of_space (hP : P.Lawful) {data : Bytes} (h : (32 : UInt8) ∈ data) :
    shownText P data = couldNotDecrypt := by
  simp only [shownText, hP.unseal_space h]

/-- A row shows itself exactly when its data splits. -/
theorem split_eq_shown_iff (hP : P.Lawful) {l : EntryLine} :
    l.split P = some (l.shown P) ↔ Splits P l.data := by
  constructor
  · intro h
    have hne : ∃ c ∈ l.data, c ≠ 32 := by
      by_contra hall
      push Not at hall
      rw [split_eq_none_iff.mpr hall] at h
      cases h
    refine ⟨hne, fun field rest hf hsp => ?_⟩
    rw [EntryLine.split, hf, Option.map_some, EntryLine.shown, shownText_of_space hP hsp] at h
    exact congrArg DiaryEntry.text (Option.some.inj h)
  · rintro ⟨⟨c, hc, hcne⟩, hfield⟩
    by_cases hsp : (32 : UInt8) ∈ l.data
    · -- the first field and the whole data are both no blob
      cases hf : strtok 32 l.data with
      | none => exact absurd (strtok_eq_none_iff.mp hf c hc) hcne
      | some f =>
          rw [EntryLine.split, hf, Option.map_some, EntryLine.shown, shownText_of_space hP hsp,
            hfield f.1 f.2 hf hsp]
    · exact split_of_no_space (List.ne_nil_of_mem hc) hsp

/-- Rows of one id are one row. -/
theorem eq_of_view_id {db : Db} (hids : db.entries.seq < 2 ^ 31) {l m : EntryLine}
    (hl : l ∈ db.view user) (hm : m ∈ db.view user) (h : l.id = m.id) : l = m := by
  have hnodup : ((db.view user).map EntryLine.id).Nodup :=
    List.pairwise_map.mpr ((view_ascending hids).imp fun hlt he => by
      rw [he] at hlt
      exact lt_irrefl _ hlt)
  exact List.inj_on_of_nodup_map hnodup hl hm h

/-- **When one row hides the others.**  After any requests on a fresh
database that leave the user at most `MAX_ENTRIES` rows, `net_get_entries`
shows every row as it should be shown exactly when the data of every row
splits. -/
theorem shows_every_row_iff {P : Proto ν} (hP : P.Lawful) (user : Bytes) (get : CallEnv ν)
    (hget : get.Allocates) (reqs : List Request)
    (hids : (final serve Db.fresh reqs).entries.seq < 2 ^ 31)
    (hcount : ((final serve Db.fresh reqs).view user).length ≤ maxEntries) :
    ShowsEveryRow P user get (final serve Db.fresh reqs)
      ↔ ∀ l ∈ (final serve Db.fresh reqs).view user, Splits P l.data := by
  generalize final serve Db.fresh reqs = db at hids hcount
  have hloaded : ∀ es, (netGetEntries P user get ⟨db, []⟩).2 = some es ↔
      ∃ arr : List DiaryEntry, (db.view user).map (EntryLine.split P) = arr.map some ∧
        es = sortNewestFirst arr := by
    intro es
    rw [netGetEntries_eq_some_iff hP hget hids, List.take_of_length_le hcount]
  constructor
  · rintro ⟨es, hes, hperm⟩ l hl
    obtain ⟨arr, harr, rfl⟩ := (hloaded es).mp hes
    -- the entry `l` splits into is shown of some row, and its id says which
    have hsplit : l.split P ∈ arr.map some := harr ▸ List.mem_map_of_mem hl
    obtain ⟨e, hmem, he⟩ := List.mem_map.mp hsplit
    obtain ⟨m, hm, hme⟩ := List.mem_map.mp
      (hperm.subset ((sortNewestFirst_perm arr).symm.subset hmem))
    have hid : m.id = l.id := by
      obtain ⟨f, hf, rfl⟩ := Option.map_eq_some_iff.mp he.symm
      exact congrArg DiaryEntry.id hme
    obtain rfl := eq_of_view_id hids hm hl hid
    exact (split_eq_shown_iff hP).mp (he.symm.trans (congrArg some hme.symm))
  · intro h
    have hes : (db.view user).map (EntryLine.split P)
        = ((db.view user).map (EntryLine.shown P)).map some := by
      rw [List.map_map]
      exact List.map_congr_left fun l hl => (split_eq_shown_iff hP).mpr (h l hl)
    exact ⟨_, (hloaded _).mpr ⟨_, hes, rfl⟩, sortNewestFirst_perm _⟩

theorem shows_every_row_hi :
    ShowsEveryRow taggingProto (lit "alice") ⟨(), ⟨9, true, true, []⟩, true⟩
      (final serve Db.fresh
        [⟨lit "alice", ⟨7, true, true, []⟩, lit "POST c2VhbGVkaGk="⟩,
          ⟨lit "alice", ⟨8, true, true, []⟩, lit "UPDATE 1 not base64"⟩]) := by
  refine (shows_every_row_iff taggingProto_lawful (lit "alice") ⟨(), ⟨9, true, true, []⟩, true⟩
    ⟨rfl, by simp, rfl⟩ _ (by decide) (by decide)).mpr ?_
  intro l hl
  have hview : l ∈ [(⟨1, 7, lit "not base64"⟩ : EntryLine)] := hl
  obtain rfl := List.mem_singleton.mp hview
  refine ⟨⟨110, by decide, by decide⟩, fun field rest hf _ => ?_⟩
  obtain rfl : lit "not" = field := congrArg Prod.fst (Option.some.inj hf)
  decide

/-- A row without data, and a good row that is not shown because of it. -/
theorem empty_row_hides_good_row :
    let env : Env := ⟨7, true, true, []⟩
    let reqs : List Request :=
      [⟨lit "alice", env, lit "POST c2VhbGVkaGk="⟩, ⟨lit "alice", env, lit "POST "⟩]
    (trace serve Db.fresh reqs).map Prod.snd = [.okId 1, .okId 2] ∧
      ¬ ShowsEveryRow taggingProto (lit "alice") ⟨(), env, true⟩ (final serve Db.fresh reqs) := by
  intro env reqs
  have hnone : (netGetEntries taggingProto (lit "alice") ⟨(), env, true⟩
      ⟨final serve Db.fresh reqs, []⟩).2 = none := by decide
  refine ⟨by decide, ?_⟩
  rintro ⟨es, hes, -⟩
  rw [hnone] at hes
  cases hes

end Diary
