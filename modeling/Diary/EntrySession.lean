/-
Diary/EntrySession.lean

EntryActivity.java over the lives the framework gives it.  An activity that
is destroyed, when the screen is turned for example, is built anew from the
Intent it was started with and from the text in its field.  The executor of
the old instance still runs what waits there; the new one has an executor, a
connection and an `entryId` of its own.

The instances are a list, the oldest first, around one server (`serve`) that
other clients use as well.

* `one_entry_iff`: a new entry is stored as one entry iff no two instances
  are told an id: the id a POST returned dies with its instance.
-/
import Diary.EntryActivity
import Diary.MainActivity

namespace Diary

open CString Machine

/-! ### The instances and the server -/

/-- The instances made for one Intent, the last of them the one on the
screen, and the server's database. -/
structure EntrySession where
  intent : Option DiaryEntry
  instances : List EntryActivity
  db : Db

/-- `startActivity`. -/
def EntrySession.start (intent : Option DiaryEntry) (db : Db) : EntrySession :=
  ⟨intent, [EntryActivity.onCreate intent], db⟩

/-- The line the executor's next task sends, `b64` being what
`Crypto.sealToBase64` made of its text.  What connecting and disconnecting
send changes no entry. -/
def EntryActivity.request (s : EntryActivity) (b64 : Bytes) : Option Bytes :=
  match s.executor with
  | .save _ _ :: _ =>
      some (if 0 < s.entryId then lit "UPDATE " ++ (dec s.entryId.toInt ++ 32 :: b64)
        else lit "POST " ++ b64)
  | _ => none

/-- The instance on the screen is destroyed, unless it already is, and a new
one is created; the field's text is restored, which the listener sees as a
change.  An activity that has finished is not built anew. -/
def EntrySession.recreate (s : EntrySession) : EntrySession :=
  match s.instances.getLast? with
  | none => s
  | some a =>
      if a.finished then s
      else
        { s with
          instances := s.instances.dropLast ++
            [(uiStep a .onDestroy).1,
              (EntryActivity.onCreate s.intent).afterTextChanged a.editText] }

/-- What can happen: a step of an instance, on either of its threads, a new
instance, or a request of another client.  Instances are named by their
index. -/
inductive EntrySessionEvent
  | ui (k : ℕ) (ev : UiEvent)
  | runTask (k : ℕ) (b64 : Option Bytes) (transport : Transport) (env : Env)
  | recreate
  | other (r : Request)

/-- The acknowledgement among what a step did. -/
def EntryOutput.ack : EntryOutput → Option Ack
  | .stored ack => some ack
  | .takes _ => none

/-- A step, with the save the server acknowledged in it, if any. -/
def entrySessionStep (user : Bytes) (s : EntrySession) :
    EntrySessionEvent → EntrySession × Option Ack
  | .ui k ev =>
      match s.instances[k]? with
      | none => (s, none)
      | some a => ({ s with instances := s.instances.set k (uiStep a ev).1 }, none)
  | .runTask k b64 transport env =>
      match s.instances[k]? with
      | none => (s, none)
      | some a =>
          let (db, reply) := exchange user (b64.bind a.request) transport env s.db
          ({ s with instances := s.instances.set k (a.runTask reply).1, db := db },
            (a.runTask reply).2.bind EntryOutput.ack)
  | .recreate => (s.recreate, none)
  | .other r => ({ s with db := (serve s.db r).1 }, none)

/-! ### The ids the server gives out -/

theorem androidPostEntry_lines {reply : Reply} {id : Int32}
    (h : androidPostEntry reply.lines = some id) : reply = .okId id := by
  cases reply with
  | bye | ok => cases h
  | fail why => cases why <;> cases h
  | entries lines =>
      simp [Reply.lines, androidPostEntry, snprintf, show lit "OK " = [79, 75, 32] from rfl,
        show lit "ENTRIES " = [69, 78, 84, 82, 73, 69, 83, 32] from rfl] at h
  | okId id' =>
      rw [okId_lines, androidPostEntry, if_pos (by simp)] at h
      rw [show (lit "OK " ++ dec id'.toInt).drop 3 = dec id'.toInt from rfl, trim_dec,
        parseInt_dec] at h
      rw [Option.some.inj h]

/-- Below `2^31` rows, the id a POST is answered with is positive. -/
theorem postEntry_pos {db : Db} {r : Request} {id : Int32}
    (hids : (serve db r).1.entries.seq < 2 ^ 31)
    (h : androidPostEntry (serve db r).2.lines = some id) : 0 < id := by
  have heff := serve_effect db r
  rw [androidPostEntry_lines h] at heff
  generalize (serve db r).1 = db' at heff hids
  generalize hreply : Reply.okId id = reply at heff
  cases heff with
  | post hline hroom =>
      split at hreply
      · cases hreply
      · obtain rfl := Reply.okId.inj hreply
        rw [AutoTable.seq_insert] at hids
        rw [Int32.lt_iff_toInt_lt, toInt_rowidToInt hids]
        exact Int.natCast_pos.mpr (Nat.succ_pos _)
  | update | delete | get | bye | fail => cases hreply

/-! ### What a step does to the ids -/

variable {user : Bytes}

/-- The ids the instances have, the oldest first. -/
def EntrySession.ids (s : EntrySession) : List Int32 := s.instances.map EntryActivity.entryId

/-- Instance `k` runs a save in this step, and the server acknowledges it. -/
inductive SaveAcked (user : Bytes) (s : EntrySession) : EntrySessionEvent → ℕ → Ack → Prop
  | mk {k b64 transport env a text closing rest ack} (ha : s.instances[k]? = some a)
      (hex : a.executor = .save text closing :: rest)
      (hack : a.store text (exchange user (b64.bind a.request) transport env s.db).2 = some ack) :
      SaveAcked user s (.runTask k b64 transport env) k ack

/-- Everything a step can do to the ids. -/
inductive IdsEffect (user : Bytes) (s : EntrySession) (ev : EntrySessionEvent) :
    List Int32 → Option Ack → Prop
  | same : IdsEffect user s ev s.ids none
  | rebuilt : IdsEffect user s ev (s.ids ++ [(s.intent.map DiaryEntry.id).getD (-1)]) none
  | stored {k ack} (h : SaveAcked user s ev k ack) :
      IdsEffect user s ev (s.ids.set k ack.id) (some ack)

theorem set_of_getElem? {α : Type*} {l : List α} {k : ℕ} {x : α} (h : l[k]? = some x) :
    l.set k x = l := by
  obtain ⟨hk, rfl⟩ := List.getElem?_eq_some_iff.mp h
  exact List.set_getElem_self hk

theorem ids_set {s : EntrySession} {k : ℕ} {a a' : EntryActivity}
    (ha : s.instances[k]? = some a) (hid : a'.entryId = a.entryId) :
    (s.instances.set k a').map EntryActivity.entryId = s.ids := by
  rw [List.map_set, hid, EntrySession.ids]
  refine set_of_getElem? ?_
  rw [List.getElem?_map, ha]
  rfl

theorem entryId_uiStep (a : EntryActivity) (ev : UiEvent) :
    (uiStep a ev).1.entryId = a.entryId := by
  have heff := entryEffect_entryStep a (.ui ev)
  rw [entryStep] at heff
  generalize (uiStep a ev).1 = a', (uiStep a ev).2 = out at heff
  cases heff with
  | change | take | skip | finish | close | destroy => rfl
  | quiet hev hkeeps hwaiting hid => exact hid

theorem idsEffect_recreate (s : EntrySession) :
    s.recreate.ids = s.ids ∨
      s.recreate.ids = s.ids ++ [(s.intent.map DiaryEntry.id).getD (-1)] := by
  rw [EntrySession.recreate]
  split
  · exact Or.inl rfl
  · next a ha =>
    split
    · exact Or.inl rfl
    · right
      obtain ⟨as, has⟩ := List.getLast?_eq_some_iff.mp ha
      simp only [EntrySession.ids, has, List.dropLast_concat, List.map_append, List.map_cons,
        List.map_nil, entryId_uiStep]
      rw [← List.append_cons]
      rfl

variable (user) in
theorem idsEffect_entrySessionStep (s : EntrySession) (ev : EntrySessionEvent) :
    IdsEffect user s ev (entrySessionStep user s ev).1.ids (entrySessionStep user s ev).2 := by
  cases ev with
  | ui k ev =>
      simp only [entrySessionStep]
      split
      · exact .same
      · next a ha =>
        show IdsEffect user s _ ((s.instances.set k _).map EntryActivity.entryId) none
        -- no event of the screen sets an id
        rw [ids_set ha (entryId_uiStep a ev)]
        exact .same
  | recreate =>
      simp only [entrySessionStep]
      rcases idsEffect_recreate s with h | h <;> rw [h]
      · exact .same
      · exact .rebuilt
  | other r => exact .same
  | runTask k b64 transport env =>
      simp only [entrySessionStep]
      split
      · exact .same
      · next a ha =>
        show IdsEffect user s _ ((s.instances.set k _).map EntryActivity.entryId) _
        have heff := entryEffect_runTask
          (exchange user (b64.bind a.request) transport env s.db).2 a
        generalize hreply : (exchange user (b64.bind a.request) transport env s.db).2 = reply
          at heff
        generalize (a.runTask reply).1 = a', (a.runTask reply).2 = out at heff
        cases heff with
        | stored hex hack hkeeps hrest hid =>
            rw [List.map_set, hid]
            -- the reply to a save is the one event that sets an id
            exact .stored (.mk ha hex (by rw [hreply]; exact hack))
        | fails hex hack hkeeps hid =>
            rw [ids_set ha hid]
            exact .same
        | quiet hev hkeeps hwaiting hid =>
            rw [ids_set ha hid]
            exact .same

theorem db_runTask {s : EntrySession} {k : ℕ} {b64 : Option Bytes} {transport : Transport}
    {env : Env} {a : EntryActivity} (ha : s.instances[k]? = some a) :
    (entrySessionStep user s (.runTask k b64 transport env)).1.db
      = (exchange user (b64.bind a.request) transport env s.db).1 := by
  simp only [entrySessionStep, ha]

theorem output_of_saveAcked {s : EntrySession} {ev : EntrySessionEvent} {k : ℕ} {ack : Ack}
    (h : SaveAcked user s ev k ack) : (entrySessionStep user s ev).2 = some ack := by
  obtain ⟨ha, hex, hack⟩ := h
  simp [entrySessionStep, ha, EntryActivity.runTask, hex, hack, EntryOutput.ack]

/-- A save of an instance that was told no id is a POST, of one that was told
an id an UPDATE of that. -/
theorem ack_of_saveAcked {s : EntrySession} {ev : EntrySessionEvent} {k : ℕ} {ack : Ack}
    (hids : (entrySessionStep user s ev).1.db.entries.seq < 2 ^ 31)
    (h : SaveAcked user s ev k ack) :
    ∃ i, s.ids[k]? = some i ∧ if 0 < i then ack.post = false ∧ ack.id = i
      else ack.post = true ∧ 0 < ack.id := by
  obtain @⟨k, b64, transport, env, a, text, closing, rest, ack, ha, hex, hack⟩ := h
  obtain ⟨-, hpost, hid⟩ := id_of_store hack
  refine ⟨a.entryId, by rw [EntrySession.ids, List.getElem?_map, ha]; rfl, ?_⟩
  rw [db_runTask ha] at hids
  split
  · next hpos =>
    have hupdate : ack.post = false := by simp [hpost, hpos]
    exact ⟨hupdate, hid hupdate⟩
  · next hpos =>
    refine ⟨by simp [hpost, hpos], ?_⟩
    rw [EntryActivity.store, if_neg hpos] at hack
    generalize b64.bind a.request = line at hack hids
    rcases line with - | line
    · cases hack
    cases transport with
    | unsent | unanswered => cases hack
    | answered =>
        obtain ⟨id, hreply, rfl⟩ := Option.map_eq_some_iff.mp hack
        exact postEntry_pos hids hreply

/-! ### One entry -/

/-- What the server acknowledged in a run. -/
def sessionAcks (run : List (EntrySessionEvent × Option Ack)) : List Ack :=
  run.filterMap Prod.snd

/-- At most one POST is answered OK, and every other save that is, is an
UPDATE of the id it returned. -/
def OneEntry (acks : List Ack) : Prop :=
  (acks.filter Ack.post).length ≤ 1 ∧
    ∀ a ∈ acks, a.post = false → ∃ p ∈ acks, p.post = true ∧ a.id = p.id

/-- When a save of one instance is acknowledged, no other instance has been
told an id. -/
def AloneToldId (user : Bytes) (s : EntrySession) (ev : EntrySessionEvent) : Prop :=
  ∀ k ack, SaveAcked user s ev k ack → ∀ j i, j ≠ k → s.ids[j]? = some i → ¬ 0 < i

/-- The acknowledgements of a new entry, with the ids of its instances: none
yet, or a POST and UPDATEs of what it returned, all to one instance. -/
inductive Told (ids : List Int32) : List Ack → Prop
  | nothing (h : ∀ (j : ℕ) (i : Int32), ids[j]? = some i → ¬ 0 < i) : Told ids []
  | entry {k : ℕ} {n text rest} (hn : 0 < n) (hk : ids[k]? = some n)
      (hothers : ∀ (j : ℕ) (i : Int32), j ≠ k → ids[j]? = some i → ¬ 0 < i)
      (hrest : ∀ a ∈ rest, a.post = false ∧ a.id = n) : Told ids (⟨true, n, text⟩ :: rest)

theorem oneEntry_of_told {ids : List Int32} {acks : List Ack} (h : Told ids acks) :
    OneEntry acks := by
  cases h with
  | nothing => exact ⟨Nat.zero_le _, by simp⟩
  | @entry k n text rest hn hk hothers hrest =>
      have hposts : rest.filter Ack.post = [] :=
        List.filter_eq_nil_iff.mpr fun a ha => by simp [(hrest a ha).1]
      refine ⟨by simp [hposts], fun a ha hpost => ⟨_, List.mem_cons_self, rfl, ?_⟩⟩
      rcases List.mem_cons.mp ha with rfl | ha
      · cases hpost
      · exact (hrest a ha).2

theorem told_rebuilt {ids : List Int32} {acks : List Ack} (h : Told ids acks) :
    Told (ids ++ [-1]) acks := by
  have hlast : ∀ {j : ℕ} {i : Int32}, (ids ++ [-1])[j]? = some i →
      ids[j]? = some i ∨ ¬ 0 < i := by
    intro j i hi
    rcases lt_or_ge j ids.length with hj | hj
    · rw [List.getElem?_append_left hj] at hi
      exact Or.inl hi
    · rw [List.getElem?_append_right hj] at hi
      obtain rfl := List.mem_singleton.mp (List.mem_of_getElem? hi)
      exact Or.inr (by decide)
  cases h with
  | nothing h => exact .nothing fun j i hi => (hlast hi).elim (h j i) id
  | entry hn hk hothers hrest =>
      have hlt := (List.getElem?_eq_some_iff.mp hk).1
      refine .entry hn (by rw [List.getElem?_append_left hlt]; exact hk)
        (fun j i hj hi => (hlast hi).elim (hothers j i hj) id) hrest

theorem told_saveAcked {s : EntrySession} {ev : EntrySessionEvent} {k : ℕ} {ack : Ack}
    {acks : List Ack} (hids : (entrySessionStep user s ev).1.db.entries.seq < 2 ^ 31)
    (hsave : SaveAcked user s ev k ack) (halone : AloneToldId user s ev) (h : Told s.ids acks) :
    Told (s.ids.set k ack.id) (acks ++ [ack]) := by
  obtain ⟨i, hi, hack⟩ := ack_of_saveAcked hids hsave
  have hk := (List.getElem?_eq_some_iff.mp hi).1
  cases h with
  | nothing hnone =>
      -- the first acknowledgement
      rw [if_neg (hnone k i hi)] at hack
      obtain ⟨post, id, text⟩ := ack
      obtain ⟨rfl, hpos⟩ := hack
      refine .entry hpos (List.getElem?_set_self hk) (fun j i hj hi => ?_) (by simp)
      rw [List.getElem?_set_ne hj.symm] at hi
      exact hnone j i hi
  | @entry k' n text rest hn hk' hothers hrest =>
      -- the instance that was told the id
      obtain rfl : k' = k := by
        by_contra hne
        exact halone k ack hsave k' n hne hk' hn
      obtain rfl : n = i := Option.some.inj (hk'.symm.trans hi)
      rw [if_pos hn] at hack
      rw [hack.2, set_of_getElem? hk']
      refine .entry hn hk' hothers fun a ha => ?_
      rcases List.mem_append.mp ha with ha | ha
      · exact hrest a ha
      · rw [List.mem_singleton.mp ha]
        exact hack

/-- A save that is acknowledged while another instance has an id is a second
POST. -/
theorem aloneToldId_of_told {s : EntrySession} {ev : EntrySessionEvent} {acks : List Ack}
    (hids : (entrySessionStep user s ev).1.db.entries.seq < 2 ^ 31) (h : Told s.ids acks)
    (hposts : ((acks ++ (entrySessionStep user s ev).2.toList).filter Ack.post).length ≤ 1) :
    AloneToldId user s ev := by
  intro k ack hsave j i hj hi hpos
  obtain ⟨i', hi', hack⟩ := ack_of_saveAcked hids hsave
  rw [output_of_saveAcked hsave] at hposts
  cases h with
  | nothing hnone => exact hnone j i hi hpos
  | @entry k' n text rest hn hk' hothers hrest =>
      have hjk : j = k' := by
        by_contra hne
        exact hothers j i hne hi hpos
      have hnew : ¬ 0 < i' := hothers k i' (fun hk => hj (hjk.trans hk.symm)) hi'
      rw [if_neg hnew] at hack
      simp [hack.1] at hposts

theorem seq_le_entrySessionStep (s : EntrySession) (ev : EntrySessionEvent)
    (h : (entrySessionStep user s ev).1.db.entries.seq < 2 ^ 31) :
    s.db.entries.seq < 2 ^ 31 := by
  refine lt_of_le_of_lt ?_ h
  cases ev with
  | ui k ev =>
      simp only [entrySessionStep]
      split <;> exact le_refl _
  | recreate =>
      simp only [entrySessionStep, EntrySession.recreate]
      split
      · exact le_refl _
      · split <;> exact le_refl _
  | other r => exact seq_le_serve _ _
  | runTask k b64 transport env =>
      simp only [entrySessionStep]
      split
      · exact le_refl _
      · show s.db.entries.seq ≤ (exchange user _ transport env s.db).1.entries.seq
        -- only a line that is sent reaches the server
        unfold exchange
        split
        · exact seq_le_serve _ _
        · exact seq_le_serve _ _
        · exact le_refl _
        · exact le_refl _

theorem told_step {s : EntrySession} {ev : EntrySessionEvent} {acks : List Ack}
    (hnew : s.intent = none) (hids : (entrySessionStep user s ev).1.db.entries.seq < 2 ^ 31)
    (halone : AloneToldId user s ev) (h : Told s.ids acks) :
    Told (entrySessionStep user s ev).1.ids (acks ++ (entrySessionStep user s ev).2.toList) := by
  have heff := idsEffect_entrySessionStep user s ev
  generalize (entrySessionStep user s ev).1.ids = ids, (entrySessionStep user s ev).2 = out at heff
  cases heff with
  | same => simpa using h
  | rebuilt =>
      rw [hnew]
      simpa using told_rebuilt h
  | stored hsave => exact told_saveAcked hids hsave halone h

theorem intent_entrySessionStep (s : EntrySession) (ev : EntrySessionEvent) :
    (entrySessionStep user s ev).1.intent = s.intent := by
  cases ev with
  | ui k ev | runTask k b64 transport env =>
      simp only [entrySessionStep]
      split <;> rfl
  | recreate =>
      simp only [entrySessionStep, EntrySession.recreate]
      split
      · rfl
      · split <;> rfl
  | other r => rfl

theorem sessionAcks_concat (run : List (EntrySessionEvent × Option Ack)) (ev : EntrySessionEvent)
    (out : Option Ack) : sessionAcks (run ++ [(ev, out)]) = sessionAcks run ++ out.toList := by
  rw [sessionAcks, List.filterMap_append]
  cases out <;> rfl

/-- **One new entry.**  As long as row ids stay below `2^31`, an activity
opened for a new entry stores one entry iff no save of one instance is
acknowledged when another instance has been told an id. -/
theorem one_entry_iff (user : Bytes) (db : Db) (run : List EntrySessionEvent) :
    let step := entrySessionStep user
    let s₀ := EntrySession.start none db
    (final step s₀ run).db.entries.seq < 2 ^ 31 →
      (OneEntry (sessionAcks (trace step s₀ run)) ↔
        Throughout step (AloneToldId user) s₀ run) := by
  intro step s₀ hids
  have hstart : Told s₀.ids (sessionAcks (trace step s₀ [])) := by
    refine .nothing fun j i hi => ?_
    obtain rfl : i = -1 := List.mem_singleton.mp (List.mem_of_getElem? hi)
    decide
  have hintent : ∀ run, (final step s₀ run).intent = none := fun run =>
    final_invariant (I := fun s : EntrySession => s.intent = none)
      (fun s ev h => (intent_entrySessionStep s ev).trans h) rfl run
  have htold : ∀ run, Throughout step (AloneToldId user) s₀ run →
      (final step s₀ run).db.entries.seq < 2 ^ 31 →
      Told (final step s₀ run).ids (sessionAcks (trace step s₀ run)) := by
    intro run hrun
    refine throughout_induction (P := fun run => (final step s₀ run).db.entries.seq < 2 ^ 31 →
      Told (final step s₀ run).ids (sessionAcks (trace step s₀ run))) (fun _ => hstart) ?_ run hrun
    intro run ev halone ih hids
    rw [final_concat] at hids
    rw [final_concat, trace_concat, sessionAcks_concat]
    exact told_step (hintent run) hids halone (ih (seq_le_entrySessionStep _ ev hids))
  refine ⟨fun hone => ?_, fun hrun => oneEntry_of_told (htold run hrun hids)⟩
  have hposts := hone.1
  clear hone
  -- from the right end: the steps before are alone, so the ids are as they should be
  induction run using List.reverseRecOn with
  | nil => exact trivial
  | append_singleton run ev ih =>
      rw [final_concat] at hids
      rw [trace_concat, sessionAcks_concat] at hposts
      have hids₀ := seq_le_entrySessionStep _ ev hids
      have hrun := ih hids₀ (by
        rw [List.filter_append, List.length_append] at hposts
        exact le_trans (Nat.le_add_right _ _) hposts)
      exact throughout_append.mpr
        ⟨hrun, aloneToldId_of_told hids (htold run hrun hids₀) hposts, trivial⟩

/-! ### Runs -/

/-- A new text is typed, and the timer goes off. -/
def typeAndSave (k : ℕ) (text : Bytes) : List EntrySessionEvent :=
  [.ui k (.afterTextChanged text), .ui k .saveTask,
    .runTask k (some (lit "aGk=")) .answered ⟨1, true, true, []⟩, .ui k .runPosted]

/-- Between two saves the activity is built anew: there are two entries. -/
theorem rebuilding_posts_twice :
    let step := entrySessionStep (lit "alice")
    let connect (k : ℕ) : List EntrySessionEvent :=
      [.runTask k none .unsent ⟨1, true, true, []⟩, .ui k .runPosted]
    let run := connect 0 ++ typeAndSave 0 (lit "a") ++ [.recreate] ++ connect 1 ++
      [.ui 1 .saveTask, .runTask 1 (some (lit "aGk=")) .answered ⟨1, true, true, []⟩]
    let s₀ := EntrySession.start none Db.fresh
    sessionAcks (trace step s₀ run) = [⟨true, 1, lit "a"⟩, ⟨true, 2, lit "a"⟩] ∧
      ¬ OneEntry (sessionAcks (trace step s₀ run)) := by
  intro step connect run s₀
  have hacks : sessionAcks (trace step s₀ run) = [⟨true, 1, lit "a"⟩, ⟨true, 2, lit "a"⟩] := by
    decide
  refine ⟨hacks, ?_⟩
  rw [hacks]
  exact fun hone => absurd hone.1 (by decide)

theorem aloneToldId_of_single {s : EntrySession} {ev : EntrySessionEvent}
    (h : s.ids.length = 1) : AloneToldId user s ev := by
  intro k ack hsave j i hj hi
  obtain ⟨ha, -, -⟩ := hsave
  have hk := (List.getElem?_eq_some_iff.mp ha).1
  have hj' := (List.getElem?_eq_some_iff.mp hi).1
  rw [EntrySession.ids, List.length_map] at h hj'
  omega

/-- One instance POSTs once and then UPDATEs. -/
theorem one_entry_two_saves :
    let step := entrySessionStep (lit "alice")
    let run := .runTask 0 none .unsent ⟨1, true, true, []⟩ :: .ui 0 .runPosted ::
      (typeAndSave 0 (lit "a") ++ typeAndSave 0 (lit "ab"))
    OneEntry (sessionAcks (trace step (EntrySession.start none Db.fresh) run)) := by
  intro step run
  refine (one_entry_iff (lit "alice") Db.fresh run (by decide)).mpr ?_
  refine ⟨aloneToldId_of_single rfl, aloneToldId_of_single rfl, aloneToldId_of_single rfl,
    aloneToldId_of_single rfl, aloneToldId_of_single rfl, aloneToldId_of_single rfl,
    aloneToldId_of_single rfl, aloneToldId_of_single rfl, aloneToldId_of_single rfl,
    aloneToldId_of_single rfl, trivial⟩

end Diary
