/-
Diary/AndroidApp.lean

The Android app as a whole: `MainActivity` with its dialogs and queues, the
editors it opens, each with its instances and queues, and the server, which
other clients use as well.

An entry is opened from the list, or from the menu of a long press, and the
Intent carries its id and text; "New" carries none.  What an editor sends
later, on its own executor, is the text of its field at the moment a save
took it (`EntryOutput.takes`).  When an editor returns the list is loaded
again, which is the event `reload` of `MainActivity`.

`phone_changes_by_hand`: whatever the queues do, a row of the database goes,
changes or appears only by what somebody did on purpose.
-/
import Diary.DiaryConnection
import Diary.EntrySession
import Diary.RowOrders

namespace Diary

open CString Machine

variable {ν : Type*}

/-! ### The program -/

/-- The activities made for one Intent, the last of them the one on the
screen. -/
structure Editing where
  intent : Option DiaryEntry
  instances : List EntryActivity

/-- `startActivityForResult`. -/
def Editing.start (intent : Option DiaryEntry) : Editing :=
  ⟨intent, [EntryActivity.onCreate intent]⟩

/-- The app; the server's database is the one of `main`. -/
structure AndroidApp where
  main : MainActivity
  editors : List Editing

def AndroidApp.db (s : AndroidApp) : Db := s.main.db

def AndroidApp.created (db : Db) : AndroidApp := ⟨MainActivity.created db, []⟩

/-- `openEditor`. -/
def AndroidApp.openEditor (intent : Option DiaryEntry) (s : AndroidApp) : AndroidApp :=
  { s with editors := s.editors ++ [Editing.start intent] }

/-- What can happen to an editor: an event of an instance, on either of its
threads, or the screen is turned. -/
inductive EditingEvent (ν : Type*)
  | ui (k : ℕ) (ev : UiEvent)
  /-- with the randomness of the sealing -/
  | runTask (k : ℕ) (nonce : ν) (transport : Transport) (env : Env)
  | recreate

/-- What can happen: an event of `MainActivity`, with those of the server and
its other clients; an entry of the list is opened, or the one of a menu, or
a new one; or an event of an editor.  Editors are named by their index. -/
inductive AndroidEvent (ν : Type*)
  | main (ev : MainEvent)
  | openViewer (pos : ℕ)
  | edit (dialog : ℕ)
  | new
  | editing (m : ℕ) (ev : EditingEvent ν)

section Step

variable (user : Bytes) (unsealFromBase64 : Bytes → Option (Option Bytes))
  (sealToBase64 : ν → Bytes → Option Bytes)

/-- What becomes of the text that the executor's next task saves. -/
def EntryActivity.sealNext (nonce : ν) (a : EntryActivity) : Option Bytes :=
  match a.executor with
  | .save text _ :: _ => sealToBase64 nonce text
  | .connect :: _ | .disconnect :: _ | [] => none

/-- The event, with what is sealed in it. -/
def Editing.event (e : Editing) : EditingEvent ν → EntrySessionEvent
  | .ui k ev => .ui k ev
  | .runTask k nonce transport env =>
      .runTask k (e.instances[k]?.bind (EntryActivity.sealNext sealToBase64 nonce)) transport env
  | .recreate => .recreate

/-- An event of an editor. -/
def AndroidApp.editing (m : ℕ) (ev : EditingEvent ν) (s : AndroidApp) : AndroidApp :=
  match s.editors[m]? with
  | none => s
  | some e =>
      let r := (entrySessionStep user ⟨e.intent, e.instances, s.db⟩ (e.event sealToBase64 ev)).1
      { main := { s.main with db := r.db }, editors := s.editors.set m ⟨r.intent, r.instances⟩ }

/-- An event of a running app. -/
def AndroidApp.handle (s : AndroidApp) : AndroidEvent ν → AndroidApp
  | .main ev => { s with main := (mainStep user unsealFromBase64 s.main ev).1 }
  | .openViewer pos =>
      match s.main.entries[pos]? with
      | none => { s with main := { s.main with alive := false } }
      | some e => s.openEditor (some e)
  | .edit i =>
      match s.main.dialogs[i]? with
      | none => s
      | some d =>
          if d.confirming then s
          else
            AndroidApp.openEditor (some d.entry)
              { s with main := (mainStep user unsealFromBase64 s.main (.edit i)).1 }
  | .new => s.openEditor none
  | .editing m ev => s.editing user sealToBase64 m ev

/-- One event; an exception that nothing catches ends the process, with the
editors in it. -/
def androidStep (s : AndroidApp) (ev : AndroidEvent ν) : AndroidApp × Unit :=
  (if s.main.alive then s.handle user unsealFromBase64 sealToBase64 ev
  else
    match ev with
    | .main ev => { s with main := (mainStep user unsealFromBase64 s.main ev).1 }
    | .openViewer _ | .edit _ | .new | .editing _ _ => s, ())

end Step

/-! ### What is done by hand -/

/-- The entry is opened: from the list, or from the menu of a long press. -/
inductive Opens (e : DiaryEntry) (s : AndroidApp) : AndroidEvent ν → Prop
  | list {pos} (he : s.main.entries[pos]? = some e) : Opens e s (.openViewer pos)
  | menu {i d} (hd : s.main.dialogs[i]? = some d) (hmenu : d.confirming = false)
      (he : d.entry = e) : Opens e s (.edit i)

/-- Instance `k` of editor `m`. -/
def AndroidApp.instance (m k : ℕ) (s : AndroidApp) : Option EntryActivity :=
  s.editors[m]?.bind fun e => e.instances[k]?

/-- The text in the field of an instance is taken to be saved: its timer
goes off, or it is closed with another text than it was opened with. -/
inductive Takes (m k : ℕ) (text : Bytes) (s : AndroidApp) : AndroidEvent ν → Prop
  | timer {a} (ha : s.instance m k = some a) (htimer : a.saveTask = true)
      (htext : a.editText = text) (hne : text ≠ []) :
      Takes m k text s (.editing m (.ui k .saveTask))
  | close {a} (ha : s.instance m k = some a) (hhere : a.destroyed = false)
      (htext : a.editText = text) (hne : text ≠ []) (horig : text ≠ a.originalText) :
      Takes m k text s (.editing m (.ui k .saveAndClose))

/-- A POST of an instance is answered with an id, which is the instance's
from then on. -/
inductive TakesId (user : Bytes) (sealToBase64 : ν → Bytes → Option Bytes) (m k : ℕ) (id : Int32)
    (s : AndroidApp) : AndroidEvent ν → Prop
  | stored {e ev ack} (he : s.editors[m]? = some e)
      (hack : SaveAcked user ⟨e.intent, e.instances, s.db⟩ (e.event sealToBase64 ev) k ack)
      (hpost : ack.post = true) (hid : ack.id = id) :
      TakesId user sealToBase64 m k id s (.editing m ev)

/-! ### What an event asks of the server -/

section Orders

variable (user : Bytes) (sealToBase64 : ν → Bytes → Option Bytes)

/-- What is asked of the server in an event, and about whose entries. -/
inductive AndroidOrders (s : AndroidApp) : AndroidEvent ν → Bytes → Command → Prop
  | other (r : Request) : AndroidOrders s (.main (.other r)) r.user (parseLine r.env.now r.line)
  | delete {transport env id pos pressed rest}
      (hex : s.main.executor = .delete id pos pressed :: rest) :
      AndroidOrders s (.main (.runTask transport env)) user (.delete id)
  | update {m k nonce transport env a text closing rest b64} (ha : s.instance m k = some a)
      (hex : a.executor = .save text closing :: rest) (hid : 0 < a.entryId)
      (hseal : sealToBase64 nonce text = some b64) :
      AndroidOrders s (.editing m (.runTask k nonce transport env)) user (.update a.entryId b64)
  | post {m k nonce transport env a text closing rest b64} (ha : s.instance m k = some a)
      (hex : a.executor = .save text closing :: rest) (hid : ¬ 0 < a.entryId)
      (hseal : sealToBase64 nonce text = some b64) :
      AndroidOrders s (.editing m (.runTask k nonce transport env)) user (.post env.now b64)

variable {user sealToBase64} {unsealFromBase64 : Bytes → Option (Option Bytes)}

/-- The executor of `MainActivity` asks for the deletion it runs. -/
theorem ordered_mainTask (s : AndroidApp) (transport : Transport) (env : Env) :
    Ordered AndroidApp.db (AndroidOrders user sealToBase64) s
      (.main (.runTask transport env) : AndroidEvent ν)
      (s.main.runTask user unsealFromBase64 transport env).1.db := by
  rw [MainActivity.runTask]
  rcases hex : s.main.executor with - | ⟨t, rest⟩
  · exact Or.inl rfl
  cases t with
  | connect => exact Or.inl rfl
  | load =>
      refine Or.inl ?_
      simp only [request_fst, serve_get_fst, ite_self]
      split <;> rfl
  | delete id pos pressed =>
      simp only [request_fst]
      by_cases hsent : transport = .unsent
      · exact Or.inl (if_pos hsent)
      · refine Or.inr ⟨env, user, .delete id, .delete hex, ?_⟩
        show (if transport = .unsent then _ else _) = _
        rw [if_neg hsent, serve_eq, parseLine_delete]
        rfl

theorem ordered_main (s : AndroidApp) (ev : MainEvent) :
    Ordered AndroidApp.db (AndroidOrders user sealToBase64) s (.main ev : AndroidEvent ν)
      (mainStep user unsealFromBase64 s.main ev).1.db := by
  unfold mainStep
  split
  swap
  · cases ev with
    | other r => exact Or.inr ⟨_, _, _, .other r, congrArg Prod.fst (serve_eq s.db r)⟩
    | longPress | edit | delete | confirm | dismiss | reload | runTask | runPosted =>
        exact Or.inl rfl
  cases ev with
  | other r => exact Or.inr ⟨_, _, _, .other r, congrArg Prod.fst (serve_eq s.db r)⟩
  -- of the events of the list, only the tasks send anything
  | runTask transport env => exact ordered_mainTask s transport env
  | edit i | dismiss i => exact Or.inl rfl
  | longPress pos =>
      simp only [MainActivity.handle, MainActivity.showEntryMenu]
      split <;> exact Or.inl rfl
  | delete i =>
      simp only [MainActivity.handle]
      split <;> exact Or.inl rfl
  | confirm i =>
      simp only [MainActivity.handle]
      split
      · split
        · simp only [MainActivity.deleteEntry]
          split <;> exact Or.inl rfl
        · exact Or.inl rfl
      · exact Or.inl rfl
  | reload => exact Or.inl (screen_loadEntries s.main).2.2
  | runPosted =>
      simp only [MainActivity.handle, MainActivity.runPosted]
      split
      · exact Or.inl rfl
      · exact Or.inl (screen_loadEntries _).2.2
      · exact Or.inl rfl
      · split <;> exact Or.inl rfl
      · exact Or.inl rfl

/-- A request line that is sent is performed. -/
theorem db_exchange (user : Bytes) (line : Option Bytes) (transport : Transport) (env : Env)
    (db : Db) :
    (exchange user line transport env db).1 = db ∨
      ∃ l, line = some l ∧
        (exchange user line transport env db).1
          = (perform env user db (parseLine env.now l)).1 := by
  cases line with
  | none => exact Or.inl (by cases transport <;> rfl)
  | some l =>
      have hserve : (serve db ⟨user, env, l⟩).1 = (perform env user db (parseLine env.now l)).1 :=
        congrArg Prod.fst (serve_eq db ⟨user, env, l⟩)
      cases transport with
      | unsent => exact Or.inl rfl
      | answered | unanswered => exact Or.inr ⟨l, rfl, hserve⟩

/-- The executor of an editor asks for the save it runs. -/
theorem ordered_editing (hseal : ∀ n text b64, sealToBase64 n text = some b64 → (32 : UInt8) ∉ b64)
    (s : AndroidApp) (m : ℕ) (ev : EditingEvent ν) :
    Ordered AndroidApp.db (AndroidOrders user sealToBase64) s (.editing m ev)
      (s.editing user sealToBase64 m ev).db := by
  rw [AndroidApp.editing]
  split
  · exact Or.inl rfl
  next e he =>
  show Ordered _ _ _ _ (entrySessionStep user _ _).1.db
  cases ev with
  | ui k ev =>
      simp only [Editing.event, entrySessionStep]
      split <;> exact Or.inl rfl
  | recreate =>
      simp only [Editing.event, entrySessionStep, EntrySession.recreate]
      split
      · exact Or.inl rfl
      · split <;> exact Or.inl rfl
  | runTask k nonce transport env =>
      simp only [Editing.event, entrySessionStep]
      split
      · exact Or.inl rfl
      next a ha =>
      show Ordered _ _ _ _ (exchange user _ transport env s.db).1
      have hinstance : s.instance m k = some a := by
        rw [AndroidApp.instance, he, Option.bind_some, ha]
      rw [show e.instances[k]? = some a from ha, Option.bind_some]
      rcases db_exchange user ((a.sealNext sealToBase64 nonce).bind a.request) transport env s.db
        with hdb | ⟨line, hline, hdb⟩
      · exact Or.inl hdb
      -- only a save that is sealed has a line to send
      obtain ⟨b64, hb64, hrequest⟩ := Option.bind_eq_some_iff.mp hline
      rw [EntryActivity.sealNext] at hb64
      rw [EntryActivity.request] at hrequest
      split at hb64
      · next text closing rest hex =>
          have hsp := hseal nonce text b64 hb64
          simp only [hex, Option.some.injEq] at hrequest
          refine Or.inr ⟨env, user, parseLine env.now line, ?_, hdb⟩
          rw [← hrequest]
          split
          · next hid =>
              -- the instance has an id: UPDATE
              rw [parseLine_update]
              exact .update hinstance hex hid hb64
          · next hid =>
              -- it has none: POST, and the data has no blank that would make a timestamp
              rw [DiaryConnection.parseLine_post_of_no_space _ hsp]
              exact .post hinstance hex hid hb64
      · cases hb64
      · cases hb64
      · cases hb64

theorem byOrders_android
    (hseal : ∀ n text b64, sealToBase64 n text = some b64 → (32 : UInt8) ∉ b64) :
    ByOrders (androidStep user unsealFromBase64 sealToBase64) AndroidApp.db
      (AndroidOrders user sealToBase64) := by
  intro s ev
  unfold androidStep
  simp only
  split
  · cases ev with
    | main ev => exact ordered_main s ev
    | openViewer pos =>
        simp only [AndroidApp.handle]
        split <;> exact Or.inl rfl
    | edit i =>
        simp only [AndroidApp.handle]
        split
        · exact Or.inl rfl
        · split
          · exact Or.inl rfl
          · -- the editor opens, the menu closes
            refine Or.inl ?_
            show (mainStep user unsealFromBase64 s.main _).1.db = s.main.db
            unfold mainStep
            split <;> rfl
    | new => exact Or.inl rfl
    | editing m ev => exact ordered_editing hseal s m ev
  · cases ev with
    | main ev => exact ordered_main s ev
    | openViewer | edit | new | editing => exact Or.inl rfl

end Orders

/-! ### What a step does to an instance -/

/-- Everything a step of a session can do to the instance at an index. -/
inductive InstanceChange (user : Bytes) (s : EntrySession) (ev : EntrySessionEvent) (k : ℕ) :
    Option EntryActivity → Option EntryActivity → Prop
  | same {o} : InstanceChange user s ev k o o
  | ui {a uev} (hev : ev = .ui k uev) :
      InstanceChange user s ev k (some a) (some (uiStep a uev).1)
  | task {a b64 transport env} (ha : s.instances[k]? = some a)
      (hev : ev = .runTask k b64 transport env) :
      InstanceChange user s ev k (some a)
        (some (a.runTask (exchange user (b64.bind a.request) transport env s.db).2).1)
  | destroyed {a} : InstanceChange user s ev k (some a) (some (uiStep a .onDestroy).1)
  | rebuilt {text} :
      InstanceChange user s ev k none
        (some ((EntryActivity.onCreate s.intent).afterTextChanged text))

theorem instanceChange_set {user : Bytes} {s : EntrySession} {ev : EntrySessionEvent} {k l : ℕ}
    {a a' : EntryActivity} (ha : s.instances[l]? = some a)
    (h : k = l → InstanceChange user s ev k (some a) (some a')) :
    InstanceChange user s ev k s.instances[k]? (s.instances.set l a')[k]? := by
  obtain ⟨hl, -⟩ := List.getElem?_eq_some_iff.mp ha
  by_cases hk : k = l
  · subst hk
    rw [List.getElem?_set_self hl, ha]
    exact h rfl
  · rw [List.getElem?_set_ne (Ne.symm hk)]
    exact .same

theorem instanceChange_entrySessionStep (user : Bytes) (s : EntrySession)
    (ev : EntrySessionEvent) (k : ℕ) :
    InstanceChange user s ev k s.instances[k]?
      (entrySessionStep user s ev).1.instances[k]? := by
  cases ev with
  | other r => exact .same
  | ui l uev =>
      simp only [entrySessionStep]
      split
      · exact .same
      · next a ha => exact instanceChange_set ha fun hk => .ui (by rw [hk])
  | runTask l b64 transport env =>
      simp only [entrySessionStep]
      split
      · exact .same
      · next a ha => exact instanceChange_set ha fun hk => .task (hk ▸ ha) (by rw [hk])
  | recreate =>
      simp only [entrySessionStep, EntrySession.recreate]
      split
      · exact .same
      next a ha =>
      split
      · exact .same
      obtain ⟨as, has⟩ := List.getLast?_eq_some_iff.mp ha
      simp only [has, List.dropLast_concat]
      rcases Nat.lt_trichotomy k as.length with hk | hk | hk
      · -- an earlier instance
        rw [List.getElem?_append_left hk, List.getElem?_append_left hk]
        exact .same
      · -- the last one, which is destroyed
        rw [List.getElem?_append_right hk.ge, List.getElem?_append_right hk.ge, hk, Nat.sub_self]
        exact .destroyed
      · -- past the last: the new instance comes right after it
        rw [List.getElem?_append_right hk.le, List.getElem?_append_right hk.le]
        obtain ⟨j, hj⟩ := Nat.exists_eq_add_of_lt hk
        rw [show k - as.length = j + 1 by omega]
        cases j with
        | zero => exact .rebuilt
        | succ j => exact .same

section Instances

variable {user : Bytes} {unsealFromBase64 : Bytes → Option (Option Bytes)}
  {sealToBase64 : ν → Bytes → Option Bytes}

variable (user sealToBase64) in
/-- Everything an event can do to instance `k` of editor `m`. -/
inductive InstanceEffect (m k : ℕ) (s : AndroidApp) (ev : AndroidEvent ν) :
    Option EntryActivity → Option EntryActivity → Prop
  | same {o} : InstanceEffect m k s ev o o
  | opened {intent} (hopens : ∀ e, intent = some e → Opens e s ev) :
      InstanceEffect m k s ev none (some (EntryActivity.onCreate intent))
  | change {e ev' o o'} (he : s.editors[m]? = some e) (hev : ev = .editing m ev')
      (hchange : InstanceChange user ⟨e.intent, e.instances, s.db⟩ (e.event sealToBase64 ev') k
        o o') : InstanceEffect m k s ev o o'

theorem instanceEffect_openEditor {m k : ℕ} {s s' : AndroidApp} {ev : AndroidEvent ν}
    (hs : s'.editors = s.editors) {intent : Option DiaryEntry}
    (hopens : ∀ e, intent = some e → Opens e s ev) :
    InstanceEffect user sealToBase64 m k s ev (s.instance m k)
      ((s'.openEditor intent).instance m k) := by
  simp only [AndroidApp.instance, AndroidApp.openEditor, hs]
  rcases Nat.lt_trichotomy m s.editors.length with hm | hm | hm
  · rw [List.getElem?_append_left hm]
    exact .same
  · rw [List.getElem?_append_right hm.ge, hm, Nat.sub_self, List.getElem?_eq_none (le_refl _)]
    cases k with
    | zero => exact .opened hopens
    | succ k => exact .same
  · rw [List.getElem?_append_right hm.le, List.getElem?_eq_none hm.le,
      List.getElem?_eq_none (Nat.sub_pos_of_lt hm)]
    exact .same

theorem instanceEffect_editing (m k l : ℕ) (s : AndroidApp) (ev : EditingEvent ν) :
    InstanceEffect user sealToBase64 m k s (.editing l ev) (s.instance m k)
      ((s.editing user sealToBase64 l ev).instance m k) := by
  rw [AndroidApp.editing]
  split
  · exact .same
  next e he =>
  by_cases hm : l = m
  · subst hm
    obtain ⟨hl, -⟩ := List.getElem?_eq_some_iff.mp he
    refine .change he rfl ?_
    simp only [AndroidApp.instance, he, List.getElem?_set_self hl, Option.bind_some]
    exact instanceChange_entrySessionStep user ⟨e.intent, e.instances, s.db⟩ _ k
  · simp only [AndroidApp.instance, List.getElem?_set_ne hm]
    exact .same

variable (user unsealFromBase64 sealToBase64) in
theorem instanceEffect_step (m k : ℕ) (s : AndroidApp) (ev : AndroidEvent ν) :
    InstanceEffect user sealToBase64 m k s ev (s.instance m k)
      ((androidStep user unsealFromBase64 sealToBase64 s ev).1.instance m k) := by
  unfold androidStep
  simp only
  split
  swap
  · cases ev <;> exact .same
  cases ev with
  | main ev => exact .same
  | openViewer pos =>
      simp only [AndroidApp.handle]
      split
      · exact .same
      · next e he =>
          refine instanceEffect_openEditor rfl fun e' he' => ?_
          obtain rfl := Option.some.inj he'
          exact .list he
  | edit i =>
      simp only [AndroidApp.handle]
      split
      · exact .same
      next d hd =>
      split
      · exact .same
      · next hmenu =>
          refine instanceEffect_openEditor rfl fun e' he' => ?_
          exact .menu hd (Bool.eq_false_iff.mpr hmenu) (Option.some.inj he')
  | new => exact instanceEffect_openEditor rfl fun e' he' => by cases he'
  | editing l ev => exact instanceEffect_editing m k l s ev

/-! ### Where a text and an id come from -/

theorem waiting_uiStep {a : EntryActivity} {uev : UiEvent} {text : Bytes}
    (h : text ∈ (uiStep a uev).1.waiting) :
    text ∈ a.waiting ∨ a.editText = text ∧ text ≠ [] ∧
      (uev = .saveTask ∧ a.saveTask = true ∨
        uev = .saveAndClose ∧ a.destroyed = false ∧ text ≠ a.originalText) := by
  -- only the timer and the closing put a text in the queue
  have heff := entryEffect_entryStep a (.ui uev)
  rw [entryStep] at heff
  generalize (uiStep a uev).1 = a', (uiStep a uev).2 = out at heff h
  cases heff with
  | change | skip | finish => exact Or.inl h
  | destroy => exact Or.inl (by simpa [EntryActivity.waiting, EntryActivity.onDestroy,
      EntryTask.saves] using h)
  | take htimer hsaving hne =>
      rw [EntryActivity.waiting, List.filterMap_append] at h
      rcases List.mem_append.mp h with h | h
      · exact Or.inl h
      · obtain rfl := List.mem_singleton.mp h
        exact Or.inr ⟨rfl, hne, Or.inl ⟨rfl, htimer⟩⟩
  | close hhere hne horig =>
      rw [EntryActivity.waiting, List.filterMap_append] at h
      rcases List.mem_append.mp h with h | h
      · exact Or.inl h
      · obtain rfl := List.mem_singleton.mp h
        exact Or.inr ⟨rfl, hne, Or.inr ⟨rfl, hhere, horig⟩⟩
  | quiet hev hkeeps hwaiting hid =>
      rw [hwaiting] at h
      exact Or.inl h

theorem waiting_runTask {a : EntryActivity} {reply : Option (List Bytes)} {text : Bytes}
    (h : text ∈ (a.runTask reply).1.waiting) : text ∈ a.waiting := by
  rw [EntryActivity.runTask] at h
  rw [EntryActivity.waiting]
  split at h
  · exact h
  · next hex =>
      rw [hex]
      exact h
  · next hex =>
      rw [hex]
      exact h
  · next saved closing rest hex =>
      rw [hex]
      refine List.mem_of_mem_tail ?_
      split at h
      · exact h
      · exact h

/-- A text waits to be saved. -/
def AndroidApp.Waits (m k : ℕ) (text : Bytes) (s : AndroidApp) : Prop :=
  ∃ a, s.instance m k = some a ∧ text ∈ a.waiting

/-- A text begins to wait only by being taken from the field. -/
theorem takes_of_waits {m k : ℕ} {text : Bytes} {s : AndroidApp} {ev : AndroidEvent ν}
    (hnot : ¬ s.Waits m k text)
    (h : (androidStep user unsealFromBase64 sealToBase64 s ev).1.Waits m k text) :
    Takes m k text s ev := by
  obtain ⟨a', ha', hmem⟩ := h
  have heff := instanceEffect_step user unsealFromBase64 sealToBase64 m k s ev
  rw [ha'] at heff
  generalize hold : s.instance m k = old at heff
  cases heff with
  | same => exact absurd ⟨a', hold, hmem⟩ hnot
  | opened => cases hmem
  | @change e ev' _ _ he hev hchange =>
      cases hchange with
      | same => exact absurd ⟨a', hold, hmem⟩ hnot
      | rebuilt => cases hmem
      | task => exact absurd ⟨_, hold, waiting_runTask hmem⟩ hnot
      | destroyed =>
          rcases waiting_uiStep hmem with hmem | ⟨-, -, ⟨huev, -⟩ | ⟨huev, -⟩⟩
          · exact absurd ⟨_, hold, hmem⟩ hnot
          · cases huev
          · cases huev
      | @ui a uev hui =>
          -- the event of the editor is the event of this instance
          have hev' : ev' = .ui k uev := by
            cases ev' with
            | ui l uev' =>
                obtain ⟨rfl, rfl⟩ := EntrySessionEvent.ui.inj hui
                rfl
            | runTask | recreate => cases hui
          rw [hev, hev']
          rcases waiting_uiStep hmem with hmem | ⟨htext, hne, ⟨rfl, htimer⟩ | ⟨rfl, hhere, horig⟩⟩
          · exact absurd ⟨a, hold, hmem⟩ hnot
          · exact .timer hold htimer htext hne
          · exact .close hold hhere htext hne horig

/-- The entry an editor was opened on. -/
def AndroidApp.OpenedOn (m : ℕ) (entry : DiaryEntry) (s : AndroidApp) : Prop :=
  ∃ e, s.editors[m]? = some e ∧ e.intent = some entry

theorem getElem?_concat_cases {α : Type*} {l : List α} {x y : α} {n : ℕ}
    (h : (l ++ [x])[n]? = some y) : l[n]? = some y ∨ y = x := by
  rcases Nat.lt_trichotomy n l.length with hn | hn | hn
  · rw [List.getElem?_append_left hn] at h
    exact Or.inl h
  · rw [List.getElem?_append_right hn.ge, hn, Nat.sub_self] at h
    exact Or.inr (Option.some.inj h).symm
  · rw [List.getElem?_append_right hn.le, List.getElem?_eq_none (Nat.sub_pos_of_lt hn)] at h
    cases h

theorem openedOn_openEditor {m : ℕ} {entry : DiaryEntry} {s s' : AndroidApp}
    (hs : s'.editors = s.editors) {intent : Option DiaryEntry}
    (h : (s'.openEditor intent).OpenedOn m entry) :
    s.OpenedOn m entry ∨ intent = some entry := by
  obtain ⟨e, he, hentry⟩ := h
  rw [AndroidApp.openEditor, hs] at he
  rcases getElem?_concat_cases he with he | rfl
  · exact Or.inl ⟨e, he, hentry⟩
  · exact Or.inr hentry

/-- An Intent stays what it is. -/
theorem openedOn_editing {m l : ℕ} {entry : DiaryEntry} {s : AndroidApp} {ev : EditingEvent ν}
    (h : (s.editing user sealToBase64 l ev).OpenedOn m entry) : s.OpenedOn m entry := by
  obtain ⟨e', he', hentry⟩ := h
  rw [AndroidApp.editing] at he'
  split at he'
  · exact ⟨e', he', hentry⟩
  next e he =>
  obtain ⟨hl, -⟩ := List.getElem?_eq_some_iff.mp he
  by_cases hm : l = m
  · subst hm
    simp only [List.getElem?_set_self hl, intent_entrySessionStep, Option.some.injEq] at he'
    rw [← he'] at hentry
    exact ⟨e, he, hentry⟩
  · simp only [List.getElem?_set_ne hm] at he'
    exact ⟨e', he', hentry⟩

theorem opens_of_openedOn {m : ℕ} {entry : DiaryEntry} {s : AndroidApp} {ev : AndroidEvent ν}
    (hnot : ¬ s.OpenedOn m entry)
    (h : (androidStep user unsealFromBase64 sealToBase64 s ev).1.OpenedOn m entry) :
    Opens entry s ev := by
  unfold androidStep at h
  simp only at h
  split at h
  swap
  · cases ev <;> exact absurd h hnot
  cases ev with
  | main ev => exact absurd h hnot
  | openViewer pos =>
      simp only [AndroidApp.handle] at h
      split at h
      · exact absurd h hnot
      · next e he =>
          obtain rfl := Option.some.inj ((openedOn_openEditor rfl h).resolve_left hnot)
          exact .list he
  | edit i =>
      simp only [AndroidApp.handle] at h
      split at h
      · exact absurd h hnot
      next d hd =>
      split at h
      · exact absurd h hnot
      · next hmenu =>
          have hentry := (openedOn_openEditor rfl h).resolve_left hnot
          exact .menu hd (Bool.eq_false_iff.mpr hmenu) (Option.some.inj hentry)
  | new => cases (openedOn_openEditor rfl h).resolve_left hnot
  | editing l ev => exact absurd (openedOn_editing h) hnot

/-- Instance `k` of editor `m` has an id. -/
def AndroidApp.HasId (m k : ℕ) (id : Int32) (s : AndroidApp) : Prop :=
  ∃ a, s.instance m k = some a ∧ a.entryId = id

theorem entry_of_onCreate {intent : Option DiaryEntry} {id : Int32} (hid : 0 < id)
    (h : (EntryActivity.onCreate intent).entryId = id) :
    ∃ entry, intent = some entry ∧ entry.id = id := by
  cases intent with
  | none =>
      obtain rfl : -1 = id := h
      exact absurd hid (by decide)
  | some entry => exact ⟨entry, rfl, h⟩

/-- An instance comes to an id by the Intent it was opened with, or by the
answer to a POST. -/
theorem id_of_hasId {m k : ℕ} {id : Int32} (hid : 0 < id) {s : AndroidApp}
    {ev : AndroidEvent ν} (hnot : ¬ s.HasId m k id)
    (h : (androidStep user unsealFromBase64 sealToBase64 s ev).1.HasId m k id) :
    TakesId user sealToBase64 m k id s ev ∨
      ∃ entry, entry.id = id ∧ (Opens entry s ev ∨ s.OpenedOn m entry) := by
  obtain ⟨a', ha', hida⟩ := h
  have heff := instanceEffect_step user unsealFromBase64 sealToBase64 m k s ev
  rw [ha'] at heff
  generalize hold : s.instance m k = old at heff
  cases heff with
  | same => exact absurd ⟨a', hold, hida⟩ hnot
  | opened hopens =>
      -- a new instance has the id of the entry it was opened on
      obtain ⟨entry, rfl, hentry⟩ := entry_of_onCreate hid hida
      exact Or.inr ⟨entry, hentry, Or.inl (hopens entry rfl)⟩
  | @change e ev' _ _ he hev hchange =>
      cases hchange with
      | same => exact absurd ⟨a', hold, hida⟩ hnot
      | rebuilt =>
          -- a rebuilt instance reads the id from the Intent again
          obtain ⟨entry, hintent, hentry⟩ := entry_of_onCreate hid hida
          exact Or.inr ⟨entry, hentry, Or.inr ⟨e, he, hintent⟩⟩
      | ui | destroyed =>
          -- no event of the screen sets the id
          rw [entryId_uiStep] at hida
          exact absurd ⟨_, hold, hida⟩ hnot
      | @task a b64 transport env ha hrun =>
          have htask := entryEffect_runTask
            (exchange user (b64.bind a.request) transport env s.db).2 a
          generalize hreply : (exchange user (b64.bind a.request) transport env s.db).2 = reply
            at htask hida
          generalize (a.runTask reply).1 = b, (a.runTask reply).2 = out at htask hida
          cases htask with
          | fails hex hack hkeeps hsame =>
              rw [hsame] at hida
              exact absurd ⟨a, hold, hida⟩ hnot
          | quiet _ hkeeps hwaiting hsame =>
              rw [hsame] at hida
              exact absurd ⟨a, hold, hida⟩ hnot
          | @stored _ text closing rest ack _ hex hack hkeeps hrest hack_id =>
              obtain ⟨-, -, hsame⟩ := id_of_store hack
              rw [hack_id] at hida
              -- an UPDATE is acknowledged with the id the instance already has
              have hpost : ack.post = true := by
                by_contra hpost
                rw [hsame (Bool.eq_false_iff.mpr hpost)] at hida
                exact hnot ⟨a, hold, hida⟩
              rw [hev]
              refine Or.inl (.stored he ?_ hpost hida)
              rw [hrun]
              exact .mk ha hex (by rw [hreply]; exact hack)

/-- A deletion begins to wait only by being confirmed. -/
theorem confirms_of_mainStep {id pressed : Int32} {pos : ℕ} {s : MainActivity} {ev : MainEvent}
    (hnot : .delete id pos pressed ∉ s.executor)
    (h : .delete id pos pressed ∈ (mainStep user unsealFromBase64 s ev).1.executor) :
    ∃ d e, Confirms s ev d e ∧ e.id = id := by
  have heff := executorEffect_mainStep user unsealFromBase64 s ev
  generalize (mainStep user unsealFromBase64 s ev).1.executor = ex at heff h
  generalize (mainStep user unsealFromBase64 s ev).2 = out at heff
  cases heff with
  | idle => exact absurd h hnot
  | queue ht =>
      rcases List.mem_append.mp h with h | h
      · exact absurd h hnot
      · rcases ht with rfl | rfl <;> cases List.mem_singleton.mp h
  | @confirm d e hc =>
      rcases List.mem_append.mp h with h | h
      · exact absurd h hnot
      · obtain ⟨rfl, -, -⟩ := Task.delete.inj (List.mem_singleton.mp h)
        exact ⟨d, e, hc, rfl⟩
  | connect hex | load hex | delete hex =>
      rw [hex] at hnot
      exact absurd (List.mem_cons_of_mem _ h) hnot
  | loadFails hex =>
      rw [hex] at hnot
      rcases List.mem_append.mp h with h | h
      · exact absurd (List.mem_cons_of_mem _ h) hnot
      · cases List.mem_singleton.mp h

theorem confirms_of_waits {id pressed : Int32} {pos : ℕ} {s : AndroidApp} {ev : AndroidEvent ν}
    (hnot : .delete id pos pressed ∉ s.main.executor)
    (h : .delete id pos pressed
      ∈ (androidStep user unsealFromBase64 sealToBase64 s ev).1.main.executor) :
    ∃ mev d e, ev = .main mev ∧ Confirms s.main mev d e ∧ e.id = id := by
  unfold androidStep at h
  simp only at h
  split at h
  · cases ev with
    | main mev =>
        obtain ⟨d, e, hc, hid⟩ := confirms_of_mainStep hnot h
        exact ⟨mev, d, e, rfl, hc, hid⟩
    | openViewer pos =>
        simp only [AndroidApp.handle] at h
        split at h <;> exact absurd h hnot
    | edit i =>
        simp only [AndroidApp.handle] at h
        split at h
        · exact absurd h hnot
        · split at h
          · exact absurd h hnot
          · obtain ⟨d, e, ⟨-, ⟨j, hev, -⟩, -, -⟩, -⟩ := confirms_of_mainStep hnot h
            -- the menu entry for editing confirms nothing
            cases hev
    | new => exact absurd h hnot
    | editing m ev =>
        simp only [AndroidApp.handle, AndroidApp.editing] at h
        split at h <;> exact absurd h hnot
  · cases ev with
    | main mev =>
        obtain ⟨d, e, hc, hid⟩ := confirms_of_mainStep hnot h
        exact ⟨mev, d, e, rfl, hc, hid⟩
    | openViewer | edit | new | editing => exact absurd h hnot

end Instances

/-! ### Whole runs -/

section Runs

variable (user : Bytes) (unsealFromBase64 : Bytes → Option (Option Bytes))
  (sealToBase64 : ν → Bytes → Option Bytes) (db : Db)

/-- A condition met by some event of a run of the app. -/
def InRun (run : List (AndroidEvent ν)) (Q : AndroidApp → AndroidEvent ν → Prop) : Prop :=
  Sometime (androidStep user unsealFromBase64 sealToBase64) Q (AndroidApp.created db) run

/-- A command that an event asks of the server, and that was given by hand in
the run before it: another client asks for it; or a question was confirmed,
and it deletes the entry at the position of the question by then; or the
editor took the text that it stores from its field, under the id of an entry
that was opened, or of one that the editor itself posted; or the editor took
the text that it posts. -/
inductive ByHand (past : List (AndroidEvent ν)) : AndroidEvent ν → Bytes → Command → Prop
  | other (r : Request) : ByHand past (.main (.other r)) r.user (parseLine r.env.now r.line)
  | delete {transport env d e}
      (h : InRun user unsealFromBase64 sealToBase64 db past fun s ev =>
        ∃ mev, ev = .main mev ∧ Confirms s.main mev d e) :
      ByHand past (.main (.runTask transport env)) user (.delete e.id)
  | update {m k nonce transport env id text b64}
      (htext : InRun user unsealFromBase64 sealToBase64 db past (Takes m k text))
      (hid : (∃ entry, entry.id = id ∧
          InRun user unsealFromBase64 sealToBase64 db past (Opens entry)) ∨
        InRun user unsealFromBase64 sealToBase64 db past (TakesId user sealToBase64 m k id))
      (hseal : sealToBase64 nonce text = some b64) :
      ByHand past (.editing m (.runTask k nonce transport env)) user (.update id b64)
  | post {m k nonce transport env text b64}
      (htext : InRun user unsealFromBase64 sealToBase64 db past (Takes m k text))
      (hseal : sealToBase64 nonce text = some b64) :
      ByHand past (.editing m (.runTask k nonce transport env)) user (.post env.now b64)

/-- The row under an id, at a moment of the run. -/
def rowAfter (run : List (AndroidEvent ν)) (j : ℕ) : Option Entry :=
  (final (androidStep user unsealFromBase64 sealToBase64) (AndroidApp.created db)
    run).db.entries.lookup j

/-- Between two moments, after `js` and after `js ++ ks`, the row under an id
goes from `o` to `o'`, in an event that asks for it, given by hand before. -/
def ChangedByHand (js ks : List (AndroidEvent ν)) (j : ℕ) (o o' : Option Entry) (owner : Bytes)
    (c : Command) : Prop :=
  ∃ ks₁ ev ks₂, ks = ks₁ ++ ev :: ks₂ ∧
    rowAfter user unsealFromBase64 sealToBase64 db (js ++ ks₁) j = o ∧
    rowAfter user unsealFromBase64 sealToBase64 db (js ++ ks₁ ++ [ev]) j = o' ∧
    ByHand user unsealFromBase64 sealToBase64 db (js ++ ks₁) ev owner c

variable {user unsealFromBase64 sealToBase64 db}

theorem inRun_of_origin (run : List (AndroidEvent ν)) {R : AndroidApp → Prop}
    {Q : AndroidApp → AndroidEvent ν → Prop}
    (hstep : ∀ s ev, ¬ R s → R (androidStep user unsealFromBase64 sealToBase64 s ev).1 → Q s ev)
    (hstart : ¬ R (AndroidApp.created db))
    (hend :
      R (final (androidStep user unsealFromBase64 sealToBase64) (AndroidApp.created db) run)) :
    InRun user unsealFromBase64 sealToBase64 db run Q :=
  origin hstep run hstart hend

/-- What an event of a run asks for was given by hand before. -/
theorem byHand_of_ordered {js : List (AndroidEvent ν)} {ev : AndroidEvent ν} {owner : Bytes}
    {c : Command}
    (h : AndroidOrders user sealToBase64
      (final (androidStep user unsealFromBase64 sealToBase64) (AndroidApp.created db) js) ev owner
      c) :
    ByHand user unsealFromBase64 sealToBase64 db js ev owner c := by
  -- the text of a task was taken from the field
  have hwaits : ∀ {m k text a closing rest},
      (final (androidStep user unsealFromBase64 sealToBase64) (AndroidApp.created db) js).instance
        m k = some a → a.executor = .save text closing :: rest →
      InRun user unsealFromBase64 sealToBase64 db js (Takes m k text) := by
    intro m k text a closing rest ha hex
    have hmem : text ∈ a.waiting := by
      rw [EntryActivity.waiting, hex]
      exact List.mem_cons_self
    refine inRun_of_origin js (R := AndroidApp.Waits m k text)
      (fun s ev => takes_of_waits) ?_ ⟨a, ha, hmem⟩
    rintro ⟨b, hb, -⟩
    cases hb
  cases h with
  | other r => exact .other r
  | post ha hex hid hseal => exact .post (hwaits ha hex) hseal
  | @delete transport env id pos pressed rest hex =>
      have hconfirms := inRun_of_origin js
        (R := fun s : AndroidApp => .delete id pos pressed ∈ s.main.executor)
        (fun s ev => confirms_of_waits) (by
          simp [AndroidApp.created, MainActivity.created, MainActivity.connectAndLoad])
        (by rw [hex]; exact List.mem_cons_self)
      obtain ⟨js₁, ev₁, ks₁, rfl, mev, d, e, hev, hc, rfl⟩ := hconfirms
      exact .delete ⟨js₁, ev₁, ks₁, rfl, mev, hev, hc⟩
  | @update m k nonce transport env a text closing rest b64 ha hex hid hseal =>
      refine .update (hwaits ha hex) ?_ hseal
      have hhas := inRun_of_origin js (R := AndroidApp.HasId m k a.entryId)
        (fun s ev => id_of_hasId hid) (by
          rintro ⟨b, hb, -⟩
          cases hb)
        ⟨a, ha, rfl⟩
      obtain ⟨js₁, ev₁, ks₁, rfl, htakes | ⟨entry, hentry, hopens | hon⟩⟩ := hhas
      · exact Or.inr ⟨js₁, ev₁, ks₁, rfl, htakes⟩
      · exact Or.inl ⟨entry, hentry, js₁, ev₁, ks₁, rfl, hopens⟩
      · -- the Intent is older than the instance
        have hopens := inRun_of_origin js₁ (R := AndroidApp.OpenedOn m entry)
          (fun s ev => opens_of_openedOn) (by
            rintro ⟨b, hb, -⟩
            cases hb)
          hon
        exact Or.inl ⟨entry, hentry, Sometime.append hopens _⟩

theorem changedByHand_of_changed {js ks : List (AndroidEvent ν)} {j : ℕ} {o o' : Option Entry}
    {owner : Bytes} {c : Command}
    (h : ChangedIn (androidStep user unsealFromBase64 sealToBase64) AndroidApp.db
      (AndroidOrders user sealToBase64)
      (final (androidStep user unsealFromBase64 sealToBase64) (AndroidApp.created db) js) ks j o o'
      owner c) :
    ChangedByHand user unsealFromBase64 sealToBase64 db js ks j o o' owner c := by
  obtain ⟨ks₁, ev, ks₂, hks, hold, hnew, hordered⟩ := h
  rw [← final_append] at hold hnew hordered
  rw [← final_concat] at hnew
  exact ⟨ks₁, ev, ks₂, hks, hold, hnew, byHand_of_ordered hordered⟩

/-- **On the phone, too, rows change by hand only.**  Between any two moments
of a run of the app from its start, in any order of its queues and with other
clients writing what they like:

* a row goes only by an order of another client, or by a question "Delete
  this entry?" that was confirmed before, while the entry was at its position;
* a row keeps its owner and its timestamp, and has other data only by an
  order of another client, or because an editor took a text from its field
  before, which the data seals, and the row is that of an entry opened before
  or of one the editor posted itself;
* a row appears only by an order of another client, or because an editor
  took a text from its field before, which the data it appears with seals. -/
theorem phone_changes_by_hand (user : Bytes) (unsealFromBase64 : Bytes → Option (Option Bytes))
    (sealToBase64 : ν → Bytes → Option Bytes)
    (hseal : ∀ n text b64, sealToBase64 n text = some b64 → (32 : UInt8) ∉ b64) (db : Db)
    (js ks : List (AndroidEvent ν)) (j : ℕ) :
    RowHistory (ChangedByHand user unsealFromBase64 sealToBase64 db js ks j) j
      (rowAfter user unsealFromBase64 sealToBase64 db js j)
      (rowAfter user unsealFromBase64 sealToBase64 db (js ++ ks) j) := by
  have horders : ByOrders (androidStep user unsealFromBase64 sealToBase64) AndroidApp.db
      (AndroidOrders user sealToBase64) := byOrders_android hseal
  have hrows := rows_by_orders horders
    (final (androidStep user unsealFromBase64 sealToBase64) (AndroidApp.created db) js) ks j
  rw [← final_append] at hrows
  exact hrows.imp fun _ _ _ _ => changedByHand_of_changed

/-- A new entry is opened and typed, its timer goes off, and the save runs. -/
theorem phone_changes_by_hand_post :
    let env : Env := ⟨7, true, true, []⟩
    let yo : List (AndroidEvent Unit) :=
      [.new, .editing 0 (.runTask 0 () .answered env),
        .editing 0 (.ui 0 (.afterTextChanged (lit "yo")))]
    let saved : List (AndroidEvent Unit) :=
      [.editing 0 (.ui 0 .saveTask), .editing 0 (.runTask 0 () .answered env)]
    ∃ data, ChangedByHand (lit "alice") (fun _ => some none)
      (fun _ text => some (encodeBase64 text)) Db.fresh yo saved 1 none
      (some ⟨lit "alice", 7, data⟩) (lit "alice") (.post 7 data) := by
  intro env yo saved
  obtain ⟨data, hposted, -⟩ := (phone_changes_by_hand (lit "alice") (fun _ => some none)
    (fun _ text => some (encodeBase64 text)) (fun n text b64 hb64 hsp => by
      obtain rfl := Option.some.inj hb64
      exact (inert_of_mem_encodeBase64 text 32 hsp).1 rfl) Db.fresh yo saved 1).created
    ⟨lit "alice", 7, lit "eW8="⟩ (by decide +kernel) (by decide +kernel)
  exact ⟨data, hposted⟩

end Runs

end Diary
