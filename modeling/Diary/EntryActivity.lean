/-
Diary/EntryActivity.lean

EntryActivity.java, the Android editor: a text the user changes, a timer
that each change sets anew and that saves the text when it goes off, and an
executor of one thread that does the saving, one task after another.

The main thread and the executor meet in three places: the queue of tasks,
the flag `saving`, which the main thread sets with a save and takes back
when it is told that the save is done, and the id of the entry, which only
the executor reads and writes.  A run says which of the two threads goes on
next and what the server answers.

* `acks_of_healthy`: without failures the server acknowledges the texts that
  were taken to be saved, each once and in that order;
* `closing_saves_iff`: closing compares with the text at opening, so it
  loses a return to that text if another text was saved last;
* `autosave_converges_iff`: `save` does nothing while a save is on its way,
  so a text stays unsaved if the timer for it goes off just then.

The copy `saveBackup` writes, the status line and the reading of the
settings are left out.
-/
import Diary.ClientOrder

namespace Diary

open CString Machine

/-! ### A save over the connection -/

/-- `DiaryConnection.postEntry` on the lines of a reply; `none` is an
exception. -/
def androidPostEntry : List Bytes → Option Int32
  | [] => none
  | resp :: _ => if (lit "OK ").isPrefixOf resp then parseInt (trim (resp.drop 3)) else none

/-- `DiaryConnection.updateEntry`. -/
def androidUpdateEntry (id : Int32) : List Bytes → Option Int32
  | [] => none
  | resp :: _ => if resp = lit "OK" then some id else none

/-! ### The activity -/

/-- What waits on the executor.  A save has captured its text; `closing`
says that it is `saveAndClose`'s. -/
inductive EntryTask
  | connect
  | save (text : Bytes) (closing : Bool)
  | disconnect
deriving DecidableEq

/-- What waits on the main looper: the completions of `save`, those of
`saveAndClose`, each with its outcome, and those that only show a message. -/
inductive EntryPosted
  | saved (ok : Bool)
  | closed (ok : Bool)
  | status
deriving DecidableEq

/-- The activity.  `saveTask` says that the timer is set, `result` that
`RESULT_OK` is, `finished` that `finish` was called. -/
structure EntryActivity where
  editText : Bytes
  originalText : Bytes
  entryId : Int32
  conn : Bool
  saving : Bool
  saveTask : Bool
  executor : List EntryTask
  looper : List EntryPosted
  result : Bool
  finished : Bool
  destroyed : Bool
deriving DecidableEq

/-- A save the server acknowledged: whether it was a POST, the entry and the
text. -/
structure Ack where
  post : Bool
  id : Int32
  text : Bytes
deriving DecidableEq

/-- What a step did towards a save: it took a text and queued it, or the
server acknowledged one. -/
inductive EntryOutput
  | takes (text : Bytes)
  | stored (ack : Ack)
deriving DecidableEq

namespace EntryActivity

/-- `setupConnection`. -/
def setupConnection (s : EntryActivity) : EntryActivity :=
  { s with executor := s.executor ++ [.connect] }

/-- `onCreate`, with the entry the Intent carries, if any. -/
def onCreate (intent : Option DiaryEntry) : EntryActivity :=
  setupConnection
    { editText := (intent.map DiaryEntry.text).getD [],
      originalText := (intent.map DiaryEntry.text).getD [],
      entryId := (intent.map DiaryEntry.id).getD (-1),
      conn := false, saving := false, saveTask := false, executor := [], looper := [],
      result := false, finished := false, destroyed := false }

/-- `afterTextChanged`. -/
def afterTextChanged (text : Bytes) (s : EntryActivity) : EntryActivity :=
  { s with editText := text, saveTask := true }

/-- `save`. -/
def save (s : EntryActivity) : EntryActivity × Option EntryOutput :=
  if s.conn = false ∨ s.saving = true then (s, none)
  else if s.editText = [] then (s, none)
  else
    ({ s with saving := true, executor := s.executor ++ [.save s.editText false] },
      some (.takes s.editText))

/-- `saveAndClose`, behind `removeCallbacks`. -/
def closeOrSave (s : EntryActivity) : EntryActivity × Option EntryOutput :=
  if s.conn = false then ({ s with finished := true }, none)
  else if s.editText = [] ∨ s.editText = s.originalText then ({ s with finished := true }, none)
  else
    ({ s with saving := true, executor := s.executor ++ [.save s.editText true] },
      some (.takes s.editText))

/-- `saveAndClose`. -/
def saveAndClose (s : EntryActivity) : EntryActivity × Option EntryOutput :=
  closeOrSave { s with saveTask := false }

/-- `onDestroy`; the executor still runs what waits. -/
def onDestroy (s : EntryActivity) : EntryActivity :=
  { s with saveTask := false, executor := s.executor ++ [.disconnect], destroyed := true }

/-- `handler.post`. -/
def post (p : EntryPosted) (s : EntryActivity) : EntryActivity :=
  { s with looper := s.looper ++ [p] }

/-- The call that a save makes and what it comes back with; `none` is an
exception. -/
def store (s : EntryActivity) (text : Bytes) (reply : Option (List Bytes)) : Option Ack :=
  if 0 < s.entryId then
    (reply.bind (androidUpdateEntry s.entryId)).map fun id => ⟨false, id, text⟩
  else (reply.bind androidPostEntry).map fun id => ⟨true, id, text⟩

/-- The executor runs its next task.  The connection is there from the
moment it is made, whether or not the server can be reached; a reply that
does not come is `none`. -/
def runTask (reply : Option (List Bytes)) (s : EntryActivity) :
    EntryActivity × Option EntryOutput :=
  match s.executor with
  | [] => (s, none)
  | .connect :: executor => (post .status { s with executor := executor, conn := true }, none)
  | .disconnect :: executor => ({ s with executor := executor }, none)
  | .save text closing :: executor =>
      match s.store text reply with
      | some ack =>
          (post (if closing then .closed true else .saved true)
              { s with
                executor := executor
                entryId := if 0 < s.entryId then s.entryId else ack.id },
            some (.stored ack))
      | none =>
          (post (if closing then .closed false else .saved false)
              { s with executor := executor }, none)

/-- The main looper runs the next completion. -/
def runPosted (s : EntryActivity) : EntryActivity :=
  match s.looper with
  | [] => s
  | .saved ok :: looper =>
      { s with looper := looper, saving := false, result := s.result || ok }
  | .closed ok :: looper =>
      { s with looper := looper, result := s.result || ok, finished := true }
  | .status :: looper => { s with looper := looper }

end EntryActivity

/-- What the main thread does next. -/
inductive UiEvent
  | afterTextChanged (text : Bytes)
  | saveTask
  | saveAndClose
  | runPosted
  | onDestroy
deriving DecidableEq

/-- Which thread goes on. -/
inductive EntryEvent
  | ui (ev : UiEvent)
  | runTask (reply : Option (List Bytes))
deriving DecidableEq

/-- A step of the main thread.  An activity that is destroyed gets no more
input; what was posted to it still runs. -/
def uiStep (s : EntryActivity) : UiEvent → EntryActivity × Option EntryOutput
  | .afterTextChanged text =>
      if s.destroyed then (s, none) else (s.afterTextChanged text, none)
  | .saveTask => if s.saveTask then EntryActivity.save { s with saveTask := false } else (s, none)
  | .saveAndClose => if s.destroyed then (s, none) else s.saveAndClose
  | .runPosted => (s.runPosted, none)
  | .onDestroy => if s.destroyed then (s, none) else (s.onDestroy, none)

/-- A step of the activity. -/
def entryStep (s : EntryActivity) : EntryEvent → EntryActivity × Option EntryOutput
  | .ui ev => uiStep s ev
  | .runTask reply => s.runTask reply

/-! ### What a step does -/

/-- The text a task saves. -/
def EntryTask.saves : EntryTask → Option Bytes
  | .save text _ => some text
  | .connect | .disconnect => none

/-- The texts that wait to be saved. -/
def EntryActivity.waiting (s : EntryActivity) : List Bytes := s.executor.filterMap EntryTask.saves

/-- What the steps that are not about the text leave alone. -/
structure LeavesText (s s' : EntryActivity) : Prop where
  editText : s'.editText = s.editText
  originalText : s'.originalText = s.originalText
  saveTask : s'.saveTask = s.saveTask
  destroyed : s'.destroyed = s.destroyed
  finished : s'.finished = false → s.finished = false

theorem LeavesText.refl (s : EntryActivity) : LeavesText s s := ⟨rfl, rfl, rfl, rfl, id⟩

/-- Everything a step can do. -/
inductive EntryEffect (s : EntryActivity) :
    EntryEvent → EntryActivity → Option EntryOutput → Prop
  | change {text} (h : s.destroyed = false) :
      EntryEffect s (.ui (.afterTextChanged text)) (s.afterTextChanged text) none
  | take (htimer : s.saveTask = true) (hsaving : s.saving = false) (hne : s.editText ≠ []) :
      EntryEffect s (.ui .saveTask)
        { s with
          saveTask := false
          saving := true
          executor := s.executor ++ [.save s.editText false] }
        (some (.takes s.editText))
  | skip (htimer : s.saveTask = true)
      (hskip : s.conn = false ∨ s.saving = true ∨ s.editText = []) :
      EntryEffect s (.ui .saveTask) { s with saveTask := false } none
  | finish (h : s.destroyed = false)
      (hfinish : s.conn = false ∨ s.editText = [] ∨ s.editText = s.originalText) :
      EntryEffect s (.ui .saveAndClose) { s with saveTask := false, finished := true } none
  | close (h : s.destroyed = false) (hne : s.editText ≠ []) (horig : s.editText ≠ s.originalText) :
      EntryEffect s (.ui .saveAndClose)
        { s with
          saveTask := false
          saving := true
          executor := s.executor ++ [.save s.editText true] }
        (some (.takes s.editText))
  | destroy (h : s.destroyed = false) : EntryEffect s (.ui .onDestroy) s.onDestroy none
  | stored {reply text closing rest ack s'} (hex : s.executor = .save text closing :: rest)
      (hack : s.store text reply = some ack) (hkeeps : LeavesText s s')
      (hrest : s'.executor = rest) (hid : s'.entryId = ack.id) :
      EntryEffect s (.runTask reply) s' (some (.stored ack))
  | fails {reply text closing rest s'} (hex : s.executor = .save text closing :: rest)
      (hack : s.store text reply = none) (hkeeps : LeavesText s s')
      (hid : s'.entryId = s.entryId) : EntryEffect s (.runTask reply) s' none
  | quiet {ev s'} (hev : (s.destroyed = true ∧ ev ≠ .ui .saveTask) ∨
        (ev = .ui .saveTask ∧ s.saveTask = false) ∨ ev = .ui .runPosted ∨
        ∃ reply, ev = .runTask reply)
      (hkeeps : LeavesText s s') (hwaiting : s'.waiting = s.waiting)
      (hid : s'.entryId = s.entryId) : EntryEffect s ev s' none

theorem id_of_store {s : EntryActivity} {text : Bytes} {reply : Option (List Bytes)} {ack : Ack}
    (h : s.store text reply = some ack) :
    ack.text = text ∧ ack.post = decide (¬ 0 < s.entryId) ∧
      (ack.post = false → ack.id = s.entryId) := by
  rw [EntryActivity.store] at h
  split at h
  · next hpos =>
    obtain ⟨id, hid, rfl⟩ := Option.map_eq_some_iff.mp h
    refine ⟨rfl, by simp [hpos], fun _ => ?_⟩
    obtain ⟨lines, -, hlines⟩ := Option.bind_eq_some_iff.mp hid
    cases lines with
    | nil => cases hlines
    | cons resp lines =>
        rw [androidUpdateEntry] at hlines
        split at hlines
        · exact (Option.some.inj hlines).symm
        · cases hlines
  · next hpos =>
    obtain ⟨id, -, rfl⟩ := Option.map_eq_some_iff.mp h
    exact ⟨rfl, by simp [hpos], fun h => by cases h⟩

theorem entryEffect_runTask (reply : Option (List Bytes)) (s : EntryActivity) :
    EntryEffect s (.runTask reply) (s.runTask reply).1 (s.runTask reply).2 := by
  have hev : (s.destroyed = true ∧ EntryEvent.runTask reply ≠ .ui .saveTask) ∨
      (EntryEvent.runTask reply = .ui .saveTask ∧ s.saveTask = false) ∨
      EntryEvent.runTask reply = .ui .runPosted ∨ ∃ r, EntryEvent.runTask reply = .runTask r :=
    Or.inr (Or.inr (Or.inr ⟨reply, rfl⟩))
  rw [EntryActivity.runTask]
  rcases hex : s.executor with - | ⟨t, rest⟩
  · exact .quiet hev (.refl s) rfl rfl
  cases t with
  | connect =>
      refine .quiet hev ⟨rfl, rfl, rfl, rfl, id⟩ ?_ rfl
      rw [EntryActivity.waiting, EntryActivity.waiting, hex]
      rfl
  | disconnect =>
      refine .quiet hev ⟨rfl, rfl, rfl, rfl, id⟩ ?_ rfl
      rw [EntryActivity.waiting, EntryActivity.waiting, hex]
      rfl
  | save text closing =>
      simp only
      rcases hack : s.store text reply with - | ack
      · exact .fails hex hack ⟨rfl, rfl, rfl, rfl, id⟩ rfl
      · refine .stored hex hack ⟨rfl, rfl, rfl, rfl, id⟩ rfl ?_
        -- the id of the acknowledgement is the id the instance has, if it has one
        obtain ⟨-, hpost, hid⟩ := id_of_store hack
        show (if 0 < s.entryId then s.entryId else ack.id) = ack.id
        split
        · next hpos => exact (hid (by simp [hpost, hpos])).symm
        · rfl

theorem entryEffect_runPosted (s : EntryActivity) :
    EntryEffect s (.ui .runPosted) s.runPosted none := by
  have hev : (s.destroyed = true ∧ EntryEvent.ui .runPosted ≠ .ui .saveTask) ∨
      (EntryEvent.ui .runPosted = .ui .saveTask ∧ s.saveTask = false) ∨
      EntryEvent.ui .runPosted = .ui .runPosted ∨ ∃ r, EntryEvent.ui .runPosted = .runTask r :=
    Or.inr (Or.inr (Or.inl rfl))
  rw [EntryActivity.runPosted]
  split
  · exact .quiet hev (.refl s) rfl rfl
  · exact .quiet hev ⟨rfl, rfl, rfl, rfl, id⟩ rfl rfl
  · exact .quiet hev ⟨rfl, rfl, rfl, rfl, fun h => by cases h⟩ rfl rfl
  · exact .quiet hev ⟨rfl, rfl, rfl, rfl, id⟩ rfl rfl

theorem entryEffect_entryStep (s : EntryActivity) (ev : EntryEvent) :
    EntryEffect s ev (entryStep s ev).1 (entryStep s ev).2 := by
  cases ev with
  | runTask reply => exact entryEffect_runTask reply s
  | ui ev =>
      -- a destroyed instance ignores the events of the screen
      have hgone : s.destroyed = true → EntryEvent.ui ev ≠ .ui .saveTask →
          EntryEffect s (.ui ev) s none := fun h hne => .quiet (Or.inl ⟨h, hne⟩) (.refl s) rfl rfl
      cases ev with
      | afterTextChanged text =>
          simp only [entryStep, uiStep]
          split
          · next h => exact hgone h (by simp)
          · next h => exact .change (by simpa using h)
      | saveTask =>
          simp only [entryStep, uiStep, EntryActivity.save]
          split
          swap
          · next h => exact .quiet (Or.inr (Or.inl ⟨rfl, by simpa using h⟩)) (.refl s) rfl rfl
          next htimer =>
          split
          · next h => exact .skip htimer (h.imp_right Or.inl)
          -- connected, and no save is under way
          next hready =>
          split
          · next h => exact .skip htimer (Or.inr (Or.inr h))
          · next hne => exact .take htimer (by simpa using (not_or.mp hready).2) hne
      | saveAndClose =>
          simp only [entryStep, uiStep, EntryActivity.saveAndClose, EntryActivity.closeOrSave]
          split
          · next h => exact hgone h (by simp)
          next h =>
          have hhere : s.destroyed = false := by simpa using h
          split
          · next hconn => exact .finish hhere (Or.inl hconn)
          split
          · next hsame => exact .finish hhere (Or.inr hsame)
          · next hsame => exact .close hhere (not_or.mp hsame).1 (not_or.mp hsame).2
      | runPosted => exact entryEffect_runPosted s
      | onDestroy =>
          simp only [entryStep, uiStep]
          split
          · next h => exact hgone h (by simp)
          · next h => exact .destroy (by simpa using h)

/-! ### The texts of a run -/

/-- The texts taken to be saved. -/
def takenTexts (run : List (EntryEvent × Option EntryOutput)) : List Bytes :=
  run.filterMap fun p =>
    match p.2 with
    | some (.takes text) => some text
    | _ => none

/-- What the server acknowledged. -/
def acks (run : List (EntryEvent × Option EntryOutput)) : List Ack :=
  run.filterMap fun p =>
    match p.2 with
    | some (.stored ack) => some ack
    | _ => none

/-- The text that was last taken, at first the one the activity was opened
with. -/
def lastTaken (intent : Option DiaryEntry) (run : List (EntryEvent × Option EntryOutput)) :
    Option Bytes :=
  (takenTexts run).getLast?.or (intent.map DiaryEntry.text)

/-- The text the server last acknowledged for the entry `id`, at first the
one the activity was opened with. -/
def lastAcknowledged (intent : Option DiaryEntry) (id : Int32)
    (run : List (EntryEvent × Option EntryOutput)) : Option Bytes :=
  (((acks run).filter fun ack => ack.id = id).getLast?.map Ack.text).or
    (intent.map DiaryEntry.text)

theorem takenTexts_append (r r' : List (EntryEvent × Option EntryOutput)) :
    takenTexts (r ++ r') = takenTexts r ++ takenTexts r' := List.filterMap_append

theorem acks_append (r r' : List (EntryEvent × Option EntryOutput)) :
    acks (r ++ r') = acks r ++ acks r' := List.filterMap_append

theorem lastTaken_append (intent : Option DiaryEntry)
    (r r' : List (EntryEvent × Option EntryOutput)) :
    lastTaken intent (r ++ r') = (takenTexts r').getLast?.or (lastTaken intent r) := by
  rw [lastTaken, lastTaken, takenTexts_append, List.getLast?_append, Option.or_assoc]

/-- The text taken last, after a step. -/
def takenAfter (taken : Option Bytes) : Option EntryOutput → Option Bytes
  | some (.takes text) => some text
  | some (.stored _) | none => taken

theorem lastTaken_concat (intent : Option DiaryEntry)
    (r : List (EntryEvent × Option EntryOutput)) (ev : EntryEvent) (out : Option EntryOutput) :
    lastTaken intent (r ++ [(ev, out)]) = takenAfter (lastTaken intent r) out := by
  rw [lastTaken_append]
  rcases out with - | text | ack <;> rfl

/-! ### Runs in which nothing fails -/

/-- The connection is there when a save is to be made, and a save that is
made is acknowledged. -/
structure Healthy (s : EntryActivity) (ev : EntryEvent) : Prop where
  connected : (ev = .ui .saveTask ∧ s.saveTask = true) ∨
    (ev = .ui .saveAndClose ∧ s.destroyed = false) → s.conn = true
  acknowledged : ∀ reply text closing rest, ev = .runTask reply →
    s.executor = .save text closing :: rest → s.store text reply ≠ none

theorem healthy_ui {s : EntryActivity} {ev : UiEvent}
    (h : (ev = .saveTask ∧ s.saveTask = true) ∨ (ev = .saveAndClose ∧ s.destroyed = false) →
      s.conn = true) : Healthy s (.ui ev) :=
  ⟨fun hev => h (by simpa using hev), fun _ _ _ _ hev => by cases hev⟩

theorem healthy_runTask {s : EntryActivity} {reply : Option (List Bytes)}
    (h : ∀ text closing rest, s.executor = .save text closing :: rest →
      s.store text reply ≠ none) : Healthy s (.runTask reply) := by
  refine ⟨fun hev => by simp at hev, fun reply' text closing rest hev => ?_⟩
  obtain rfl := EntryEvent.runTask.inj hev
  exact h text closing rest

instance (s : EntryActivity) : ∀ ev, Decidable (Healthy s ev)
  | .ui ev =>
      decidable_of_iff ((ev = .saveTask ∧ s.saveTask = true) ∨
          (ev = .saveAndClose ∧ s.destroyed = false) → s.conn = true)
        ⟨healthy_ui, fun h hev => h.connected (by simpa using hev)⟩
  | .runTask reply =>
      match hex : s.executor with
      | .save text closing :: rest =>
          decidable_of_iff (s.store text reply ≠ none)
            ⟨fun h => healthy_runTask (by simpa [hex] using h),
              fun h => h.acknowledged reply text closing rest rfl hex⟩
      | [] | .connect :: _ | .disconnect :: _ => isTrue (healthy_runTask (by simp [hex]))

/-- Every text taken is acknowledged, or waits, in the order they were taken;
and what was acknowledged last is the entry the activity has by now. -/
structure Accounted (s : EntryActivity) (run : List (EntryEvent × Option EntryOutput)) : Prop where
  texts : takenTexts run = (acks run).map Ack.text ++ s.waiting
  entry : ∀ ack, (acks run).getLast? = some ack → ack.id = s.entryId

theorem accounted_step {s : EntryActivity} {run : List (EntryEvent × Option EntryOutput)}
    {ev : EntryEvent} (h : Accounted s run) (hok : Healthy s ev) {s' : EntryActivity}
    {out : Option EntryOutput} (heff : EntryEffect s ev s' out) :
    Accounted s' (run ++ [(ev, out)]) := by
  -- a step that neither takes a text nor hears of one
  have hsame : s'.waiting = s.waiting → s'.entryId = s.entryId → out = none →
      Accounted s' (run ++ [(ev, out)]) := by
    rintro hwaiting hid rfl
    refine ⟨?_, ?_⟩
    · rw [takenTexts_append, acks_append, hwaiting]
      simpa [takenTexts, acks] using h.texts
    · rw [acks_append, hid]
      simpa [acks] using h.entry
  -- a step that takes a text, which goes to the end of the queue
  have htake : ∀ text, s'.waiting = s.waiting ++ [text] → s'.entryId = s.entryId →
      out = some (.takes text) → Accounted s' (run ++ [(ev, out)]) := by
    rintro text hwaiting hid rfl
    refine ⟨?_, ?_⟩
    · rw [takenTexts_append, acks_append, hwaiting, h.texts]
      simp [takenTexts, acks]
    · rw [acks_append, hid]
      simpa [acks] using h.entry
  cases heff with
  | change | skip | finish => exact hsame rfl rfl rfl
  | destroy => exact hsame (by simp [EntryActivity.waiting, EntryActivity.onDestroy,
      EntryTask.saves]) rfl rfl
  | take | close => exact htake _ (by simp [EntryActivity.waiting, EntryTask.saves]) rfl rfl
  | quiet hev hkeeps hwaiting hid => exact hsame hwaiting hid rfl
  | fails hex hack => exact absurd hack (hok.acknowledged _ _ _ _ rfl hex)
  | @stored reply text closing rest ack s' hex hack hkeeps hrest hid =>
      refine ⟨?_, ?_⟩
      · have hwaiting : s.waiting = text :: s'.waiting := by
          rw [EntryActivity.waiting, EntryActivity.waiting, hex, hrest]
          rfl
        rw [takenTexts_append, acks_append, h.texts, hwaiting]
        simp [takenTexts, acks, (id_of_store hack).1]
      · rw [acks_append]
        intro ack' hlast
        obtain rfl : ack = ack' := by simpa [acks] using hlast
        exact hid.symm

/-- **Nothing is lost on the way.**  If nothing fails, the server
acknowledges the texts that were taken, in their order. -/
theorem acks_of_healthy (intent : Option DiaryEntry) (run : List EntryEvent)
    (hrun : Throughout entryStep Healthy (EntryActivity.onCreate intent) run) :
    Accounted (final entryStep (EntryActivity.onCreate intent) run)
      (trace entryStep (EntryActivity.onCreate intent) run) := by
  refine throughout_induction
    (P := fun run => Accounted (final entryStep (EntryActivity.onCreate intent) run)
      (trace entryStep (EntryActivity.onCreate intent) run)) ?_ ?_ run hrun
  · exact ⟨rfl, fun ack h => by simp [acks] at h⟩
  · intro run ev hok ih
    rw [final_concat, trace_concat]
    exact accounted_step ih hok (entryEffect_entryStep _ ev)

/-- So once nothing waits, the text acknowledged last is the one taken
last. -/
theorem lastAcknowledged_of_drained {intent : Option DiaryEntry} {run : List EntryEvent}
    (hrun : Throughout entryStep Healthy (EntryActivity.onCreate intent) run)
    (hwaiting : (final entryStep (EntryActivity.onCreate intent) run).waiting = []) :
    lastAcknowledged intent (final entryStep (EntryActivity.onCreate intent) run).entryId
        (trace entryStep (EntryActivity.onCreate intent) run)
      = lastTaken intent (trace entryStep (EntryActivity.onCreate intent) run) := by
  obtain ⟨htexts, hentry⟩ := acks_of_healthy intent run hrun
  rw [hwaiting, List.append_nil] at htexts
  rw [lastAcknowledged, lastTaken, htexts, List.getLast?_map]
  congr 2
  rcases List.eq_nil_or_concat (acks (trace entryStep (EntryActivity.onCreate intent) run)) with
    hnil | ⟨as, ack, hconcat⟩
  · rw [hnil]
    rfl
  · rw [List.concat_eq_append] at hconcat
    have hid := hentry ack (by rw [hconcat, List.getLast?_concat])
    rw [hconcat, List.filter_append, List.filter_singleton]
    simp [hid]

/-! ### Closing -/

/-- While the text stays as it is and the timer is not set, nothing but the
text is taken, and that only if it is not the one of the opening. -/
theorem still_step {s s' : EntryActivity} {ev : EntryEvent} {out : Option EntryOutput}
    (hev : ∀ text, ev ≠ .ui (.afterTextChanged text)) (htimer : s.saveTask = false)
    (heff : EntryEffect s ev s' out) :
    (s'.editText = s.editText ∧ s'.originalText = s.originalText ∧ s'.saveTask = false) ∧
      ∀ text, out = some (.takes text) → text = s.editText ∧ s.editText ≠ s.originalText := by
  cases heff with
  | change => exact absurd rfl (hev _)
  | take hset | skip hset =>
      rw [hset] at htimer
      cases htimer
  | finish | destroy => exact ⟨⟨rfl, rfl, rfl⟩, by simp⟩
  | close h hne horig =>
      refine ⟨⟨rfl, rfl, rfl⟩, fun text htext => ?_⟩
      obtain rfl : s.editText = text := by simpa using htext
      exact ⟨rfl, horig⟩
  | stored hex hack hkeeps | fails hex hack hkeeps | quiet hev hkeeps =>
      exact ⟨⟨hkeeps.editText, hkeeps.originalText, hkeeps.saveTask.trans htimer⟩, by simp⟩

theorem still_run {s : EntryActivity} (htimer : s.saveTask = false) (ks : List EntryEvent)
    (hks : ∀ ev ∈ ks, ∀ text, ev ≠ .ui (.afterTextChanged text)) :
    ∀ text ∈ takenTexts (trace entryStep s ks),
      text = s.editText ∧ s.editText ≠ s.originalText := by
  induction ks generalizing s with
  | nil => simp [takenTexts]
  | cons ev ks ih =>
      obtain ⟨⟨htext, horig, htimer'⟩, htakes⟩ := still_step (hks ev List.mem_cons_self) htimer
        (entryEffect_entryStep s ev)
      have hrest := ih htimer' fun ev hev => hks ev (List.mem_cons_of_mem _ hev)
      rw [htext, horig] at hrest
      intro text hmem
      rw [trace_cons, ← List.singleton_append, takenTexts_append] at hmem
      rcases List.mem_append.mp hmem with hmem | hmem
      · obtain ⟨p, hp, htaken⟩ := List.mem_filterMap.mp hmem
        obtain rfl := List.mem_singleton.mp hp
        generalize (entryStep s ev).2 = out at htakes htaken
        rcases out with - | text' | ack
        · cases htaken
        · exact htakes text (congrArg (fun t => some (EntryOutput.takes t))
            (Option.some.inj htaken))
        · cases htaken
      · exact hrest text hmem

/-- Closing takes the text unless it is the one of the opening. -/
theorem takes_of_saveAndClose {s : EntryActivity} (hok : Healthy s (.ui .saveAndClose))
    (hhere : s.destroyed = false) (hne : s.editText ≠ []) :
    (entryStep s (.ui .saveAndClose)).1.editText = s.editText ∧
      (entryStep s (.ui .saveAndClose)).1.originalText = s.originalText ∧
      (entryStep s (.ui .saveAndClose)).1.saveTask = false ∧
      (entryStep s (.ui .saveAndClose)).2
        = if s.editText = s.originalText then none else some (.takes s.editText) := by
  have hconn : s.conn = true := hok.connected (Or.inr ⟨rfl, hhere⟩)
  simp only [entryStep, uiStep, EntryActivity.saveAndClose, EntryActivity.closeOrSave, hhere,
    hconn, hne, false_or, Bool.false_eq_true, Bool.true_eq_false, if_false]
  split <;> exact ⟨rfl, rfl, rfl, rfl⟩

/-- **Closing.**  If nothing fails, and the text is not changed any more
after the activity was told to close, then with the executor drained the
server has last acknowledged that text iff it is not the text of the opening,
or the text taken last before closing was that one as well. -/
theorem closing_saves_iff (intent : Option DiaryEntry) (js ks : List EntryEvent) :
    let s₀ := EntryActivity.onCreate intent
    let run := js ++ .ui .saveAndClose :: ks
    let s := final entryStep s₀ js
    let s' := final entryStep s₀ run
    Throughout entryStep Healthy s₀ run → s.destroyed = false → s.editText ≠ [] →
      (∀ ev ∈ ks, ∀ text, ev ≠ .ui (.afterTextChanged text)) → s'.executor = [] →
      (lastAcknowledged intent s'.entryId (trace entryStep s₀ run) = some s.editText ↔
        s.editText ≠ s.originalText ∨
          lastTaken intent (trace entryStep s₀ js) = some s.editText) := by
  intro s₀ run s s' hrun hhere hne hks hdrained
  have hwaiting : s'.waiting = [] := by
    rw [EntryActivity.waiting, hdrained]
    rfl
  obtain ⟨-, hok, -⟩ := throughout_append.mp hrun
  obtain ⟨htext, horig, htimer, hout⟩ := takes_of_saveAndClose hok hhere hne
  have hafter := still_run htimer ks hks
  rw [htext, horig] at hafter
  rw [lastAcknowledged_of_drained hrun hwaiting,
    show run = js ++ ([.ui .saveAndClose] ++ ks) from rfl, trace_append, trace_append,
    lastTaken_append, takenTexts_append]
  show ((takenTexts [(.ui .saveAndClose, (entryStep s (.ui .saveAndClose)).2)] ++
    takenTexts (trace entryStep (entryStep s (.ui .saveAndClose)).1 ks)).getLast?.or _
      = _) ↔ _
  rw [hout]
  by_cases hsame : s.editText = s.originalText
  · -- nothing is taken any more
    have hnone : takenTexts (trace entryStep (entryStep s (.ui .saveAndClose)).1 ks) = [] :=
      List.eq_nil_iff_forall_not_mem.mpr fun text hmem => (hafter text hmem).2 hsame
    rw [hnone, if_pos hsame]
    show lastTaken intent (trace entryStep s₀ js) = some s.editText ↔ _
    exact ⟨Or.inr, fun h => h.resolve_left (not_not.mpr hsame)⟩
  · rw [if_neg hsame]
    refine iff_of_true ?_ (Or.inl hsame)
    rcases List.eq_nil_or_concat
      (takenTexts (trace entryStep (entryStep s (.ui .saveAndClose)).1 ks)) with hnil | ⟨ts, t, ht⟩
    · rw [hnil]
      rfl
    · rw [List.concat_eq_append] at ht
      have hlast := (hafter t (by rw [ht]; simp)).1
      rw [ht, ← List.append_assoc, List.getLast?_concat, hlast]
      rfl

/-- An entry is changed, saved by the timer, and changed again. -/
def editTwice (text text' : Bytes) : List EntryEvent :=
  [.runTask none, .ui (.afterTextChanged text), .ui .saveTask, .runTask (some [lit "OK"]),
    .ui (.afterTextChanged text')]

/-- Closing with a third text saves it. -/
theorem closing_saves_third :
    let s₀ := EntryActivity.onCreate (some ⟨5, 1, lit "a"⟩)
    let run := editTwice (lit "b") (lit "c") ++ [.ui .saveAndClose, .runTask (some [lit "OK"])]
    lastAcknowledged (some ⟨5, 1, lit "a"⟩) (final entryStep s₀ run).entryId
      (trace entryStep s₀ run) = some (lit "c") :=
  (closing_saves_iff (some ⟨5, 1, lit "a"⟩) (editTwice (lit "b") (lit "c"))
    [.runTask (some [lit "OK"])] (by decide) rfl (by decide) (by simp) rfl).mpr
      (Or.inl (by decide))

/-- Closing with the text of the opening does not. -/
theorem closing_loses_return :
    let s₀ := EntryActivity.onCreate (some ⟨5, 1, lit "a"⟩)
    let run := editTwice (lit "b") (lit "a") ++ [.ui .saveAndClose]
    let s := final entryStep s₀ run
    Throughout entryStep Healthy s₀ run ∧ s.finished = true ∧ s.executor = [] ∧
      s.editText = lit "a" ∧
      lastAcknowledged (some ⟨5, 1, lit "a"⟩) s.entryId (trace entryStep s₀ run)
        = some (lit "b") := by
  decide

/-! ### Autosave -/

/-- The timer is not set and no save waits or runs. -/
def EntryActivity.Quiescent (s : EntryActivity) : Prop := s.saveTask = false ∧ s.waiting = []

/-- Since the text was last changed, or the activity told to close, the timer
has gone off while a save was on its way, with a text other than the one
taken last. -/
def Missed (intent : Option DiaryEntry) (run : List EntryEvent) : Prop :=
  ∃ js ks, run = js ++ .ui .saveTask :: ks ∧
    (∀ ev ∈ ks, (∀ text, ev ≠ .ui (.afterTextChanged text)) ∧ ev ≠ .ui .saveAndClose) ∧
    let s := final entryStep (EntryActivity.onCreate intent) js
    s.saveTask = true ∧ s.saving = true ∧
      lastTaken intent (trace entryStep (EntryActivity.onCreate intent) js) ≠ some s.editText

/-- Whether a timer is missed after a step, `missed` telling whether one was
before, and `taken` the text taken last. -/
def MissedAfter (s : EntryActivity) (taken : Option Bytes) (missed : Prop) (ev : EntryEvent) :
    Prop :=
  (ev = .ui .saveTask ∧ s.saveTask = true ∧ s.saving = true ∧ taken ≠ some s.editText) ∨
    ((∀ text, ev ≠ .ui (.afterTextChanged text)) ∧ ev ≠ .ui .saveAndClose) ∧ missed

theorem missed_concat (intent : Option DiaryEntry) (run : List EntryEvent) (ev : EntryEvent) :
    Missed intent (run ++ [ev]) ↔
      MissedAfter (final entryStep (EntryActivity.onCreate intent) run)
        (lastTaken intent (trace entryStep (EntryActivity.onCreate intent) run))
        (Missed intent run) ev := by
  constructor
  · rintro ⟨js, ks, heq, hks, hmiss⟩
    rcases List.eq_nil_or_concat ks with rfl | ⟨ks, ev', rfl⟩
    · obtain ⟨rfl, hev⟩ := List.append_inj' heq rfl
      exact Or.inl ⟨List.singleton_inj.mp hev, hmiss⟩
    · rw [List.concat_eq_append] at heq hks
      obtain ⟨rfl, hev⟩ : run = js ++ .ui .saveTask :: ks ∧ [ev] = [ev'] := by
        refine List.append_inj' ?_ rfl
        rw [heq]
        simp
      obtain rfl := List.singleton_inj.mp hev
      exact Or.inr ⟨hks ev (by simp), js, ks, rfl,
        fun ev hev => hks ev (List.mem_append_left _ hev), hmiss⟩
  · rintro (⟨rfl, hmiss⟩ | ⟨hev, js, ks, rfl, hks, hmiss⟩)
    · exact ⟨run, [], rfl, by simp, hmiss⟩
    · refine ⟨js, ks ++ [ev], by simp, fun ev' hev' => ?_, hmiss⟩
      rcases List.mem_append.mp hev' with hev' | hev'
      · exact hks ev' hev'
      · rw [List.mem_singleton.mp hev']
        exact hev

/-- An open editor that waits for no timer has had its text taken unless a
timer was missed, and one with a timer set has missed none. -/
structure Watched (s : EntryActivity) (taken : Option Bytes) (missed : Prop) : Prop where
  unset : missed → s.saveTask = false
  taken : s.finished = false → s.destroyed = false → s.saveTask = false → s.editText ≠ [] →
    (taken = some s.editText ↔ ¬ missed)

section Watched

variable {s s' : EntryActivity} {taken : Option Bytes} {missed missed' : Prop}

theorem Watched.not_missed (h : Watched s taken missed) (hset : s.saveTask = true) :
    ¬ missed := by
  intro hmissed
  rw [h.unset hmissed] at hset
  cases hset

/-- A step that leaves the text and the timer alone. -/
theorem Watched.leavesText (h : Watched s taken missed) (hkeeps : LeavesText s s')
    (hdown : missed' → missed) (hup : s.destroyed = false → missed → missed') :
    Watched s' taken missed' := by
  refine ⟨fun hm => hkeeps.saveTask.trans (h.unset (hdown hm)),
    fun hfinished hhere htimer hne => ?_⟩
  rw [hkeeps.destroyed] at hhere
  rw [hkeeps.saveTask] at htimer
  rw [hkeeps.editText] at hne ⊢
  rw [h.taken (hkeeps.finished hfinished) hhere htimer hne]
  exact not_congr ⟨hup hhere, hdown⟩

/-- A step that takes the text. -/
theorem Watched.takes (htimer : s.saveTask = false) (hmissed : ¬ missed) :
    Watched s (some s.editText) missed :=
  ⟨fun _ => htimer, fun _ _ _ _ => iff_of_true rfl hmissed⟩

theorem watched_step {ev : EntryEvent} {out : Option EntryOutput} (h : Watched s taken missed)
    (hok : Healthy s ev) (heff : EntryEffect s ev s' out) :
    Watched s' (takenAfter taken out) (MissedAfter s taken missed ev) := by
  cases heff with
  | change hhere =>
      refine ⟨?_, fun _ _ hset _ => by cases hset⟩
      rintro (⟨hev, -⟩ | ⟨⟨hev, -⟩, -⟩)
      · cases hev
      · exact absurd rfl (hev _)
  | take htimer hsaving hne =>
      refine Watched.takes rfl ?_
      rintro (⟨-, -, hbusy, -⟩ | ⟨-, hm⟩)
      · rw [hsaving] at hbusy
        cases hbusy
      · exact h.not_missed htimer hm
  | skip htimer hskip =>
      -- with the connection there and a text, only `saving` makes `save` skip
      refine ⟨fun _ => rfl, fun _ _ _ hne => ?_⟩
      have hconn := hok.connected (Or.inl ⟨rfl, htimer⟩)
      have hbusy : s.saving = true := by
        rcases hskip with hno | hbusy | hempty
        · rw [hconn] at hno
          cases hno
        · exact hbusy
        · exact absurd hempty hne
      constructor
      · rintro heq (⟨-, -, -, hm⟩ | ⟨-, hm⟩)
        · exact hm heq
        · exact h.not_missed htimer hm
      · intro hm
        by_contra heq
        exact hm (Or.inl ⟨rfl, htimer, hbusy, heq⟩)
  | finish hhere hfinish =>
      exact ⟨fun _ => rfl, fun hfinished => by cases hfinished⟩
  | close hhere hne horig =>
      refine Watched.takes rfl ?_
      rintro (⟨hev, -⟩ | ⟨⟨-, hev⟩, -⟩)
      · cases hev
      · exact hev rfl
  | destroy hhere => exact ⟨fun _ => rfl, fun _ hgone => by cases hgone⟩
  | stored hex hack hkeeps | fails hex hack hkeeps =>
      refine h.leavesText hkeeps ?_ fun _ hm => Or.inr ⟨by simp, hm⟩
      rintro (⟨hev, -⟩ | ⟨-, hm⟩)
      · cases hev
      · exact hm
  | quiet hev hkeeps =>
      refine h.leavesText hkeeps ?_ fun hhere hm => Or.inr ⟨?_, hm⟩
      · rintro (⟨rfl, hset, -⟩ | ⟨-, hm⟩)
        · rcases hev with ⟨-, hne⟩ | ⟨-, hunset⟩ | hev | ⟨reply, hev⟩
          · exact absurd rfl hne
          · rw [hset] at hunset
            cases hunset
          · cases hev
          · cases hev
        · exact hm
      · rcases hev with ⟨hgone, -⟩ | ⟨rfl, -⟩ | rfl | ⟨reply, rfl⟩
        · rw [hhere] at hgone
          cases hgone
        all_goals simp

end Watched

theorem watched_run (intent : Option DiaryEntry) (run : List EntryEvent)
    (hrun : Throughout entryStep Healthy (EntryActivity.onCreate intent) run) :
    Watched (final entryStep (EntryActivity.onCreate intent) run)
      (lastTaken intent (trace entryStep (EntryActivity.onCreate intent) run))
      (Missed intent run) := by
  refine throughout_induction
    (P := fun run => Watched (final entryStep (EntryActivity.onCreate intent) run)
      (lastTaken intent (trace entryStep (EntryActivity.onCreate intent) run))
      (Missed intent run)) ?_ ?_ run hrun
  · have hnone : ¬ Missed intent [] := by
      rintro ⟨js, ks, h, -⟩
      simp at h
    refine ⟨fun hm => absurd hm hnone, fun _ _ _ hne => iff_of_true ?_ hnone⟩
    cases intent with
    | none => exact absurd rfl hne
    | some e => rfl
  · intro run ev hok ih
    rw [final_concat, trace_concat, lastTaken_concat, propext (missed_concat intent run ev)]
    exact watched_step ih hok (entryEffect_entryStep _ ev)

/-- **Autosave.**  If nothing fails, then in an open editor that rests, with
a text that is not empty, the server has last acknowledged that text iff no
timer was missed. -/
theorem autosave_converges_iff (intent : Option DiaryEntry) (run : List EntryEvent) :
    let s₀ := EntryActivity.onCreate intent
    let s := final entryStep s₀ run
    Throughout entryStep Healthy s₀ run → s.finished = false → s.destroyed = false →
      s.Quiescent → s.editText ≠ [] →
      (lastAcknowledged intent s.entryId (trace entryStep s₀ run) = some s.editText ↔
        ¬ Missed intent run) := by
  intro s₀ s hrun hopen hhere hrest hne
  rw [lastAcknowledged_of_drained hrun hrest.2]
  exact (watched_run intent run hrun).taken hopen hhere hrest.1 hne

/-- A text that is typed in one go is saved. -/
theorem autosave_converges_once :
    let s₀ := EntryActivity.onCreate none
    let run : List EntryEvent := [.runTask none, .ui (.afterTextChanged (lit "a")), .ui .saveTask,
      .runTask (some [lit "OK 7"])]
    lastAcknowledged none (final entryStep s₀ run).entryId (trace entryStep s₀ run)
      = some (lit "a") := by
  intro s₀ run
  refine (autosave_converges_iff none run (by decide) rfl rfl ⟨rfl, rfl⟩ (by decide)).mpr ?_
  -- the timer goes off once, with no save on its way
  rintro ⟨js, ks, heq, -, -, hsaving, -⟩
  rcases js with - | ⟨ev₁, - | ⟨ev₂, - | ⟨ev₃, - | ⟨ev₄, js⟩⟩⟩⟩ <;> simp [run] at heq
  obtain ⟨rfl, rfl, -⟩ := heq
  cases hsaving

/-- A text that is completed while its first letter is being saved is
not. -/
theorem timer_missed :
    let s₀ := EntryActivity.onCreate none
    let run : List EntryEvent := [.runTask none, .ui (.afterTextChanged (lit "a")), .ui .saveTask,
      .ui (.afterTextChanged (lit "ab")), .ui .saveTask, .runTask (some [lit "OK 7"]),
      .ui .runPosted, .ui .runPosted]
    let s := final entryStep s₀ run
    Throughout entryStep Healthy s₀ run ∧ s.finished = false ∧ s.destroyed = false ∧
      s.saveTask = false ∧ s.waiting = [] ∧ s.executor = [] ∧ s.looper = [] ∧
      s.editText = lit "ab" ∧
      lastAcknowledged none s.entryId (trace entryStep s₀ run) = some (lit "a") := by
  decide

end Diary
