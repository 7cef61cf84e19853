/-
Diary/Setup.lean

SetupActivity.java, and what MainActivity.java does with the preferences it
stores: the app from its installation on, over any order of launches, forms
filled in, key files picked, rotations and saves.

An exception no one catches ends the process (`App.crashed`).  Nothing looks
at the port but `Integer.parseInt` in `connectAndLoad`, and nothing looks at
the length of a key but the native code; what `parseInt` accepts is left
open.

* `connects_to_last_save`: a launch connects to the host and port of the
  last save, with the very bytes of the key files it held.
* `port_locks_out_iff`: the app can be opened after a save exactly if the
  port stored is a number; if not, every launch crashes before the settings
  can be reached, for good.
-/
import Diary.ClientOrder
import Diary.Crypto
import Diary.Machine

namespace Diary

open CString CodeText Machine

/-! ### The preferences -/

/-- `diary_prefs`; `none` is a key that is not there. -/
structure Prefs where
  host : Option (List UInt16)
  port : Option (List UInt16)
  authSk : Option Bytes
  encSk : Option Bytes
  backupEnabled : Option Bool
  backupUri : Option (List UInt16)
deriving DecidableEq

def Prefs.fresh : Prefs := ⟨none, none, none, none, none, none⟩

/-- `prefs.getString(KEY_PORT, "4242")`. -/
def Prefs.portString (p : Prefs) : List UInt16 := p.port.getD (encode utf16 "4242".toList)

/-- Where a launch connects to. -/
structure Target where
  host : List UInt16
  port : Int32
  authSk : Bytes
  encSk : Bytes
deriving DecidableEq

/-- What `connectAndLoad` does in `onCreate`. -/
inductive Startup
  | crash
  | setup
  | connect (t : Target)
deriving DecidableEq

/-- `MainActivity.connectAndLoad`, up to the connection it leaves to the
executor. -/
def connectAndLoad (parse : List UInt16 → Option Int32) (p : Prefs) : Startup :=
  match parse p.portString with
  | none => .crash
  | some port =>
      match p.host, p.authSk, p.encSk with
      | some host, some authB64, some encB64 =>
          match decodeBase64 authB64, decodeBase64 encB64 with
          | some authSk, some encSk => .connect ⟨host, port, authSk, encSk⟩
          | _, _ => .crash
      | _, _, _ => .setup

/-! ### The form -/

/-- Which file `pickFile` asked for (`REQ_AUTH_KEY`, `REQ_ENC_KEY`). -/
inductive KeyFile
  | auth
  | enc
deriving DecidableEq

/-- The fields of `SetupActivity`: the texts of the two edits, the switch, and
the keys loaded. -/
structure SetupForm where
  hostEdit : List UInt16
  portEdit : List UInt16
  backupSwitch : Bool
  authSkBytes : Option Bytes
  encSkBytes : Option Bytes
deriving DecidableEq

/-- `onCreate`. -/
def SetupForm.created (p : Prefs) : SetupForm where
  hostEdit := p.host.getD []
  portEdit := p.portString
  backupSwitch := p.backupEnabled.getD false
  authSkBytes := none
  encSkBytes := none

/-- A rotation: the views restore what they showed, the fields are new. -/
def SetupForm.recreated (f : SetupForm) : SetupForm :=
  { f with authSkBytes := none, encSkBytes := none }

/-- `String.trim`. -/
def javaTrim (s : List UInt16) : List UInt16 :=
  ((s.dropWhile (· ≤ 32)).reverse.dropWhile (· ≤ 32)).reverse

/-- The key in a file, as `onActivityResult` reads it; `none` is "bad
base-64". -/
def keyInFile (bytes : Bytes) : Option Bytes := decodeBase64 (getBytes (javaTrim (newString bytes)))

def SetupForm.load (f : SetupForm) (key : Bytes) : KeyFile → SetupForm
  | .auth => { f with authSkBytes := some key }
  | .enc => { f with encSkBytes := some key }

/-- What a save stores of the form. -/
structure Saved where
  host : List UInt16
  port : List UInt16
  authSk : Bytes
  encSk : Bytes
  backup : Bool
deriving DecidableEq

/-- The test in `save`; `none` is "Fill in all fields and load both key
files". -/
def SetupForm.saved (f : SetupForm) : Option Saved :=
  let host := javaTrim f.hostEdit
  let port := javaTrim f.portEdit
  if host = [] ∨ port = [] then none
  else
    match f.authSkBytes, f.encSkBytes with
    | some authSk, some encSk => some ⟨host, port, authSk, encSk, f.backupSwitch⟩
    | _, _ => none

/-- The editor of `save`, applied. -/
def Prefs.store (p : Prefs) (s : Saved) : Prefs :=
  { p with
    host := some s.host
    port := some s.port
    authSk := some (encodeBase64 s.authSk)
    encSk := some (encodeBase64 s.encSk)
    backupEnabled := some s.backup }

/-! ### The app -/

/-- An activity; a `MainActivity` with what it connects to. -/
inductive Activity
  | main (t : Option Target)
  | setup (f : SetupForm)
deriving DecidableEq

/-- The preferences and the activities of the task, the one in front first;
none if the process does not run. -/
structure App where
  prefs : Prefs
  stack : List Activity
deriving DecidableEq

inductive AppEvent
  | launch
  /-- `btn_settings` -/
  | settings
  | back
  | rotate
  /-- a GET fails, and `loadEntries` connects anew -/
  | reconnect
  /-- the edits and the switch, as the user leaves them -/
  | edit (host port : List UInt16) (backup : Bool)
  /-- a key file; `none` is an `IOException` -/
  | pick (file : KeyFile) (bytes : Option Bytes)
  | pickBackupDir (uri : List UInt16)
  | save
deriving DecidableEq

def App.installed : App := ⟨Prefs.fresh, []⟩

/-- An uncaught exception. -/
def App.crashed (s : App) : App := { s with stack := [] }

variable (parse : List UInt16 → Option Int32)

/-- `MainActivity` is created, over other activities. -/
def App.openMain (below : List Activity) (s : App) : App :=
  match connectAndLoad parse s.prefs with
  | .crash => s.crashed
  | .setup => { s with stack := .setup (SetupForm.created s.prefs) :: .main none :: below }
  | .connect t => { s with stack := .main (some t) :: below }

/-- An event the form in front handles. -/
def App.onForm (below : List Activity) (f : SetupForm) (s : App) : AppEvent → App × Option Saved
  | .rotate => ({ s with stack := .setup f.recreated :: below }, none)
  | .edit host port backup =>
      ({ s with stack :=
          .setup { f with hostEdit := host, portEdit := port, backupSwitch := backup } :: below },
        none)
  | .pick file (some bytes) =>
      match keyInFile bytes with
      | some key => ({ s with stack := .setup (f.load key file) :: below }, none)
      | none => (s.crashed, none)
  | .pickBackupDir uri => ({ s with prefs := { s.prefs with backupUri := some uri } }, none)
  | .save =>
      match f.saved with
      | some saved => (App.openMain parse below { s with prefs := s.prefs.store saved }, some saved)
      | none => (s, none)
  | .back => ({ s with stack := below }, none)
  | .launch | .settings | .reconnect | .pick _ none => (s, none)

/-- One event, and what it saves. -/
def appStep (s : App) (ev : AppEvent) : App × Option Saved :=
  match s.stack with
  | [] => (if ev = .launch then s.openMain parse [] else s, none)
  | .setup f :: below => s.onForm parse below f ev
  | .main t :: below =>
      match ev with
      | .settings =>
          ({ s with stack := .setup (SetupForm.created s.prefs) :: .main t :: below }, none)
      | .rotate => (s.openMain parse below, none)
      | .reconnect => (if t.isSome then s.openMain parse below else s, none)
      | .back => ({ s with stack := below }, none)
      | .launch | .edit _ _ _ | .pick _ _ | .pickBackupDir _ | .save => (s, none)

/-! ### What the preferences hold -/

/-- The preferences are what the last save stored. -/
def Prefs.Holds (p : Prefs) : Option Saved → Prop
  | none => p.host = none ∧ p.port = none ∧ p.authSk = none ∧ p.encSk = none
  | some s =>
      p.host = some s.host ∧ p.port = some s.port ∧ p.authSk = some (encodeBase64 s.authSk) ∧
        p.encSk = some (encodeBase64 s.encSk)

variable {parse}

/-- A launch with nothing saved opens the settings. -/
theorem connectAndLoad_of_none {p : Prefs} (h : p.Holds none)
    (hdefault : (parse (encode utf16 "4242".toList)).isSome = true) :
    connectAndLoad parse p = .setup := by
  obtain ⟨hhost, hport, -, -⟩ := h
  obtain ⟨port, hparse⟩ := Option.isSome_iff_exists.mp hdefault
  rw [connectAndLoad, Prefs.portString, hport, Option.getD_none, hparse, hhost]

/-- A launch after a save: the keys come back as they were, and only the port
can fail. -/
theorem connectAndLoad_of_some (parse : List UInt16 → Option Int32) {p : Prefs} {saved : Saved}
    (h : p.Holds (some saved)) :
    connectAndLoad parse p
      = match parse saved.port with
        | none => .crash
        | some port => .connect ⟨saved.host, port, saved.authSk, saved.encSk⟩ := by
  obtain ⟨hhost, hport, hauth, henc⟩ := h
  rw [connectAndLoad, Prefs.portString, hport, Option.getD_some, hhost, hauth, henc]
  cases parse saved.port with
  | none => rfl
  | some port => simp only [decodeBase64_encodeBase64]

theorem openMain_prefs (below : List Activity) (s : App) :
    (s.openMain parse below).prefs = s.prefs := by
  rw [App.openMain]
  split <;> rfl

/-- The only new form is an empty one. -/
theorem forms_openMain {below : List Activity} {s : App} {f : SetupForm}
    (h : Activity.setup f ∈ (s.openMain parse below).stack) :
    Activity.setup f ∈ below ∨ f.authSkBytes = none ∧ f.encSkBytes = none := by
  rw [App.openMain] at h
  split at h
  · cases h
  · rcases List.mem_cons.mp h with hf | h
    · obtain rfl : f = _ := Activity.setup.inj hf
      exact Or.inr ⟨rfl, rfl⟩
    · rcases List.mem_cons.mp h with hf | h
      · cases hf
      · exact Or.inl h
  · rcases List.mem_cons.mp h with hf | h
    · cases hf
    · exact Or.inl h

/-! ### What was saved, and from where -/

/-- The last save of a run. -/
def lastSaved (tr : List (AppEvent × Option Saved)) : Option Saved :=
  (tr.filterMap Prod.snd).getLast?

/-- The key is in a file picked for it. -/
def Picked (tr : List (AppEvent × Option Saved)) (file : KeyFile) (key : Bytes) : Prop :=
  ∃ bytes, AppEvent.pick file (some bytes) ∈ tr.map Prod.fst ∧ keyInFile bytes = some key

def KeysPicked (tr : List (AppEvent × Option Saved)) (f : SetupForm) : Prop :=
  (∀ key, f.authSkBytes = some key → Picked tr .auth key) ∧
    ∀ key, f.encSkBytes = some key → Picked tr .enc key

theorem lastSaved_none (tr : List (AppEvent × Option Saved)) (ev : AppEvent) :
    lastSaved (tr ++ [(ev, none)]) = lastSaved tr := by
  simp [lastSaved]

theorem lastSaved_some (tr : List (AppEvent × Option Saved)) (ev : AppEvent) (saved : Saved) :
    lastSaved (tr ++ [(ev, some saved)]) = some saved := by
  simp [lastSaved]

theorem Picked.append {tr : List (AppEvent × Option Saved)} {file : KeyFile} {key : Bytes}
    (h : Picked tr file key) (p : AppEvent × Option Saved) : Picked (tr ++ [p]) file key := by
  obtain ⟨bytes, hmem, hkey⟩ := h
  exact ⟨bytes, by rw [List.map_append]; exact List.mem_append_left _ hmem, hkey⟩

theorem KeysPicked.append {tr : List (AppEvent × Option Saved)} {f : SetupForm}
    (h : KeysPicked tr f) (p : AppEvent × Option Saved) : KeysPicked (tr ++ [p]) f :=
  ⟨fun key hkey => (h.1 key hkey).append p, fun key hkey => (h.2 key hkey).append p⟩

theorem keysPicked_of_none (tr : List (AppEvent × Option Saved)) {f : SetupForm}
    (h : f.authSkBytes = none ∧ f.encSkBytes = none) : KeysPicked tr f := by
  constructor
  · intro key hkey
    rw [h.1] at hkey
    cases hkey
  · intro key hkey
    rw [h.2] at hkey
    cases hkey

/-- What holds of the app after a history. -/
structure AppInv (s : App) (tr : List (AppEvent × Option Saved)) : Prop where
  holds : s.prefs.Holds (lastSaved tr)
  forms : ∀ f, Activity.setup f ∈ s.stack → KeysPicked tr f
  saved : ∀ saved, lastSaved tr = some saved →
    Picked tr .auth saved.authSk ∧ Picked tr .enc saved.encSk

/-- An event that saves nothing. -/
theorem AppInv.quiet {s s' : App} {tr : List (AppEvent × Option Saved)} (h : AppInv s tr)
    (ev : AppEvent) (hprefs : ∀ m, s.prefs.Holds m → s'.prefs.Holds m)
    (hforms : ∀ f, Activity.setup f ∈ s'.stack →
      Activity.setup f ∈ s.stack ∨ KeysPicked (tr ++ [(ev, none)]) f) :
    AppInv s' (tr ++ [(ev, none)]) where
  holds := by
    rw [lastSaved_none]
    exact hprefs _ h.holds
  forms f hf := by
    rcases hforms f hf with hold | hnew
    · exact (h.forms f hold).append _
    · exact hnew
  saved saved hsaved := by
    rw [lastSaved_none] at hsaved
    obtain ⟨hauth, henc⟩ := h.saved saved hsaved
    exact ⟨hauth.append _, henc.append _⟩

/-- `MainActivity` is created. -/
theorem AppInv.openMain {s : App} {tr : List (AppEvent × Option Saved)} (h : AppInv s tr)
    (ev : AppEvent) {below : List Activity} (hbelow : ∀ a ∈ below, a ∈ s.stack) :
    AppInv (s.openMain parse below) (tr ++ [(ev, none)]) := by
  refine h.quiet ev (fun m hm => by rw [openMain_prefs]; exact hm) fun f hf => ?_
  rcases forms_openMain hf with hold | hnone
  · exact Or.inl (hbelow _ hold)
  · exact Or.inr (keysPicked_of_none _ hnone)

theorem saved_eq_some {f : SetupForm} {saved : Saved} (h : f.saved = some saved) :
    saved.host ≠ [] ∧ saved.port ≠ [] ∧ f.authSkBytes = some saved.authSk ∧
      f.encSkBytes = some saved.encSk := by
  rw [SetupForm.saved] at h
  split at h
  · cases h
  · next hne =>
      split at h
      · next authSk encSk hauth henc =>
          obtain rfl := Option.some.inj h
          exact ⟨fun hnil => hne (Or.inl hnil), fun hnil => hne (Or.inr hnil), hauth, henc⟩
      · cases h

theorem keysPicked_load {tr : List (AppEvent × Option Saved)} {f : SetupForm}
    (h : KeysPicked tr f) {bytes key : Bytes} (hkey : keyInFile bytes = some key)
    (file : KeyFile) :
    KeysPicked (tr ++ [(AppEvent.pick file (some bytes), none)]) (f.load key file) := by
  have hpicked : Picked (tr ++ [(AppEvent.pick file (some bytes), none)]) file key :=
    ⟨bytes, by simp, hkey⟩
  have hold := h.append (AppEvent.pick file (some bytes), none)
  cases file with
  | auth =>
      refine ⟨fun k hk => ?_, hold.2⟩
      obtain rfl : key = k := Option.some.inj hk
      exact hpicked
  | enc =>
      refine ⟨hold.1, fun k hk => ?_⟩
      obtain rfl : key = k := Option.some.inj hk
      exact hpicked

theorem appInv_onForm {prefs : Prefs} {f : SetupForm} {below : List Activity}
    {tr : List (AppEvent × Option Saved)} (h : AppInv ⟨prefs, .setup f :: below⟩ tr)
    (ev : AppEvent) :
    AppInv (App.onForm parse below f ⟨prefs, .setup f :: below⟩ ev).1
      (tr ++ [(ev, (App.onForm parse below f ⟨prefs, .setup f :: below⟩ ev).2)]) := by
  have hform : KeysPicked tr f := h.forms f List.mem_cons_self
  have hbelow : ∀ a ∈ below, a ∈ Activity.setup f :: below := fun a => List.mem_cons_of_mem _
  -- the form in front is another one, with the keys it may have
  have hforms : ∀ {f' : SetupForm} {ev}, KeysPicked (tr ++ [(ev, none)]) f' →
      ∀ g, Activity.setup g ∈ Activity.setup f' :: below →
        Activity.setup g ∈ Activity.setup f :: below ∨ KeysPicked (tr ++ [(ev, none)]) g := by
    intro f' ev hf' g hg
    rcases List.mem_cons.mp hg with hg | hg
    · obtain rfl := Activity.setup.inj hg
      exact Or.inr hf'
    · exact Or.inl (hbelow _ hg)
  cases ev with
  | launch | settings | reconnect => exact h.quiet _ (fun _ => id) fun _ => Or.inl
  | back => exact h.quiet _ (fun _ => id) fun _ hg => Or.inl (hbelow _ hg)
  | rotate => exact h.quiet _ (fun _ => id) (hforms (keysPicked_of_none _ ⟨rfl, rfl⟩))
  | edit host port backup => exact h.quiet _ (fun _ => id) (hforms (hform.append _))
  | pickBackupDir uri => exact h.quiet _ (fun m hm => by cases m <;> exact hm) fun _ => Or.inl
  | pick file bytes =>
      rcases bytes with - | bytes
      · exact h.quiet _ (fun _ => id) fun _ => Or.inl
      rw [App.onForm]
      split
      · next key hkey => exact h.quiet _ (fun _ => id) (hforms (keysPicked_load hform hkey file))
      · exact h.quiet _ (fun _ => id) fun _ hg => by cases hg
  | save =>
      rw [App.onForm]
      split
      · next saved hsaved =>
          obtain ⟨-, -, hauth, henc⟩ := saved_eq_some hsaved
          refine ⟨?_, fun g hg => ?_, fun saved' hsaved' => ?_⟩
          · rw [openMain_prefs, lastSaved_some]
            exact ⟨rfl, rfl, rfl, rfl⟩
          · rcases forms_openMain hg with hold | hnone
            · exact (h.forms g (hbelow _ hold)).append _
            · exact keysPicked_of_none _ hnone
          · rw [lastSaved_some] at hsaved'
            obtain rfl := Option.some.inj hsaved'
            exact ⟨(hform.1 _ hauth).append _, (hform.2 _ henc).append _⟩
      · exact h.quiet _ (fun _ => id) fun _ => Or.inl

/-- **Step lemma of the app.** -/
theorem appInv_step {s : App} {tr : List (AppEvent × Option Saved)} (h : AppInv s tr)
    (ev : AppEvent) : AppInv (appStep parse s ev).1 (tr ++ [(ev, (appStep parse s ev).2)]) := by
  obtain ⟨prefs, stack⟩ := s
  rcases stack with - | ⟨t | f, below⟩
  · show AppInv (if ev = .launch then App.openMain parse [] ⟨prefs, []⟩ else ⟨prefs, []⟩) _
    split
    · exact h.openMain ev fun a ha => ha
    · exact h.quiet ev (fun _ => id) fun _ => Or.inl
  · have hbelow : ∀ a ∈ below, a ∈ Activity.main t :: below := fun a => List.mem_cons_of_mem _
    cases ev with
    | launch | edit | pick | pickBackupDir | save =>
        exact h.quiet _ (fun _ => id) fun _ => Or.inl
    | back => exact h.quiet _ (fun _ => id) fun _ hg => Or.inl (hbelow _ hg)
    | rotate => exact h.openMain _ hbelow
    | reconnect =>
        show AppInv (if t.isSome then App.openMain parse below ⟨prefs, .main t :: below⟩
          else ⟨prefs, .main t :: below⟩) _
        split
        · exact h.openMain _ hbelow
        · exact h.quiet _ (fun _ => id) fun _ => Or.inl
    | settings =>
        refine h.quiet _ (fun _ => id) fun g hg => ?_
        -- a settings screen just opened has no keys picked
        rcases List.mem_cons.mp hg with hg | hg
        · obtain rfl := Activity.setup.inj hg
          exact Or.inr (keysPicked_of_none _ ⟨rfl, rfl⟩)
        · exact Or.inl hg
  · exact appInv_onForm h ev

/-! ### Whole lives of the app -/

theorem appInv_final (run : List AppEvent) :
    AppInv (final (appStep parse) App.installed run)
      (trace (appStep parse) App.installed run) := by
  have hinstalled : AppInv App.installed [] := by
    refine ⟨⟨rfl, rfl, rfl, rfl⟩, fun f hf => ?_, fun saved hsaved => ?_⟩
    · cases hf
    · cases hsaved
  exact history (R := AppInv) (fun _ _ ev h => appInv_step h ev) hinstalled run

/-- **A launch connects to the last save.**  After any run from the
installation on, a launch opens the settings if nothing was saved.  If
something was, it crashes on a port that is no number and else connects to
the host and port saved, with keys that are byte for byte those of files
picked for them; the native code, which gets them next, stays inside its
arrays exactly if the two files held 64 and 32 bytes at least. -/
theorem connects_to_last_save (parse : List UInt16 → Option Int32)
    (hdefault : (parse (encode utf16 "4242".toList)).isSome = true) {ν : Type*} {S : Sodium ν}
    (hS : S.Lawful) (run : List AppEvent) :
    let s := final (appStep parse) App.installed run
    let tr := trace (appStep parse) App.installed run
    (lastSaved tr = none → connectAndLoad parse s.prefs = .setup) ∧
    ∀ saved, lastSaved tr = some saved →
      (connectAndLoad parse s.prefs
        = match parse saved.port with
          | none => .crash
          | some port => .connect ⟨saved.host, port, saved.authSk, saved.encSk⟩) ∧
      Picked tr .auth saved.authSk ∧ Picked tr .enc saved.encSk ∧
      ((ConnectionKeys.construct S saved.authSk saved.encSk).isSome ↔
        64 ≤ saved.authSk.length ∧ 32 ≤ saved.encSk.length) := by
  intro s tr
  have hinv : AppInv s tr := appInv_final run
  have hholds := hinv.holds
  constructor
  · intro hnone
    rw [hnone] at hholds
    exact connectAndLoad_of_none hholds hdefault
  · intro saved hsaved
    rw [hsaved] at hholds
    obtain ⟨hauth, henc⟩ := hinv.saved saved hsaved
    exact ⟨connectAndLoad_of_some parse hholds, hauth, henc, construct_isSome_iff hS⟩

/-- Two files of one byte each: the keys are stored, and nothing notices
before the native code reads past their ends. -/
theorem connects_with_short_keys :
    let parse (s : List UInt16) := parseInt (getBytes s)
    let key (file : KeyFile) : AppEvent := .pick file (some (lit "QQ=="))
    let run : List AppEvent := [.launch, .edit (encode utf16 "host".toList)
      (encode utf16 " 4243".toList) false, key .auth, key .enc, .save, .back, .back, .launch]
    connectAndLoad parse (final (appStep parse) App.installed run).prefs
        = .connect ⟨encode utf16 "host".toList, 4243, [65], [65]⟩ ∧
      (ConnectionKeys.construct openBoxes [65] [65]).isSome = false := by
  intro parse key run
  have hlaunch := (connects_to_last_save parse (by decide +kernel) openBoxes_lawful run).2
    ⟨encode utf16 "host".toList, encode utf16 "4243".toList, [65], [65], false⟩
    (by decide +kernel)
  obtain ⟨hconnect, -, -, hinside⟩ := hlaunch
  refine ⟨hconnect.trans (by decide +kernel), ?_⟩
  rw [Bool.eq_false_iff, Ne, hinside]
  decide

/-- A process that does not run, and would crash if launched, stays so. -/
theorem stopped_final {p : Prefs} (h : connectAndLoad parse p = .crash) (run : List AppEvent) :
    final (appStep parse) ⟨p, []⟩ run = ⟨p, []⟩ := by
  refine final_invariant (I := fun s : App => s = ⟨p, []⟩) ?_ rfl run
  rintro s ev rfl
  show (if ev = .launch then App.openMain parse [] ⟨p, []⟩ else ⟨p, []⟩) = _
  rw [App.openMain, h, App.crashed, ite_self]

/-- **The port locks out.**  A save of the form ends in an app that is
stopped, whatever is done next, and with the preferences saved, exactly if
the port saved is no number. -/
theorem port_locks_out_iff (parse : List UInt16 → Option Int32) (s : App) (saved : Saved)
    (hsave : (appStep parse s .save).2 = some saved) :
    (∀ next, final (appStep parse) s (.save :: next) = ⟨s.prefs.store saved, []⟩) ↔
      parse saved.port = none := by
  obtain ⟨prefs, stack⟩ := s
  rcases stack with - | ⟨t | f, below⟩
  · cases hsave
  · cases hsave
  -- only the settings screen saves, and it saves its own fields
  have hform : f.saved = some saved := by
    change (App.onForm parse below f ⟨prefs, .setup f :: below⟩ .save).2 = some saved at hsave
    rw [App.onForm] at hsave
    split at hsave
    · next hsaved => exact hsaved.trans hsave
    · cases hsave
  -- it then opens the list, which connects
  have hstep : (appStep parse ⟨prefs, .setup f :: below⟩ .save).1
      = App.openMain parse below ⟨prefs.store saved, .setup f :: below⟩ := by
    show (App.onForm parse below f _ .save).1 = _
    rw [App.onForm, hform]
  have hholds : (prefs.store saved).Holds (some saved) := ⟨rfl, rfl, rfl, rfl⟩
  have hload := connectAndLoad_of_some parse hholds
  simp only [final_cons, hstep]
  cases hport : parse saved.port with
  | none =>
      rw [hport] at hload
      refine iff_of_true (fun next => ?_) rfl
      rw [App.openMain, hload, App.crashed]
      exact stopped_final hload next
  | some port =>
      rw [hport] at hload
      refine iff_of_false (fun hstopped => ?_) (Option.some_ne_none port)
      -- the screen of the list is there, so the app has not stopped
      have hnow := congrArg App.stack (hstopped [])
      rw [App.openMain, hload] at hnow
      cases hnow

theorem port_locks_out_long :
    let parse (s : List UInt16) := parseInt (getBytes s)
    let form : SetupForm := ⟨encode utf16 "host".toList, encode utf16 "99999999999".toList, false,
      some [65], some [65]⟩
    let saved : Saved := ⟨form.hostEdit, form.portEdit, [65], [65], false⟩
    ∀ next, final (appStep parse) ⟨Prefs.fresh, [.setup form, .main none]⟩ (.save :: next)
      = ⟨Prefs.fresh.store saved, []⟩ := by
  intro parse form saved
  exact (port_locks_out_iff parse ⟨Prefs.fresh, [.setup form, .main none]⟩ saved
    (by decide +kernel)).mpr (by decide +kernel)

end Diary
