/-
Diary/Stdin.lean

client/main.c: `read_stdin` and the mode `--post` of `main`.

The loop of `read_stdin` is a machine over calls of `fread`.  The input is
what `fread` has not delivered yet, and every call delivers as much of it as
is chosen for that call, at least one byte and at most what is asked for.
An access outside the block is the state `undefined`.

* `read_stdin_exact`: the loop never gets there, never asks for nothing, and
  ends with the whole input and its NUL in the block.
* `post_stores_input_iff`: the text then passes as a C string, so what
  `--post` stores is the input exactly if it has no NUL in it.
-/
import Diary.Memory
import Diary.Session

namespace Diary

open CString Machine Memory

/-! ### The loop of `read_stdin` -/

/-- The variables of `read_stdin`. -/
structure StdinBuf where
  buf : Block UInt8
  cap : ℕ
  len : ℕ
deriving DecidableEq

/-- Where `read_stdin` is; the loop is at its test, with the rest of the
input. -/
inductive ReadStdin
  | reading (b : StdinBuf) (stdin : Bytes)
  | ended (b : StdinBuf)
  | noMemory
  | undefined
deriving DecidableEq

/-- What is left open in one round: how many bytes more than one `fread`
delivers if it can, and whether `realloc` succeeds. -/
structure ReadRound where
  more : ℕ
  realloc : Bool

/-- A call of `fread`: what it is asked for and what it delivers. -/
structure FreadCall where
  asked : ℕ
  chunk : Bytes

/-- `fread` delivers between one byte and all that is asked for, and nothing
only at the end of the input. -/
def fread (asked more : ℕ) (stdin : Bytes) : Bytes := stdin.take (min asked (more + 1))

/-- The body of the loop, behind an `fread` that delivered something. -/
def readBody (b : StdinBuf) (realloc : Bool) (chunk stdin : Bytes) : ReadStdin :=
  match b.buf.write b.len chunk with
  | none => .undefined
  | some buf =>
      let len := b.len + chunk.length
      if len = b.cap then
        if realloc then .reading ⟨buf.realloc (2 * b.cap), 2 * b.cap, len⟩ stdin else .noMemory
      else .reading ⟨buf, b.cap, len⟩ stdin

/-- One round: the test of the loop, which calls `fread`, and its body. -/
def readStep (s : ReadStdin) (r : ReadRound) : ReadStdin × Option FreadCall :=
  match s with
  | .reading b stdin =>
      if b.cap < b.len then (.undefined, none)
      else
        let chunk := fread (b.cap - b.len) r.more stdin
        (if chunk = [] then .ended b
          else readBody b r.realloc chunk (stdin.drop chunk.length), some ⟨b.cap - b.len, chunk⟩)
  | s => (s, none)

/-- `read_stdin` before its loop. -/
def ReadStdin.opened (malloc : Bool) (stdin : Bytes) : ReadStdin :=
  if malloc then .reading ⟨Block.malloc 4096, 4096, 0⟩ stdin else .noMemory

/-- `buf[len] = '\0'; return buf;`. -/
def StdinBuf.terminated (b : StdinBuf) : Option (Block UInt8) := b.buf.store b.len 0

/-- A round in which `realloc` succeeds, if it is called. -/
def granted (more : ℕ) : ReadRound := ⟨more, true⟩

/-! ### What the loop keeps -/

/-- The block holds what was read of `input`, there is room behind it, and
`cap` is its size. -/
structure StdinInv (input : Bytes) (b : StdinBuf) (stdin : Bytes) : Prop where
  room : b.len < b.cap
  size : b.buf.size = b.cap
  holds : ∃ s, Holds b.buf s ∧ s.length = b.len ∧ s ++ stdin = input

/-- The loop is sound where it is: it has read a part of the input, or all of
it. -/
def ReadStdin.Sound (input : Bytes) : ReadStdin → Prop
  | .reading b stdin => StdinInv input b stdin
  | .ended b => StdinInv input b []
  | .noMemory => False
  | .undefined => False

theorem fread_ne_nil {asked : ℕ} (more : ℕ) {stdin : Bytes} (h : 0 < asked) (hne : stdin ≠ []) :
    fread asked more stdin ≠ [] := by
  intro hnil
  rcases List.take_eq_nil_iff.mp hnil with hzero | hnil
  · omega
  · exact hne hnil

@[simp] theorem fread_nil (asked more : ℕ) : fread asked more [] = [] := List.take_nil

theorem fread_append (asked more : ℕ) (stdin : Bytes) :
    fread asked more stdin ++ stdin.drop (fread asked more stdin).length = stdin := by
  have hprefix : fread asked more stdin <+: stdin := List.take_prefix _ _
  obtain ⟨rest, hrest⟩ := hprefix
  generalize fread asked more stdin = chunk at hrest
  rw [← hrest, List.drop_left]

theorem length_fread_le (asked more : ℕ) (stdin : Bytes) :
    (fread asked more stdin).length ≤ asked := by
  rw [fread, List.length_take]
  omega

/-- The body of the loop keeps the invariant. -/
theorem exists_readBody {input chunk stdin : Bytes} {b : StdinBuf}
    (h : StdinInv input b (chunk ++ stdin)) (hchunk : chunk.length ≤ b.cap - b.len) :
    ∃ b', readBody b true chunk stdin = .reading b' stdin ∧ StdinInv input b' stdin := by
  obtain ⟨hroom, hsize, s, hs, hlen, hinput⟩ := h
  obtain ⟨buf, hwrite, hholds, hbuf⟩ := hs.write (t := chunk) (by omega)
  rw [hlen] at hwrite
  have hread : (s ++ chunk) ++ stdin = input := by
    rw [← hinput, List.append_assoc]
  have hlength : (s ++ chunk).length = b.len + chunk.length := by
    rw [List.length_append, hlen]
  rw [readBody, hwrite]
  by_cases hfull : b.len + chunk.length = b.cap
  · -- exactly full: the block is doubled before the next test
    have hle : buf.size ≤ 2 * b.cap := by omega
    refine ⟨_, if_pos hfull, ?_, Block.size_realloc hle, s ++ chunk, hholds.realloc hle, hlength,
      hread⟩
    show b.len + chunk.length < 2 * b.cap
    omega
  · refine ⟨_, if_neg hfull, ?_, hbuf.trans hsize, s ++ chunk, hholds, hlength, hread⟩
    show b.len + chunk.length < b.cap
    omega

/-- A round at the end of the input. -/
theorem readStep_end {input : Bytes} {b : StdinBuf} (h : StdinInv input b []) (r : ReadRound) :
    readStep (.reading b []) r = (.ended b, some ⟨b.cap - b.len, []⟩) := by
  have hroom := h.room
  rw [readStep, if_neg (by omega), fread_nil]
  rfl

/-- **Step lemma of the loop**: a round before the end of the input. -/
theorem exists_readStep {input stdin : Bytes} {b : StdinBuf} (h : StdinInv input b stdin)
    (hne : stdin ≠ []) (more : ℕ) :
    ∃ b' chunk rest, readStep (.reading b stdin) (granted more)
        = (.reading b' rest, some ⟨b.cap - b.len, chunk⟩) ∧
      StdinInv input b' rest ∧ chunk ≠ [] ∧ chunk.length ≤ b.cap - b.len ∧
      chunk ++ rest = stdin := by
  have hroom := h.room
  have hchunk : fread (b.cap - b.len) more stdin ≠ [] := fread_ne_nil more (by omega) hne
  have hle := length_fread_le (b.cap - b.len) more stdin
  have happend := fread_append (b.cap - b.len) more stdin
  rw [← happend] at h
  obtain ⟨b', hbody, hinv⟩ := exists_readBody h hle
  refine ⟨b', _, _, ?_, hinv, hchunk, hle, happend⟩
  rw [readStep, if_neg (by omega)]
  show (if fread (b.cap - b.len) more stdin = [] then _ else _, _) = _
  rw [if_neg hchunk]
  exact congrArg (·, _) hbody

theorem sound_readStep {input : Bytes} {s : ReadStdin} (h : s.Sound input) (more : ℕ) :
    (readStep s (granted more)).1.Sound input := by
  cases s with
  | reading b stdin =>
      by_cases hend : stdin = []
      · subst hend
        rw [readStep_end h]
        exact h
      · obtain ⟨b', chunk, rest, hstep, hinv, -⟩ := exists_readStep h hend more
        rw [hstep]
        exact hinv
  | ended b => exact h
  | noMemory => exact h
  | undefined => exact h

/-! ### Whole runs -/

/-- What the calls of a run delivered. -/
def delivered (run : List (ReadRound × Option FreadCall)) : Bytes :=
  run.flatMap fun p => (p.2.map FreadCall.chunk).getD []

/-- The input that is left. -/
def ReadStdin.unread : ReadStdin → Bytes
  | .reading _ stdin => stdin
  | .ended _ | .noMemory | .undefined => []

theorem sound_opened (stdin : Bytes) : (ReadStdin.opened true stdin).Sound stdin :=
  ⟨by decide, Block.size_malloc 4096, [], holds_nil _, rfl, rfl⟩

theorem sound_final {input : Bytes} {s : ReadStdin} (h : s.Sound input) (rounds : List ℕ) :
    (final readStep s (rounds.map granted)).Sound input := by
  induction rounds generalizing s with
  | nil => exact h
  | cons more rounds ih => exact ih (sound_readStep h more)

/-- What is delivered leaves the rest. -/
theorem delivered_append_unread {input : Bytes} {s : ReadStdin} (h : s.Sound input)
    (rounds : List ℕ) :
    delivered (trace readStep s (rounds.map granted))
      ++ (final readStep s (rounds.map granted)).unread = s.unread := by
  induction rounds generalizing s with
  | nil => rfl
  | cons more rounds ih =>
      have hrest := ih (sound_readStep h more)
      rw [List.map_cons, trace_cons, final_cons, delivered, List.flatMap_cons, List.append_assoc]
      rw [delivered] at hrest
      rw [hrest]
      cases s with
      | reading b stdin =>
          by_cases hend : stdin = []
          · subst hend
            rw [readStep_end h]
            rfl
          · obtain ⟨b', chunk, rest, hstep, -, -, -, happend⟩ := exists_readStep h hend more
            rw [hstep]
            exact happend
      | ended b => rfl
      | noMemory => exact h.elim
      | undefined => exact h.elim

theorem final_ended (b : StdinBuf) (rounds : List ReadRound) :
    final readStep (.ended b) rounds = .ended b := by
  induction rounds with
  | nil => rfl
  | cons r rounds ih => exact ih

/-- Every call but the last delivers something, so the loop ends. -/
theorem exists_ended {input stdin : Bytes} {b : StdinBuf} (h : StdinInv input b stdin)
    (rounds : List ℕ) (hlen : stdin.length < rounds.length) :
    ∃ b', final readStep (.reading b stdin) (rounds.map granted) = .ended b' := by
  induction rounds generalizing stdin b with
  | nil => exact absurd hlen (Nat.not_lt_zero _)
  | cons more rounds ih =>
      rw [List.map_cons, final_cons]
      by_cases hend : stdin = []
      · subst hend
        rw [readStep_end h]
        exact ⟨b, final_ended b _⟩
      · obtain ⟨b', chunk, rest, hstep, hinv, hne, -, happend⟩ := exists_readStep h hend more
        rw [hstep]
        apply ih hinv
        have hpos := List.length_pos_of_ne_nil hne
        rw [← happend, List.length_append, List.length_cons] at hlen
        omega

/-- What is claimed of one test of the loop: there is room, `cap` is the size
of the block, `fread` is asked for something, and what it is asked for fits
into the block. -/
def TestSound (s : ReadStdin) (r : ReadRound) : Prop :=
  ∀ b stdin, s = .reading b stdin → b.len < b.cap ∧ b.buf.size = b.cap ∧
    ∃ call, (readStep s r).2 = some call ∧ 0 < call.asked ∧ b.len + call.asked ≤ b.cap ∧
      call.chunk.length ≤ call.asked ∧ (call.chunk = [] → stdin = []) ∧
      (readStep s r).1 ≠ .undefined

theorem testSound {input : Bytes} {s : ReadStdin} (h : s.Sound input) (more : ℕ) :
    TestSound s (granted more) := by
  rintro b stdin rfl
  have hroom : b.len < b.cap := h.room
  refine ⟨hroom, h.size, ?_⟩
  by_cases hend : stdin = []
  · subst hend
    rw [readStep_end h]
    exact ⟨_, rfl, Nat.sub_pos_of_lt hroom, (Nat.add_sub_of_le hroom.le).le, Nat.zero_le _,
      fun _ => rfl, nofun⟩
  · obtain ⟨b', chunk, rest, hstep, -, hne, hle, -⟩ := exists_readStep h hend more
    rw [hstep]
    exact ⟨_, rfl, Nat.sub_pos_of_lt hroom, (Nat.add_sub_of_le hroom.le).le, hle,
      fun hnil => absurd hnil hne, nofun⟩

theorem throughout_testSound {input : Bytes} {s : ReadStdin} (h : s.Sound input)
    (rounds : List ℕ) : Throughout readStep TestSound s (rounds.map granted) := by
  induction rounds generalizing s with
  | nil => trivial
  | cons more rounds ih => exact ⟨testSound h more, ih (sound_readStep h more)⟩

/-- What the loop leaves holds the input and, once terminated, its NUL. -/
theorem exists_terminated {input : Bytes} {b : StdinBuf} (h : StdinInv input b []) :
    ∃ buf, b.terminated = some buf ∧ buf.size = b.cap ∧ Holds buf (input ++ [0]) := by
  obtain ⟨hroom, hsize, s, hs, hlen, hinput⟩ := h
  obtain ⟨buf, hstore, hholds, hbuf⟩ := hs.store_end (a := 0) (by omega)
  rw [List.append_nil] at hinput
  rw [hlen] at hstore
  rw [hinput] at hholds
  exact ⟨buf, hstore, hbuf.trans hsize, hholds⟩

/-- **`read_stdin` reads exactly its input.**  Of every input, however many
bytes the calls of `fread` deliver, with every allocation granted: at every
test of the loop there is room and `fread` is asked for something that fits
into the block; the loop ends; and what it returns is what the calls
delivered, which is the input, with a NUL behind it. -/
theorem read_stdin_exact (stdin : Bytes) (rounds : List ℕ) :
    let s := final readStep (.opened true stdin) (rounds.map granted)
    Throughout readStep TestSound (.opened true stdin) (rounds.map granted) ∧
    (stdin.length < rounds.length → ∃ b, s = .ended b) ∧
    (∀ b, s = .ended b → b.len < b.cap ∧
      delivered (trace readStep (.opened true stdin) (rounds.map granted)) = stdin ∧
      ∃ buf, b.terminated = some buf ∧ buf.size = b.cap ∧ Holds buf (stdin ++ [0])) := by
  intro s
  have hopened := sound_opened stdin
  refine ⟨throughout_testSound hopened rounds, fun hlen => exists_ended hopened rounds hlen, ?_⟩
  intro b hended
  have hfinal : s.Sound stdin := sound_final hopened rounds
  have hdelivered := delivered_append_unread hopened rounds
  rw [show final readStep (.opened true stdin) (rounds.map granted) = .ended b from hended]
    at hdelivered
  rw [hended] at hfinal
  exact ⟨hfinal.room, (List.append_nil _).symm.trans hdelivered, exists_terminated hfinal⟩

/-! ### The mode `--post` -/

variable {ν : Type*}

/-- Where `main` is: it still reads, or it is over, with the id it printed
and its exit status. -/
inductive PostEnd
  | running
  | exit (printed : Option Int32) (status : ℕ)
  | undefined
deriving DecidableEq

/-- `main` in the mode `--post`, once it is connected: `entryAt` is the date
of `--entry-at`, 0 without one. -/
def mainPost (P : Proto ν) (user : Bytes) (env : CallEnv ν) (entryAt : Int64) (malloc : Bool)
    (stdin : Bytes) (rounds : List ReadRound) (w : World) : World × PostEnd :=
  match final readStep (.opened malloc stdin) rounds with
  | .reading _ _ => (w, .running)
  | .noMemory => (w, .exit none 1)
  | .undefined => (w, .undefined)
  | .ended b =>
      match b.terminated.bind (Block.string 0) with
      | none => (w, .undefined)
      | some text =>
          let r := netPostEntry P user env text entryAt w
          (r.1, if r.2.toInt < 0 then .exit none 1 else .exit (some r.2) 0)

theorem cstr_eq_self_iff {s : Bytes} : cstr s = s ↔ 0 ∉ s :=
  ⟨fun h => h ▸ zero_notMem_cstr s, cstr_eq_self⟩

variable {P : Proto ν} {user : Bytes} {env : CallEnv ν} {entryAt : Int64}

/-- Once the input is read, the text posted is what `strlen` sees of it. -/
theorem mainPost_of_ended {stdin : Bytes} {rounds : List ℕ} {b : StdinBuf}
    (h : final readStep (.opened true stdin) (rounds.map granted) = .ended b) (w : World) :
    mainPost P user env entryAt true stdin (rounds.map granted) w
      = ((netPostEntry P user env (cstr stdin) entryAt w).1,
          if (netPostEntry P user env (cstr stdin) entryAt w).2.toInt < 0 then .exit none 1
          else .exit (some (netPostEntry P user env (cstr stdin) entryAt w).2) 0) := by
  have hsound := sound_final (sound_opened stdin) rounds
  rw [h] at hsound
  obtain ⟨buf, hbuf, -, hholds⟩ := exists_terminated hsound
  have htext : b.terminated.bind (Block.string 0) = some (cstr stdin) := by
    rw [hbuf]
    exact string_eq hholds
  simp only [mainPost, h, htext]

/-- What a POST that returned an id stored. -/
theorem stores_netPostEntry_iff (hP : P.Lawful) {db : Db} (hids : db.entries.seq + 1 < 2 ^ 31)
    {text : Bytes} (h : ¬ (netPostEntry P user env text entryAt ⟨db, []⟩).2.toInt < 0)
    (text' : Bytes) :
    Stores P user (netPostEntry P user env text entryAt ⟨db, []⟩).1.db
        (netPostEntry P user env text entryAt ⟨db, []⟩).2 text' ↔
      text = text' := by
  rcases hseal : P.sealNew env.nonce text with - | b64
  · refine absurd ?_ h
    rw [netPostEntry, hseal]
    exact (by decide : (-1 : Int32).toInt < 0)
  rcases hdone : env.server.done with - | -
  · refine absurd ?_ h
    rw [netPostEntry_eq hP user entryAt rfl hseal, storageAddEntry, if_neg (by simp [hdone])]
    exact (by decide : (-1 : Int32).toInt < 0)
  rw [netPostEntry_stores hP user entryAt hseal hdone hids]
  simp only [Stores, toNatClampNeg_rowidToInt hids, AutoTable.lookup_insert, Function.update_self,
    Option.some.injEq]
  constructor
  · rintro ⟨e, rfl, -, hopen⟩
    rw [hP.unseal_sealed hseal] at hopen
    exact Option.some.inj hopen
  · rintro rfl
    exact ⟨_, rfl, rfl, hP.unseal_sealed hseal⟩

/-- **When `--post` stores its input.**  Of every input, in whatever chunks
it comes: if `--post` prints an id and exits 0, the entry under that id is
the input exactly if the input has no NUL. -/
theorem post_stores_input_iff {P : Proto ν} (hP : P.Lawful) (user : Bytes) (env : CallEnv ν)
    (entryAt : Int64) (stdin : Bytes) (rounds : List ℕ) (db : Db)
    (hids : db.entries.seq + 1 < 2 ^ 31) (w : World) (id : Int32)
    (h : mainPost P user env entryAt true stdin (rounds.map granted) ⟨db, []⟩
      = (w, .exit (some id) 0)) :
    Stores P user w.db id stdin ↔ 0 ∉ stdin := by
  rcases hfinal : final readStep (.opened true stdin) (rounds.map granted) with
    ⟨b, rest⟩ | b | - | -
  · simp [mainPost, hfinal] at h
  · rw [mainPost_of_ended hfinal] at h
    obtain ⟨hw, hend⟩ := Prod.mk.inj h
    by_cases hneg : (netPostEntry P user env (cstr stdin) entryAt ⟨db, []⟩).2.toInt < 0
    · rw [if_pos hneg] at hend
      cases hend
    · rw [if_neg hneg] at hend
      obtain ⟨hid, -⟩ := PostEnd.exit.inj hend
      rw [← hw, ← Option.some.inj hid, stores_netPostEntry_iff hP hids hneg, cstr_eq_self_iff]
  · simp [mainPost, hfinal] at h
  · simp [mainPost, hfinal] at h

theorem post_stores_input_hi :
    let env : CallEnv Unit := ⟨(), ⟨7, true, true, []⟩, true⟩
    let r := mainPost taggingProto (lit "alice") env 0 true (lit "hi") ([0, 0, 0].map granted)
      ⟨Db.fresh, []⟩
    r.2 = .exit (some 1) 0 ∧ Stores taggingProto (lit "alice") r.1.db 1 (lit "hi") := by
  intro env r
  obtain ⟨b, hended⟩ := exists_ended (sound_opened (lit "hi")) [0, 0, 0] (by decide)
  have hr : r = (r.1, .exit (some 1) 0) := by
    rw [show r = _ from mainPost_of_ended hended _]
    exact Prod.ext rfl (by decide)
  refine ⟨congrArg Prod.snd hr, ?_⟩
  exact (post_stores_input_iff taggingProto_lawful (lit "alice") env 0 (lit "hi") [0, 0, 0] Db.fresh
    (by decide) r.1 1 hr).mpr (by decide)

/-- "a", NUL, "b": the id is printed, and the entry is "a". -/
theorem post_cuts_at_nul :
    let env : CallEnv Unit := ⟨(), ⟨7, true, true, []⟩, true⟩
    let r := mainPost taggingProto (lit "alice") env 0 true [97, 0, 98] ([9, 9, 9, 9].map granted)
      ⟨Db.fresh, []⟩
    r.2 = .exit (some 1) 0 ∧ Stores taggingProto (lit "alice") r.1.db 1 (lit "a") ∧
      ¬ Stores taggingProto (lit "alice") r.1.db 1 [97, 0, 98] := by
  intro env r
  obtain ⟨b, hended⟩ := exists_ended (sound_opened [97, 0, 98]) [9, 9, 9, 9] (by decide)
  have hid : (netPostEntry taggingProto (lit "alice") env (cstr [97, 0, 98]) 0
      ⟨Db.fresh, []⟩).2 = 1 := by
    decide
  have hids : Db.fresh.entries.seq + 1 < 2 ^ 31 := by decide
  have hpos : ¬ (netPostEntry taggingProto (lit "alice") env (cstr [97, 0, 98]) 0
      ⟨Db.fresh, []⟩).2.toInt < 0 := by
    rw [hid]
    decide
  have hstores := stores_netPostEntry_iff taggingProto_lawful hids hpos
  rw [hid] at hstores
  rw [show r = _ from mainPost_of_ended hended _]
  refine ⟨by decide, ?_, ?_⟩
  · exact (hstores _).mpr (by decide)
  · exact mt (hstores _).mp (by decide)

end Diary
