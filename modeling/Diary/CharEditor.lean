/-
Diary/CharEditor.lean

The editor of bytes as an editor of characters.  A typed character arrives
as the run of its UTF-8 bytes, and timeouts may come in between, so the
buffer is no valid text on the way; after every complete event it is the
encoding of a `Zipper Char` again, and the cursor stands between two
characters (`byte_editor_simulates`).

The scans of the source over continuation bytes find the places where a
character starts because UTF-8 is self-synchronizing (`selfSync_utf8`): one
lemma for each scan (`u8Back_eq`, `u8CharLen_eq`, `starts_vposToIdx`), one
for each kind of event, and one for the run.
-/
import Diary.CodeText
import Diary.Escape

namespace Diary

open CString Machine CodeText

/-! ### Events -/

/-- The loop over what its iterations read; `none` once it has ended. -/
def loopStep : Option Editor → EditorEvent → Option Editor
  | none, _ => none
  | some e, ev =>
      match e.iterate ev.inp with
      | .continue e => some e
      | .leave _ => none
      | .save e => some (e.finishSave ev.newId)

/-- An event of the editor of characters: typing a character, the keys that
edit or move by one character, the keys that move by lines, and what
changes neither text nor cursor. -/
inductive CharEvent
  | type (c : Char)
  | enter
  | backspace
  | delete
  | left
  | right
  | move
  | other
deriving DecidableEq

/-- The keys of an event that is one key. -/
def CharEvent.keys : CharEvent → List ℤ
  | .type _ => []
  | .enter => [10, 13, keyEnter]
  | .backspace => [keyBackspace, 127, 8]
  | .delete => [keyDc]
  | .left => [keyLeft]
  | .right => [keyRight]
  | .move => [keyUp, keyDown, keyHome, keyEnd]
  | .other => []

/-- A key that inserts itself. -/
def InsertsItself (ch : ℤ) : Prop := isPrint ch = true ∨ 0x80 ≤ ch ∧ ch ≤ 0xFF

/-- A key that belongs to no other event. -/
def OtherKey (ch : ℤ) : Prop := ¬ InsertsItself ch ∧ ∀ ev : CharEvent, ch ∉ ev.keys

/-- The keys an event arrives as.  A character is printable ASCII or none of
ASCII, and arrives as its bytes in UTF-8. -/
def CharEvent.ArrivesAs (ev : CharEvent) (keys : List ℤ) : Prop :=
  match ev with
  | .type c =>
      (isPrint c.toNat = true ∨ 0x80 ≤ c.toNat) ∧
        keys = (String.utf8EncodeChar c).map fun b => (b.toNat : ℤ)
  | .other => ∀ ch ∈ keys, OtherKey ch
  | ev => ∃ ch ∈ ev.keys, keys = [ch]

/-- The keys of a list of inputs, timeouts left out. -/
def keysOf (evs : List EditorEvent) : List ℤ :=
  (evs.filter fun ev => ev.inp.ch ≠ keyErr).map fun ev => ev.inp.ch

/-- A complete event: the inputs it arrives in, with timeouts anywhere. -/
structure Delivery where
  event : CharEvent
  inputs : List EditorEvent
  arrives : event.ArrivesAs (keysOf inputs)

def deliver (s : Option Editor) (d : Delivery) : Option Editor := d.inputs.foldl loopStep s

/-- An input that does not end the loop: no ESC, and if the buffer has to
grow there is memory. -/
def EditorInput.Stays (inp : EditorInput) : Prop := inp.ch ≠ 27 ∧ inp.realloc = true

/-! ### The editor of characters -/

/-- What an event does to the characters and the cursor. -/
def CharStep : CharEvent → Zipper Char → Zipper Char → Prop
  | .type c, z, z' => z' = z.insert c
  | .enter, z, z' => z' = z.insert '\n'
  | .backspace, z, z' => z' = z.deletePrev
  | .delete, z, z' => z' = z.deleteNext
  | .left, z, z' => z' = z.prev
  | .right, z, z' => z' = z.next
  | .move, z, z' => z'.toList = z.toList
  | .other, z, z' => z' = z

/-- While the loop runs, its buffer is the UTF-8 encoding of the characters
and its cursor is where theirs is. -/
def Represents (s : Option Editor) (z : Zipper Char) : Prop :=
  ∀ e, s = some e → Shows String.utf8EncodeChar e.buf e.cursor z

/-! ### UTF-8 is self-synchronizing -/

theorem u8IsCont_iff (b : UInt8) : u8IsCont b = true ↔ 0x80 ≤ b.toNat ∧ b.toNat < 0xC0 := by
  have hall : ∀ n : Fin 256, u8IsCont (UInt8.ofNat n) = true ↔ 0x80 ≤ n.val ∧ n.val < 0xC0 := by
    decide +kernel
  have h := hall ⟨b.toNat, b.toNat_lt⟩
  rwa [UInt8.ofNat_toNat] at h

/-- The last bytes of a character are continuation bytes, the first is not. -/
theorem u8IsCont_ofNat_tail (n : ℕ) : u8IsCont (UInt8.ofNat (n % 64 + 0x80)) = true := by
  rw [u8IsCont_iff, UInt8.toNat_ofNat']
  omega

theorem u8IsCont_ofNat_head {n : ℕ} (h : n < 0x80 ∨ 0xC0 ≤ n ∧ n < 0x100) :
    u8IsCont (UInt8.ofNat n) = false := by
  rw [Bool.eq_false_iff, Ne, u8IsCont_iff, UInt8.toNat_ofNat']
  omega

theorem selfSync_utf8 : SelfSync u8IsCont String.utf8EncodeChar := by
  intro c
  rw [String.utf8EncodeChar]
  split
  · exact ⟨_, [], rfl, u8IsCont_ofNat_head (by omega), nofun⟩
  split
  · refine ⟨_, _, rfl, u8IsCont_ofNat_head (by omega), ?_⟩
    simp only [List.forall_mem_cons, u8IsCont_ofNat_tail, true_and]
    exact nofun
  split
  · refine ⟨_, _, rfl, u8IsCont_ofNat_head (by omega), ?_⟩
    simp only [List.forall_mem_cons, u8IsCont_ofNat_tail, true_and]
    exact nofun
  · refine ⟨_, _, rfl, u8IsCont_ofNat_head (by omega), ?_⟩
    simp only [List.forall_mem_cons, u8IsCont_ofNat_tail, true_and]
    exact nofun

theorem utf8EncodeChar_ascii {c : Char} (h : c.toNat < 0x80) :
    String.utf8EncodeChar c = [UInt8.ofNat c.toNat] := by
  rw [String.utf8EncodeChar]
  exact if_pos (Nat.le_of_lt_succ h)

/-- No byte of a character outside ASCII is ASCII. -/
theorem le_of_mem_utf8EncodeChar {c : Char} (h : 0x80 ≤ c.toNat) {b : UInt8}
    (hb : b ∈ String.utf8EncodeChar c) : 0x80 ≤ b.toNat := by
  have hv : ¬ c.val.toNat ≤ 0x7f := Nat.not_le.mpr h
  have hbyte : ∀ k, 0x80 ≤ k → k < 0x100 → 0x80 ≤ (UInt8.ofNat k).toNat := by
    intro k hlow hhigh
    rw [UInt8.toNat_ofNat']
    omega
  rw [String.utf8EncodeChar, if_neg hv] at hb
  split at hb
  · rcases List.mem_pair.mp hb with rfl | rfl <;> apply hbyte <;> omega
  split at hb
  · simp only [List.mem_cons, List.not_mem_nil, or_false] at hb
    rcases hb with rfl | rfl | rfl <;> apply hbyte <;> omega
  · simp only [List.mem_cons, List.not_mem_nil, or_false] at hb
    rcases hb with rfl | rfl | rfl | rfl <;> apply hbyte <;> omega

/-! ### The scans of the source -/

/-- The scan forward over the character after the cursor. -/
theorem u8CharLen_eq {buf : Bytes} {i : ℕ} {l r : List Char} {c : Char}
    (h : Shows String.utf8EncodeChar buf i ⟨l, c :: r⟩) :
    u8CharLen buf i = (String.utf8EncodeChar c).length := by
  obtain ⟨b, bs, hc, -, hbs⟩ := selfSync_utf8 c
  have hrest : buf.drop (i + 1) = bs ++ encode String.utf8EncodeChar r := by
    rw [← List.drop_drop, h.drop_eq, encode_cons, hc]
    rfl
  rw [u8CharLen, hrest, selfSync_utf8.takeWhile_cont hbs, hc, List.length_cons, Nat.add_comm]

theorem u8Back_of_cont {buf : Bytes} {i n : ℕ}
    (hcont : ∀ j, 0 < j → j ≤ n → u8IsCont (buf.getD (i + j) 0) = true)
    (hi : u8IsCont (buf.getD i 0) = false) : u8Back buf (i + n) = i := by
  induction n with
  | zero =>
      cases i with
      | zero => rfl
      | succ i =>
          rw [Nat.add_zero, u8Back, if_neg]
          rw [hi]
          exact Bool.false_ne_true
  | succ n ih =>
      have hlast : u8IsCont (buf.getD (i + n + 1) 0) = true := hcont (n + 1) n.succ_pos (le_refl _)
      show u8Back buf (i + n + 1) = i
      rw [u8Back, if_pos hlast]
      apply ih
      exact fun j hj hjn => hcont j hj (Nat.le_succ_of_le hjn)

/-- The scan back over the character before the cursor. -/
theorem u8Back_eq {buf : Bytes} {i : ℕ} {l r : List Char} {c : Char}
    (h : Shows String.utf8EncodeChar buf i ⟨c :: l, r⟩) :
    u8Back buf (i - 1) = i - (String.utf8EncodeChar c).length := by
  obtain ⟨b, bs, hc, hb, hbs⟩ := selfSync_utf8 c
  have hbuf : buf = encode String.utf8EncodeChar l.reverse
      ++ (b :: bs ++ encode String.utf8EncodeChar r) := by
    rw [h.prev.buf_eq, encode_cons, hc]
  have hindex := h.index_cons
  rw [hc, List.length_cons] at hindex ⊢
  generalize encode String.utf8EncodeChar l.reverse = pre at hbuf hindex
  -- from `pre` on, the buffer is the lead byte and its continuation bytes
  have hget : ∀ j, buf.getD (pre.length + j) 0
      = (b :: bs ++ encode String.utf8EncodeChar r).getD j 0 := by
    intro j
    rw [hbuf, List.getD_append_right _ _ _ _ (Nat.le_add_right _ _), Nat.add_sub_cancel_left]
  have hlast : i - 1 = pre.length + bs.length := by omega
  have hfirst : i - (bs.length + 1) = pre.length := by omega
  rw [hlast, hfirst]
  apply u8Back_of_cont
  · intro j hj hjn
    obtain ⟨k, rfl⟩ := Nat.exists_eq_succ_of_ne_zero hj.ne'
    have hk : k < bs.length := hjn
    rw [hget, List.cons_append]
    show u8IsCont ((bs ++ encode String.utf8EncodeChar r).getD k 0) = true
    rw [List.getD_append _ _ _ _ hk, List.getD_eq_getElem _ _ hk]
    exact hbs _ (List.getElem_mem hk)
  · have hhead := hget 0
    rw [Nat.add_zero] at hhead
    rw [hhead]
    exact hb

/-- The scan over visual positions stops where a character starts, or at
the end. -/
theorem vposScan_starts (cols tvr tvc : ℤ) (bs : Bytes) (i : ℕ) (p : ℤ × ℤ) :
    ∃ j, vposScan cols tvr tvc bs i p = i + j ∧ Starts u8IsCont (bs.drop j) := by
  induction bs generalizing i p with
  | nil => exact ⟨0, rfl, nofun⟩
  | cons b bs ih =>
      have hpast : ∀ p, ∃ j, vposScan cols tvr tvc bs (i + 1) p = i + j ∧
          Starts u8IsCont ((b :: bs).drop j) := by
        intro p
        obtain ⟨j, hj, hstarts⟩ := ih (i + 1) p
        exact ⟨j + 1, by rw [hj]; omega, hstarts⟩
      rw [vposScan]
      split
      · exact hpast p
      next hcont =>
        have hhere : Starts u8IsCont ((b :: bs).drop 0) := by
          intro x hx
          obtain rfl : b = x := by simpa using hx
          simpa using hcont
        split
        · exact ⟨0, rfl, hhere⟩
        split
        · exact ⟨0, rfl, hhere⟩
        · exact hpast _

theorem starts_vposToIdx (buf : Bytes) (cols tvr tvc : ℤ) :
    Starts u8IsCont (buf.drop (vposToIdx buf cols tvr tvc)) := by
  obtain ⟨j, hj, hstarts⟩ := vposScan_starts cols tvr tvc buf 0 (0, 0)
  rw [Nat.zero_add] at hj
  rwa [vposToIdx, hj]

/-! ### Iterations that keep the text -/

/-- The loop went on with text and cursor as they were, or it has ended. -/
def KeepsText (s s' : Option Editor) : Prop :=
  ∀ e', s' = some e' → ∃ e, s = some e ∧ e'.buf = e.buf ∧ e'.cursor = e.cursor

theorem KeepsText.refl (s : Option Editor) : KeepsText s s := fun e he => ⟨e, he, rfl, rfl⟩

theorem KeepsText.trans {s s' s'' : Option Editor} (h : KeepsText s s') (h' : KeepsText s' s'') :
    KeepsText s s'' := by
  intro e'' he''
  obtain ⟨e', he', hbuf', hcursor'⟩ := h' e'' he''
  obtain ⟨e, he, hbuf, hcursor⟩ := h e' he'
  exact ⟨e, he, hbuf'.trans hbuf, hcursor'.trans hcursor⟩

theorem Represents.keepsText {s s' : Option Editor} {z : Zipper Char} (h : Represents s z)
    (hkeep : KeepsText s s') : Represents s' z := by
  intro e' he'
  obtain ⟨e, he, hbuf, hcursor⟩ := hkeep e' he'
  rw [hbuf, hcursor]
  exact h e he

theorem OtherKey.ne {ch k : ℤ} (h : OtherKey ch) (ev : CharEvent) (hk : k ∈ ev.keys) : ch ≠ k :=
  fun heq => h.2 ev (heq ▸ hk)

theorem otherKey_keyErr : OtherKey keyErr := by
  constructor
  · rintro (h | h) <;> exact absurd h (by decide)
  · intro ev
    cases ev <;> simp [CharEvent.keys, keyErr, keyEnter, keyBackspace, keyDc, keyLeft, keyRight,
      keyUp, keyDown, keyHome, keyEnd]

/-- Of the keys that belong to no other event only the wheel has an effect
after the branches that save and leave. -/
theorem navigationKey_other {inp : EditorInput} (h : OtherKey inp.ch) (e : Editor) :
    e.navigationKey inp = .continue e ∨ e.navigationKey inp = .continue (e.wheel inp.wheel) := by
  have hup := h.ne .move (k := keyUp) (by decide)
  have hdown := h.ne .move (k := keyDown) (by decide)
  have hhome := h.ne .move (k := keyHome) (by decide)
  have hend := h.ne .move (k := keyEnd) (by decide)
  have hleft := h.ne .left (k := keyLeft) (by decide)
  have hright := h.ne .right (k := keyRight) (by decide)
  have hediting : e.editingKey inp = .continue e := by
    have hback : ¬ (inp.ch = keyBackspace ∨ inp.ch = 127 ∨ inp.ch = 8) := by
      simpa [CharEvent.keys] using h.2 .backspace
    have henter : ¬ (inp.ch = 10 ∨ inp.ch = 13 ∨ inp.ch = keyEnter) := by
      simpa [CharEvent.keys] using h.2 .enter
    have hdelete := h.ne .delete (k := keyDc) (by decide)
    have hself : ¬ (isPrint inp.ch = true ∨ 0x80 ≤ inp.ch ∧ inp.ch ≤ 0xFF) := h.1
    rw [Editor.editingKey, if_neg hback, if_neg hdelete, if_neg henter, if_neg hself]
  rw [Editor.navigationKey, if_neg hup, if_neg hdown, if_neg fun h => hleft h.1,
    if_neg fun h => hright h.1, if_neg hhome, if_neg hend, hediting]
  split
  · exact Or.inr rfl
  · exact Or.inl rfl

theorem iterate_other {inp : EditorInput} (h : OtherKey inp.ch) (e : Editor) :
    ∃ e', (e.iterate inp = .continue e' ∨ e.iterate inp = .save e' ∨ e.iterate inp = .leave e') ∧
      e'.buf = e.buf ∧ e'.cursor = e.cursor := by
  rw [Editor.iterate, Editor.key]
  split
  · exact ⟨_, Or.inl rfl, rfl, rfl⟩
  split
  · rw [Editor.saveKey]
    split
    · exact ⟨_, Or.inl rfl, rfl, rfl⟩
    · exact ⟨_, Or.inr (Or.inl rfl), rfl, rfl⟩
  split
  · rw [Editor.escape]
    split
    · exact ⟨_, Or.inl rfl, rfl, rfl⟩
    · exact ⟨_, Or.inr (Or.inr rfl), rfl, rfl⟩
  · rcases navigationKey_other h (e.frame inp.rows inp.cols) with hnav | hnav
    · exact ⟨_, Or.inl hnav, rfl, rfl⟩
    · rw [hnav]
      cases inp.wheel <;> exact ⟨_, Or.inl rfl, rfl, rfl⟩

theorem loopStep_other {ev : EditorEvent} (h : OtherKey ev.inp.ch) (s : Option Editor) :
    KeepsText s (loopStep s ev) := by
  cases s with
  | none => exact KeepsText.refl none
  | some e =>
      intro e'' he''
      obtain ⟨e', hkey, hbuf, hcursor⟩ := iterate_other h e
      rw [loopStep] at he''
      rcases hkey with hkey | hkey | hkey
      · rw [hkey] at he''
        obtain rfl := Option.some.inj he''
        exact ⟨e, rfl, hbuf, hcursor⟩
      · rw [hkey] at he''
        obtain rfl := Option.some.inj he''
        refine ⟨e, rfl, ?_, ?_⟩
        · rw [finishSave_buf, hbuf]
        · rw [finishSave_cursor, hcursor]
      · rw [hkey] at he''
        cases he''

theorem foldl_other {evs : List EditorEvent} (h : ∀ ev ∈ evs, OtherKey ev.inp.ch)
    (s : Option Editor) : KeepsText s (evs.foldl loopStep s) := by
  induction evs generalizing s with
  | nil => exact KeepsText.refl s
  | cons ev evs ih =>
      have hfirst := loopStep_other (h ev (by simp)) s
      exact hfirst.trans (ih (fun ev' hev' => h ev' (by simp [hev'])) _)

/-! ### Timeouts between keys -/

theorem otherKey_of_keysOf_nil {evs : List EditorEvent} (h : keysOf evs = []) :
    ∀ ev ∈ evs, OtherKey ev.inp.ch := by
  intro ev hev
  have hnone := List.filter_eq_nil_iff.mp (List.map_eq_nil_iff.mp h) ev hev
  have herr : ev.inp.ch = keyErr := by simpa using hnone
  rw [herr]
  exact otherKey_keyErr

/-- The inputs up to a key are timeouts. -/
theorem keysOf_eq_cons {evs : List EditorEvent} {ch : ℤ} {chs : List ℤ}
    (h : keysOf evs = ch :: chs) :
    ∃ before ev after, evs = before ++ ev :: after ∧ (∀ t ∈ before, OtherKey t.inp.ch) ∧
      ev.inp.ch = ch ∧ keysOf after = chs := by
  obtain ⟨ev, rest, hfilter, hch, hrest⟩ := List.map_eq_cons_iff.mp h
  obtain ⟨before, after, rfl, hbefore, -, hafter⟩ := List.filter_eq_cons_iff.mp hfilter
  refine ⟨before, ev, after, rfl, fun t ht => ?_, hch, ?_⟩
  · have herr : t.inp.ch = keyErr := by simpa using hbefore t ht
    rw [herr]
    exact otherKey_keyErr
  · rw [keysOf, hafter, hrest]

/-! ### Bytes that are typed -/

/-- While the loop runs, its buffer is `pre ++ post` with the cursor in
between; `pre` may end within a character. -/
def SplitAt (pre post : Bytes) (s : Option Editor) : Prop :=
  ∀ e, s = some e → e.buf = pre ++ post ∧ e.cursor = pre.length

theorem SplitAt.keepsText {pre post : Bytes} {s s' : Option Editor} (h : SplitAt pre post s)
    (hkeep : KeepsText s s') : SplitAt pre post s' := by
  intro e' he'
  obtain ⟨e, he, hbuf, hcursor⟩ := hkeep e' he'
  rw [hbuf, hcursor]
  exact h e he

/-- Before a character is typed. -/
theorem Represents.splitAt {s : Option Editor} {z : Zipper Char} (h : Represents s z) :
    SplitAt (encode String.utf8EncodeChar z.left.reverse) (encode String.utf8EncodeChar z.right)
      s :=
  fun e he => ⟨(h e he).buf_eq, (h e he).index_eq⟩

/-- Its bytes are all there. -/
theorem SplitAt.represents {s : Option Editor} {z : Zipper Char} {c : Char}
    (h : SplitAt (encode String.utf8EncodeChar z.left.reverse ++ String.utf8EncodeChar c)
      (encode String.utf8EncodeChar z.right) s) : Represents s (z.insert c) := by
  intro e he
  obtain ⟨hbuf, hcursor⟩ := h e he
  constructor
  · rw [hbuf]
    simp [Zipper.insert]
  · rw [hcursor]
    simp [Zipper.insert]

theorem splitAt_insertByte {pre post : Bytes} {s : Option Editor} {ev : EditorEvent} {b : UInt8}
    (h : SplitAt pre post s) (hkey : ∀ e : Editor, e.iterate ev.inp
      = (e.frame ev.inp.rows ev.inp.cols).insertByte ev.inp.realloc b) :
    SplitAt (pre ++ [b]) post (loopStep s ev) := by
  cases s with
  | none => exact nofun
  | some e =>
      obtain ⟨hbuf, hcursor⟩ := h e rfl
      intro e' he'
      rw [loopStep, hkey] at he'
      obtain ⟨bufSz, ⟨-, hleave⟩ | hinsert⟩ :=
        insertByte_cases (e.frame ev.inp.rows ev.inp.cols) ev.inp.realloc b
      · rw [hleave] at he'
        cases he'
      · rw [hinsert] at he'
        obtain rfl := Option.some.inj he'
        constructor
        · show e.buf.take e.cursor ++ b :: e.buf.drop e.cursor = pre ++ [b] ++ post
          rw [hbuf, hcursor, List.take_left, List.drop_left, List.append_assoc]
          rfl
        · show e.cursor + 1 = (pre ++ [b]).length
          rw [hcursor, List.length_append, List.length_singleton]

theorem insertsItself_bounds {ch : ℤ} (h : InsertsItself ch) :
    0x20 ≤ ch ∧ ch ≤ 0x7E ∨ 0x80 ≤ ch ∧ ch ≤ 0xFF := by
  rcases h with h | h
  · left
    simpa [isPrint] using h
  · exact Or.inr h

/-! The keys of the branches before those that edit. -/

/-- The timeout, and the keys that save or leave. -/
def sessionKeys : List ℤ := [keyErr, 19, keyF2, 23, 27]

def navigationKeys : List ℤ := [keyUp, keyDown, keyLeft, keyRight, keyHome, keyEnd, keyMouse]

theorem iterate_eq_navigationKey {inp : EditorInput} (h : inp.ch ∉ sessionKeys) (e : Editor) :
    e.iterate inp = (e.frame inp.rows inp.cols).navigationKey inp := by
  simp only [sessionKeys, List.mem_cons, List.not_mem_nil, or_false, not_or] at h
  obtain ⟨herr, hsave, hf2, hctrlW, hesc⟩ := h
  rw [Editor.iterate, Editor.key, if_neg fun h => herr h.1, if_neg, if_neg hesc]
  rintro (h | h | h | h)
  exacts [herr h, hsave h, hf2 h, hctrlW h]

theorem navigationKey_eq_editingKey {inp : EditorInput} (h : inp.ch ∉ navigationKeys)
    (e : Editor) : e.navigationKey inp = e.editingKey inp := by
  simp only [navigationKeys, List.mem_cons, List.not_mem_nil, or_false, not_or] at h
  obtain ⟨hup, hdown, hleft, hright, hhome, hend, hmouse⟩ := h
  rw [Editor.navigationKey, if_neg hup, if_neg hdown, if_neg fun h => hleft h.1,
    if_neg fun h => hright h.1, if_neg hhome, if_neg hend, if_neg hmouse]

theorem iterate_insertsItself {inp : EditorInput} (h : InsertsItself inp.ch) (e : Editor) :
    e.iterate inp
      = (e.frame inp.rows inp.cols).insertByte inp.realloc (UInt8.ofNat inp.ch.toNat) := by
  have hch := insertsItself_bounds h
  have hsession : inp.ch ∉ sessionKeys := by
    simp only [sessionKeys, keyErr, keyF2, List.mem_cons, List.not_mem_nil, or_false]
    omega
  have hnavigation : inp.ch ∉ navigationKeys := by
    simp only [navigationKeys, keyUp, keyDown, keyLeft, keyRight, keyHome, keyEnd, keyMouse,
      List.mem_cons, List.not_mem_nil, or_false]
    omega
  rw [iterate_eq_navigationKey hsession, navigationKey_eq_editingKey hnavigation,
    Editor.editingKey, if_neg, if_neg, if_neg]
  · exact if_pos h
  all_goals
    simp only [keyBackspace, keyDc, keyEnter]
    omega

theorem iterate_enter {inp : EditorInput} (h : inp.ch ∈ CharEvent.enter.keys) (e : Editor) :
    e.iterate inp = (e.frame inp.rows inp.cols).insertByte inp.realloc 10 := by
  have hother : ∀ ch ∈ CharEvent.enter.keys, ch ∉ sessionKeys ∧ ch ∉ navigationKeys ∧
      ¬ (ch = keyBackspace ∨ ch = 127 ∨ ch = 8) ∧ ch ≠ keyDc := by decide
  obtain ⟨hsession, hnavigation, hback, hdelete⟩ := hother _ h
  have hch : inp.ch = 10 ∨ inp.ch = 13 ∨ inp.ch = keyEnter := by simpa [CharEvent.keys] using h
  rw [iterate_eq_navigationKey hsession, navigationKey_eq_editingKey hnavigation,
    Editor.editingKey, if_neg hback, if_neg hdelete, if_pos hch]

/-- Typing bytes, timeouts in between: one byte after the other is inserted. -/
theorem splitAt_typed {bs : Bytes} (hbs : ∀ b ∈ bs, InsertsItself b.toNat)
    {evs : List EditorEvent} (hkeys : keysOf evs = bs.map fun b => (b.toNat : ℤ)) {pre post : Bytes}
    {s : Option Editor} (h : SplitAt pre post s) :
    SplitAt (pre ++ bs) post (evs.foldl loopStep s) := by
  induction bs generalizing evs pre s with
  | nil =>
      rw [List.append_nil]
      exact h.keepsText (foldl_other (otherKey_of_keysOf_nil hkeys) s)
  | cons b bs ih =>
      obtain ⟨before, ev, after, rfl, hbefore, hch, hafter⟩ := keysOf_eq_cons hkeys
      have hself : InsertsItself ev.inp.ch := by
        rw [hch]
        exact hbs b (by simp)
      have hbyte : UInt8.ofNat ev.inp.ch.toNat = b := by
        rw [hch, Int.toNat_natCast, UInt8.ofNat_toNat]
      have hready := h.keepsText (foldl_other hbefore s)
      have hinserted : SplitAt (pre ++ [b]) post (loopStep (before.foldl loopStep s) ev) := by
        apply splitAt_insertByte hready
        intro e
        rw [iterate_insertsItself hself, hbyte]
      have hrest := ih (fun b' hb' => hbs b' (by simp [hb'])) hafter hinserted
      rw [List.append_assoc] at hrest
      rw [List.foldl_append, List.foldl_cons]
      exact hrest

/-! ### Keys that are one event -/

theorem iterate_backspace {inp : EditorInput} (h : inp.ch ∈ CharEvent.backspace.keys)
    (e : Editor) : e.iterate inp = .continue (e.frame inp.rows inp.cols).backspace := by
  have hother : ∀ ch ∈ CharEvent.backspace.keys, ch ∉ sessionKeys ∧ ch ∉ navigationKeys := by
    decide
  obtain ⟨hsession, hnavigation⟩ := hother _ h
  have hch : inp.ch = keyBackspace ∨ inp.ch = 127 ∨ inp.ch = 8 := by
    simpa [CharEvent.keys] using h
  rw [iterate_eq_navigationKey hsession, navigationKey_eq_editingKey hnavigation,
    Editor.editingKey, if_pos hch]

theorem iterate_delete {inp : EditorInput} (h : inp.ch ∈ CharEvent.delete.keys) (e : Editor) :
    e.iterate inp = .continue (e.frame inp.rows inp.cols).deleteChar := by
  have hother : ∀ ch ∈ CharEvent.delete.keys, ch ∉ sessionKeys ∧ ch ∉ navigationKeys ∧
      ¬ (ch = keyBackspace ∨ ch = 127 ∨ ch = 8) := by decide
  obtain ⟨hsession, hnavigation, hback⟩ := hother _ h
  have hch : inp.ch = keyDc := List.mem_singleton.mp h
  rw [iterate_eq_navigationKey hsession, navigationKey_eq_editingKey hnavigation,
    Editor.editingKey, if_neg hback, if_pos hch]

/-- LEFT and RIGHT that cannot move fall through to the last branch, which
ignores them. -/
theorem editingKey_arrow {inp : EditorInput} (h : inp.ch = keyLeft ∨ inp.ch = keyRight)
    (e : Editor) : e.editingKey inp = .continue e := by
  rw [Editor.editingKey]
  rcases h with h | h <;> rw [h] <;> rfl

theorem iterate_left {inp : EditorInput} (h : inp.ch ∈ CharEvent.left.keys) (e : Editor) :
    e.iterate inp = .continue
      { e.frame inp.rows inp.cols with
        cursor := if 0 < e.cursor then u8Back e.buf (e.cursor - 1) else e.cursor } := by
  have hch : inp.ch = keyLeft := List.mem_singleton.mp h
  have hsession : inp.ch ∉ sessionKeys := by rw [hch]; decide
  have hediting := editingKey_arrow (Or.inl hch) (e.frame inp.rows inp.cols)
  rw [iterate_eq_navigationKey hsession, Editor.navigationKey, hediting]
  by_cases hcursor : 0 < e.cursor
  · simp only [hch, frame_buf, frame_cursor, hcursor]
    rfl
  · simp only [hch, frame_cursor, hcursor, and_false]
    rfl

theorem iterate_right {inp : EditorInput} (h : inp.ch ∈ CharEvent.right.keys) (e : Editor) :
    e.iterate inp = .continue
      { e.frame inp.rows inp.cols with
        cursor :=
          if e.cursor < e.buf.length then e.cursor + u8CharLen e.buf e.cursor else e.cursor } := by
  have hch : inp.ch = keyRight := List.mem_singleton.mp h
  have hsession : inp.ch ∉ sessionKeys := by rw [hch]; decide
  have hediting := editingKey_arrow (Or.inr hch) (e.frame inp.rows inp.cols)
  rw [iterate_eq_navigationKey hsession, Editor.navigationKey, hediting]
  by_cases hcursor : e.cursor < e.buf.length
  · simp only [hch, frame_buf, frame_cursor, hcursor]
    rfl
  · simp only [hch, frame_buf, frame_cursor, hcursor, and_false]
    rfl

/-- The keys that move by lines: the cursor stays, or goes to where the scan
over visual positions stops. -/
theorem iterate_move {inp : EditorInput} (h : inp.ch ∈ CharEvent.move.keys) (e : Editor) :
    e.iterate inp = .continue (e.frame inp.rows inp.cols) ∨
      ∃ tvr tvc, e.iterate inp = .continue ((e.frame inp.rows inp.cols).goTo inp.cols tvr tvc) := by
  have hother : ∀ ch ∈ CharEvent.move.keys, ch ∉ sessionKeys := by decide
  have hch : inp.ch = keyUp ∨ inp.ch = keyDown ∨ inp.ch = keyHome ∨ inp.ch = keyEnd := by
    simpa [CharEvent.keys] using h
  rw [iterate_eq_navigationKey (hother _ h)]
  generalize e.frame inp.rows inp.cols = e'
  rw [Editor.navigationKey]
  rcases hch with hch | hch | hch | hch <;> rw [hch]
  · by_cases hrow : 0 < e'.curVrow inp.cols
    · rw [if_pos hrow]
      exact Or.inr ⟨_, _, rfl⟩
    · rw [if_neg hrow]
      exact Or.inl rfl
  · exact Or.inr ⟨_, _, rfl⟩
  · exact Or.inr ⟨_, _, rfl⟩
  · exact Or.inr ⟨_, _, rfl⟩

/-! ### One event -/

section Keys

variable {e : Editor} {z : Zipper Char}

theorem shows_backspace (h : Shows String.utf8EncodeChar e.buf e.cursor z) :
    Shows String.utf8EncodeChar e.backspace.buf e.backspace.cursor z.deletePrev := by
  obtain ⟨l, r⟩ := z
  rw [Editor.backspace]
  cases l with
  | nil =>
      have hcursor : ¬ 0 < e.cursor := by simp [h.index_eq]
      rw [if_neg hcursor]
      exact h
  | cons c l =>
      rw [if_pos (h.index_pos selfSync_utf8)]
      show Shows String.utf8EncodeChar
        (e.buf.take (u8Back e.buf (e.cursor - 1)) ++ e.buf.drop e.cursor)
        (u8Back e.buf (e.cursor - 1)) ⟨l, r⟩
      rw [u8Back_eq h]
      exact h.deletePrev

theorem shows_deleteChar (h : Shows String.utf8EncodeChar e.buf e.cursor z) :
    Shows String.utf8EncodeChar e.deleteChar.buf e.deleteChar.cursor z.deleteNext := by
  obtain ⟨l, r⟩ := z
  rw [Editor.deleteChar]
  cases r with
  | nil =>
      have hcursor : ¬ e.cursor < e.buf.length := by simp [h.buf_eq, h.index_eq]
      rw [if_neg hcursor]
      exact h
  | cons c r =>
      rw [if_pos (h.index_lt selfSync_utf8)]
      show Shows String.utf8EncodeChar
        (e.buf.take e.cursor ++ e.buf.drop (e.cursor + u8CharLen e.buf e.cursor)) e.cursor ⟨l, r⟩
      rw [u8CharLen_eq h]
      exact h.deleteNext

theorem shows_left (h : Shows String.utf8EncodeChar e.buf e.cursor z) :
    Shows String.utf8EncodeChar e.buf
      (if 0 < e.cursor then u8Back e.buf (e.cursor - 1) else e.cursor) z.prev := by
  obtain ⟨l, r⟩ := z
  cases l with
  | nil =>
      have hcursor : ¬ 0 < e.cursor := by simp [h.index_eq]
      rw [if_neg hcursor]
      exact h
  | cons c l =>
      rw [if_pos (h.index_pos selfSync_utf8), u8Back_eq h]
      exact h.prev

theorem shows_right (h : Shows String.utf8EncodeChar e.buf e.cursor z) :
    Shows String.utf8EncodeChar e.buf
      (if e.cursor < e.buf.length then e.cursor + u8CharLen e.buf e.cursor else e.cursor)
      z.next := by
  obtain ⟨l, r⟩ := z
  cases r with
  | nil =>
      have hcursor : ¬ e.cursor < e.buf.length := by simp [h.buf_eq, h.index_eq]
      rw [if_neg hcursor]
      exact h
  | cons c r =>
      rw [if_pos (h.index_lt selfSync_utf8), u8CharLen_eq h]
      exact h.next

theorem shows_goTo (h : Shows String.utf8EncodeChar e.buf e.cursor z) (cols tvr tvc : ℤ) :
    ∃ z', z'.toList = z.toList ∧
      Shows String.utf8EncodeChar e.buf (vposToIdx e.buf cols tvr tvc) z' :=
  h.move selfSync_utf8 (vposToIdx_le e.buf cols tvr tvc) (starts_vposToIdx e.buf cols tvr tvc)

end Keys

/-- Something follows every event, also once the loop has ended. -/
theorem exists_charStep (ev : CharEvent) (z : Zipper Char) : ∃ z', CharStep ev z z' := by
  cases ev <;> exact ⟨_, rfl⟩

theorem represents_continue {e e' : Editor} {ev : EditorEvent} {z : Zipper Char}
    (h : e.iterate ev.inp = .continue e')
    (hshows : Shows String.utf8EncodeChar e'.buf e'.cursor z) :
    Represents (loopStep (some e) ev) z := by
  intro e'' he''
  rw [loopStep, h] at he''
  obtain rfl := Option.some.inj he''
  exact hshows

/-- **One key.** -/
theorem represents_key {ev : CharEvent} {inp : EditorEvent} (hkey : inp.inp.ch ∈ ev.keys)
    {s : Option Editor} {z : Zipper Char} (h : Represents s z) :
    ∃ z', CharStep ev z z' ∧ Represents (loopStep s inp) z' := by
  rcases s with - | e
  · obtain ⟨z', hz'⟩ := exists_charStep ev z
    exact ⟨z', hz', nofun⟩
  have hshows := h e rfl
  -- the top of the loop changes neither text nor cursor
  have hframe : Shows String.utf8EncodeChar (e.frame inp.inp.rows inp.inp.cols).buf
      (e.frame inp.inp.rows inp.inp.cols).cursor z := hshows
  cases ev with
  | type c => cases hkey
  | other => cases hkey
  | enter =>
      refine ⟨z.insert '\n', rfl, ?_⟩
      apply SplitAt.represents
      exact splitAt_insertByte h.splitAt (iterate_enter hkey)
  | backspace =>
      refine ⟨z.deletePrev, rfl, ?_⟩
      exact represents_continue (iterate_backspace hkey e) (shows_backspace hframe)
  | delete =>
      refine ⟨z.deleteNext, rfl, ?_⟩
      exact represents_continue (iterate_delete hkey e) (shows_deleteChar hframe)
  | left =>
      refine ⟨z.prev, rfl, ?_⟩
      exact represents_continue (iterate_left hkey e) (shows_left hshows)
  | right =>
      refine ⟨z.next, rfl, ?_⟩
      exact represents_continue (iterate_right hkey e) (shows_right hshows)
  | move =>
      rcases iterate_move hkey e with hstay | ⟨tvr, tvc, hgo⟩
      · exact ⟨z, rfl, represents_continue hstay hshows⟩
      · obtain ⟨z', hz', hmoved⟩ := shows_goTo hframe inp.inp.cols tvr tvc
        exact ⟨z', hz', represents_continue hgo hmoved⟩

/-- A character that is typed arrives in bytes that insert themselves. -/
theorem insertsItself_of_typed {c : Char} (h : isPrint c.toNat = true ∨ 0x80 ≤ c.toNat) :
    ∀ b ∈ String.utf8EncodeChar c, InsertsItself b.toNat := by
  intro b hb
  by_cases hc : 0x80 ≤ c.toNat
  · have hlow := le_of_mem_utf8EncodeChar hc hb
    have hhigh := b.toNat_lt
    right
    omega
  · have hprint := h.resolve_right hc
    rw [utf8EncodeChar_ascii (Nat.lt_of_not_le hc)] at hb
    obtain rfl := List.mem_singleton.mp hb
    left
    rw [UInt8.toNat_ofNat', Nat.mod_eq_of_lt (by omega)]
    exact hprint

/-- **Step lemma.**  A complete event does to the buffer what it does to the
characters. -/
theorem represents_deliver {s : Option Editor} {z : Zipper Char} (h : Represents s z)
    (d : Delivery) : ∃ z', CharStep d.event z z' ∧ Represents (deliver s d) z' := by
  obtain ⟨ev, evs, harrives⟩ := d
  -- one key, with timeouts before and after it
  have hone : ∀ ch ∈ ev.keys, keysOf evs = [ch] →
      ∃ z', CharStep ev z z' ∧ Represents (evs.foldl loopStep s) z' := by
    intro ch hch hkeys
    obtain ⟨before, inp, after, rfl, hbefore, rfl, hafter⟩ := keysOf_eq_cons hkeys
    have hready := h.keepsText (foldl_other hbefore s)
    obtain ⟨z', hz', hdone⟩ := represents_key hch hready
    refine ⟨z', hz', ?_⟩
    rw [List.foldl_append, List.foldl_cons]
    exact hdone.keepsText (foldl_other (otherKey_of_keysOf_nil hafter) _)
  cases ev with
  | type c =>
      obtain ⟨htyped, hkeys⟩ := harrives
      refine ⟨z.insert c, rfl, ?_⟩
      apply SplitAt.represents
      exact splitAt_typed (insertsItself_of_typed htyped) hkeys h.splitAt
  | other =>
      refine ⟨z, rfl, h.keepsText (foldl_other (fun inp hinp => ?_) s)⟩
      by_cases herr : inp.inp.ch = keyErr
      · rw [herr]
        exact otherKey_keyErr
      · apply harrives
        exact List.mem_map_of_mem (List.mem_filter.mpr ⟨hinp, by simpa using herr⟩)
  | enter | backspace | delete | left | right | move =>
      obtain ⟨ch, hch, hkeys⟩ := harrives
      exact hone ch hch hkeys

/-! ### The loop goes on -/

/-- Of all iterations, only those of ESC and of a failed `realloc` leave. -/
theorem isSome_loopStep {ev : EditorEvent} (h : ev.inp.Stays) {s : Option Editor}
    (hs : s.isSome = true) : (loopStep s ev).isSome = true := by
  obtain ⟨e, rfl⟩ := Option.isSome_iff_exists.mp hs
  have hkey := iterate_effect e ev.inp
  rw [loopStep]
  generalize e.iterate ev.inp = o at hkey
  cases hkey with
  | look | edit | warn | save => rfl
  | leave hesc => exact absurd hesc h.1
  | noMemory _ halloc =>
      rw [h.2] at halloc
      cases halloc

theorem isSome_foldl_loopStep {evs : List EditorEvent} (h : ∀ ev ∈ evs, ev.inp.Stays)
    {s : Option Editor} (hs : s.isSome = true) : (evs.foldl loopStep s).isSome = true := by
  induction evs generalizing s with
  | nil => exact hs
  | cons ev evs ih =>
      have hfirst := isSome_loopStep (h ev List.mem_cons_self) hs
      exact ih (fun ev' hev' => h ev' (List.mem_cons_of_mem ev hev')) hfirst

/-! ### Whole sessions -/

/-- An ASCII character's byte is in no other character. -/
theorem notMem_utf8EncodeChar {c : Char} (hc : c.toNat < 0x80) (a : Char) (ha : a ≠ c) :
    UInt8.ofNat c.toNat ∉ String.utf8EncodeChar a := by
  have hbyte : (UInt8.ofNat c.toNat).toNat = c.toNat := by
    rw [UInt8.toNat_ofNat', Nat.mod_eq_of_lt (by omega)]
  intro hmem
  by_cases h : 0x80 ≤ a.toNat
  · have hle := le_of_mem_utf8EncodeChar h hmem
    omega
  · rw [utf8EncodeChar_ascii (Nat.lt_of_not_le h), List.mem_singleton] at hmem
    have heq := congrArg UInt8.toNat hmem
    rw [hbyte, UInt8.toNat_ofNat', Nat.mod_eq_of_lt (by omega)] at heq
    exact ha (Char.toNat_inj.mp heq.symm)

theorem zero_notMem_utf8EncodeChar {c : Char} (hc : c ≠ '\x00') :
    (0 : UInt8) ∉ String.utf8EncodeChar c :=
  notMem_utf8EncodeChar (c := '\x00') (by decide) c hc

/-- The editor opens with the text it was given, and the cursor at the end. -/
theorem represents_opened (entryId : Int32) {text : Option (List Char)}
    (hnul : ∀ cs ∈ text, '\x00' ∉ cs) :
    Represents (some (Editor.opened entryId (text.map (encode String.utf8EncodeChar))))
      (Zipper.atEnd (text.getD [])) := by
  have hcstr : cstr ((text.map (encode String.utf8EncodeChar)).getD [])
      = encode String.utf8EncodeChar (text.getD []) := by
    cases text with
    | none => rfl
    | some cs =>
        apply cstr_eq_self
        intro hmem
        obtain ⟨c, hc, hzero⟩ := List.mem_flatMap.mp hmem
        exact zero_notMem_utf8EncodeChar (fun h => hnul cs rfl (h ▸ hc)) hzero
  intro e he
  obtain rfl := Option.some.inj he
  show Shows String.utf8EncodeChar (cstr _) (cstr _).length _
  rw [hcstr]
  exact shows_atEnd String.utf8EncodeChar (text.getD [])

/-- **The byte editor simulates the character editor.**  Opened on the UTF-8
encoding of a text without NUL, or for a new entry, the editor's buffer is
after every complete event the encoding of what the character editor holds,
and its cursor is where the character editor's is: for every sequence of
events, with timeouts before, between and after their bytes and keys,
whatever the saves return, for as long as the loop runs.  And it goes on
running: no event ends it but by ESC or for want of memory. -/
theorem byte_editor_simulates (entryId : Int32) (text : Option (List Char))
    (hnul : ∀ cs ∈ text, '\x00' ∉ cs) (events : List Delivery) :
    let opened := some (Editor.opened entryId (text.map (encode String.utf8EncodeChar)))
    Simulates deliver Represents (fun d => CharStep d.event) opened (Zipper.atEnd (text.getD []))
        events ∧
      ∀ d : Delivery, (∀ ev ∈ d.inputs, ev.inp.Stays) →
        (events.foldl deliver opened).isSome = true →
          (deliver (events.foldl deliver opened) d).isSome = true := by
  intro opened
  have hstep : ∀ s z (d : Delivery), Represents s z →
      ∃ z', CharStep d.event z z' ∧ Represents (deliver s d) z' :=
    fun _ _ d h => represents_deliver h d
  refine ⟨simulates hstep (represents_opened entryId hnul) events, fun d hstays hrun => ?_⟩
  exact isSome_foldl_loopStep hstays hrun

/-- `é` typed after `h`, with a timeout between its two bytes: the loop still
runs. -/
theorem byte_editor_simulates_two_bytes :
    let press (ch : ℤ) : EditorEvent := ⟨⟨24, 80, ch, .other, true⟩, 0⟩
    let typed := [press 195, press (-1), press 169].foldl loopStep
      (some (Editor.opened 7 (some (lit "h"))))
    ∃ e, typed = some e ∧ Shows String.utf8EncodeChar e.buf e.cursor ⟨['é', 'h'], []⟩ := by
  intro press typed
  let d : Delivery :=
    ⟨.type 'é', [press 195, press (-1), press 169], Or.inr (by decide), by decide⟩
  obtain ⟨⟨-, z', rfl, hdone⟩, -⟩ := byte_editor_simulates 7 (some ['h']) (by decide) [d]
  obtain ⟨-, hgoesOn⟩ := byte_editor_simulates 7 (some ['h']) (by decide) []
  have hstays : ∀ ev ∈ d.inputs, ev.inp.Stays := by
    intro ev hev
    simp only [d, List.mem_cons, List.not_mem_nil, or_false] at hev
    rcases hev with rfl | rfl | rfl <;> exact ⟨by decide, rfl⟩
  obtain ⟨e, he⟩ := Option.isSome_iff_exists.mp (hgoesOn d hstays rfl)
  exact ⟨e, he, hdone e he⟩

end Diary
