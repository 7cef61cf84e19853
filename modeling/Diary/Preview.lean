/-
Diary/Preview.lean

The previews of the two lists: `screen_list` in `client/ui.c`, and
`DiaryEntry.preview` of the Android client.

Both cut the first line of a text after 60 units of its code, which are
bytes in C and UTF-16 units in Java.  Both codes are self-synchronizing, so
one theorem about codes says when such a cut leaves whole characters
(`showsWhole_iff`): when the unit after the cut does not go on with a
character.
-/
import Diary.Memory
import Diary.Layout

namespace Diary

open CString CodeText Memory

/-! ### The source -/

/-- The preview `screen_list` draws of a text; `none` would be an access
outside the buffer of 64 bytes. -/
def preview (text : Bytes) : Option Bytes := do
  let plen := (strchr text 10).getD text.length
  let plen := if plen > 60 then 60 else plen
  let preview ← (Block.calloc 0 64).write 0 (text.take plen)
  let preview ← preview.store plen 0
  preview.string 0

/-- The units of a character in a Java string. -/
def utf16 (c : Char) : List UInt16 :=
  if c.toNat < 0x10000 then [UInt16.ofNat c.toNat]
  else [UInt16.ofNat (0xD800 + (c.toNat - 0x10000) / 0x400),
    UInt16.ofNat (0xDC00 + (c.toNat - 0x10000) % 0x400)]

/-- `Character.isLowSurrogate`. -/
def isLowSurrogate (u : UInt16) : Bool := 0xDC00 ≤ u && u ≤ 0xDFFF

/-- `DiaryEntry.preview`; `none` is `null`. -/
def androidPreview (text : Option (List UInt16)) : List UInt16 :=
  match text with
  | none => []
  | some text =>
    if text = [] then []
    else
      let first := match text.findIdx? (· == 10) with
        | some nl => text.take nl
        | none => text
      if first.length > 60 then first.take 60 else first

/-! ### What is cut -/

theorem findIdx?_getD {β : Type*} [DecidableEq β] (b : β) (s : List β) :
    (s.findIdx? (· == b)).getD s.length = (s.takeWhile (· ≠ b)).length := by
  induction s with
  | nil => rfl
  | cons a s ih =>
      by_cases ha : a = b
      · rw [List.findIdx?_cons, if_pos (by simpa using ha), List.takeWhile_cons_of_neg (by simpa)]
        rfl
      · rw [List.takeWhile_cons_of_pos (by simpa), List.length_cons, List.length_cons, ← ih,
          List.findIdx?_cons, if_neg (by simpa using ha)]
        cases s.findIdx? (· == b) <;> rfl

theorem take_length_takeWhile {β : Type*} (p : β → Bool) (s : List β) :
    s.take (s.takeWhile p).length = s.takeWhile p :=
  List.prefix_iff_eq_take.mp (List.takeWhile_prefix p) |>.symm

/-- The preview fits into its buffer. -/
theorem preview_eq {text : Bytes} (hnul : 0 ∉ text) :
    preview text = some ((text.takeWhile (· ≠ 10)).take 60) := by
  -- the length copied is that of the first line, at most 60
  have hplen : (if (strchr text 10).getD text.length > 60 then 60
      else (strchr text 10).getD text.length) = min (text.takeWhile (· ≠ 10)).length 60 := by
    rw [strchr, findIdx?_getD]
    split <;> omega
  have hcopy : text.take (min (text.takeWhile (· ≠ 10)).length 60)
      = (text.takeWhile (· ≠ 10)).take 60 := by
    rw [Nat.min_comm, ← List.take_take, take_length_takeWhile]
  have hlen : ((text.takeWhile (· ≠ 10)).take 60).length
      = min (text.takeWhile (· ≠ 10)).length 60 := by
    rw [List.length_take, Nat.min_comm]
  have hfree : 0 ∉ (text.takeWhile (· ≠ 10)).take 60 := fun h =>
    hnul ((List.takeWhile_prefix _).subset (List.mem_of_mem_take h))
  simp only [preview, hplen, hcopy]
  rw [← hlen]
  generalize (text.takeWhile (· ≠ 10)).take 60 = shown at hlen hfree
  -- the copy and its NUL fit in the array
  obtain ⟨m, hwrite, hm, hsize⟩ :=
    (holds_nil (Block.calloc (0 : UInt8) 64)).write (t := shown) (by simp; omega)
  obtain ⟨m', hstore, hm', -⟩ := hm.store_end (a := 0) (by
    rw [hsize, Block.size_calloc, List.nil_append]
    omega)
  rw [List.nil_append] at hstore hm'
  rw [show (Block.calloc 0 64).write 0 shown = some m from hwrite]
  show (m.store shown.length 0).bind _ = _
  rw [hstore]
  show m'.string 0 = _
  rw [string_eq hm', show shown.takeWhile (· ≠ 0) = shown from cstr_eq_self hfree]

theorem androidPreview_eq (text : List UInt16) :
    androidPreview (some text) = (text.takeWhile (· ≠ 10)).take 60 := by
  have hfirst : (match text.findIdx? (· == 10) with
      | some nl => text.take nl
      | none => text) = text.takeWhile (· ≠ 10) := by
    have htake := take_length_takeWhile (· ≠ 10) text
    rw [← findIdx?_getD] at htake
    rw [← htake]
    cases text.findIdx? (· == 10) with
    | none => exact List.take_length.symm
    | some nl => rfl
  simp only [androidPreview, hfirst]
  split
  · next h => rw [h]; rfl
  split
  · rfl
  · next h => exact (List.take_of_length_le (Nat.le_of_not_lt h)).symm

/-! ### Whole characters -/

/-- What a list shows of a text: whole characters from the start of its
first line, and all of that line if it has at most 60 units. -/
def ShowsWhole {β : Type*} (enc : Char → List β) (text : List Char) (shown : Option (List β)) :
    Prop :=
  ∃ cs, cs <+: text.takeWhile (· ≠ '\n') ∧ shown = some (encode enc cs) ∧
    ((encode enc (text.takeWhile (· ≠ '\n'))).length ≤ 60 → cs = text.takeWhile (· ≠ '\n'))

/-- The unit after the first 60 of the first line, if there is one, does not
go on with a character. -/
def CutsWhole {β : Type*} (cont : β → Bool) (enc : Char → List β) (text : List Char) : Prop :=
  Starts cont ((encode enc (text.takeWhile (· ≠ '\n'))).drop 60)

theorem showsWhole_iff {β : Type*} {cont : β → Bool} {enc : Char → List β}
    (hsync : SelfSync cont enc) (text : List Char) :
    ShowsWhole enc text (some ((encode enc (text.takeWhile (· ≠ '\n'))).take 60)) ↔
      CutsWhole cont enc text := by
  rw [CutsWhole, ← hsync.take_encode_iff]
  constructor
  · rintro ⟨cs, hcs, hshown, -⟩
    exact ⟨cs, hcs, Option.some.inj hshown⟩
  · rintro ⟨cs, hcs, hshown⟩
    by_cases hlen : (encode enc (text.takeWhile (· ≠ '\n'))).length ≤ 60
    · exact ⟨_, List.prefix_rfl, by rw [List.take_of_length_le hlen], fun _ => rfl⟩
    · exact ⟨cs, hcs, by rw [hshown], fun h => absurd h hlen⟩

theorem selfSync_utf16 : SelfSync isLowSurrogate utf16 := by
  have hlow : ∀ n, isLowSurrogate (UInt16.ofNat n) = true ↔
      0xDC00 ≤ n % 65536 ∧ n % 65536 ≤ 0xDFFF := by
    intro n
    rw [isLowSurrogate, Bool.and_eq_true, decide_eq_true_iff, decide_eq_true_iff,
      UInt16.le_iff_toNat_le, UInt16.le_iff_toNat_le, UInt16.toNat_ofNat']
    rfl
  intro c
  rw [utf16]
  split
  · next hc =>
    refine ⟨_, [], rfl, ?_, nofun⟩
    rw [Bool.eq_false_iff, Ne, hlow]
    have hvalid : c.toNat < 0xD800 ∨ 0xDFFF < c.toNat ∧ c.toNat < 0x110000 := c.valid
    omega
  · next hc =>
    have hvalid : c.toNat < 0xD800 ∨ 0xDFFF < c.toNat ∧ c.toNat < 0x110000 := c.valid
    refine ⟨_, _, rfl, ?_, ?_⟩
    · rw [Bool.eq_false_iff, Ne, hlow]
      omega
    · rw [List.forall_mem_singleton, hlow]
      omega

theorem newline_notMem_utf16 (a : Char) (ha : a ≠ '\n') : 10 ∉ utf16 a := by
  have hten : ∀ n, 10 = UInt16.ofNat n → n % 65536 = 10 := by
    intro n hn
    have h := congrArg UInt16.toNat hn
    rw [UInt16.toNat_ofNat'] at h
    exact h.symm
  have hvalid : a.toNat < 0xD800 ∨ 0xDFFF < a.toNat ∧ a.toNat < 0x110000 := a.valid
  intro hmem
  rw [utf16] at hmem
  split at hmem
  · next hc =>
    have hval := hten _ (List.mem_singleton.mp hmem)
    rw [Nat.mod_eq_of_lt hc] at hval
    exact ha (Char.toNat_inj.mp hval)
  · rcases List.mem_pair.mp hmem with h | h
    · have hval := hten _ h
      omega
    · have hval := hten _ h
      omega

/-- The text a C string holds is the text before its first NUL. -/
theorem cstr_encode (text : List Char) :
    cstr (encode String.utf8EncodeChar text)
      = encode String.utf8EncodeChar (text.takeWhile (· ≠ '\x00')) :=
  takeWhile_encode (utf8EncodeChar_ascii (c := '\x00') (by decide))
    (notMem_utf8EncodeChar (by decide)) text

theorem preview_encode (text : List Char) :
    preview (cstr (encode String.utf8EncodeChar text))
      = some ((encode String.utf8EncodeChar
          ((text.takeWhile (· ≠ '\x00')).takeWhile (· ≠ '\n'))).take 60) := by
  rw [preview_eq (zero_notMem_cstr _), cstr_encode,
    show (10 : UInt8) = UInt8.ofNat '\n'.toNat from rfl,
    takeWhile_encode (utf8EncodeChar_ascii (by decide)) (notMem_utf8EncodeChar (by decide))]

theorem androidPreview_encode (text : List Char) :
    androidPreview (some (encode utf16 text))
      = (encode utf16 (text.takeWhile (· ≠ '\n'))).take 60 := by
  rw [androidPreview_eq, takeWhile_encode (show utf16 '\n' = [10] from rfl) newline_notMem_utf16]

/-- **When the previews are whole characters.**  Both lists show, of every
text, a prefix of its first line made of whole characters, the entire line
if it has at most 60 units, if and only if neither cut falls inside a
character: the first line's byte at index 60 is no continuation byte and
its UTF-16 unit at index 60 is no low surrogate.  The C client's text ends
at its first NUL. -/
theorem previews_whole_iff (text : List Char) :
    (ShowsWhole String.utf8EncodeChar (text.takeWhile (· ≠ '\x00'))
        (preview (cstr (encode String.utf8EncodeChar text))) ∧
      ShowsWhole utf16 text (some (androidPreview (some (encode utf16 text))))) ↔
    CutsWhole u8IsCont String.utf8EncodeChar (text.takeWhile (· ≠ '\x00')) ∧
      CutsWhole isLowSurrogate utf16 text := by
  rw [preview_encode, androidPreview_encode, showsWhole_iff selfSync_utf8,
    showsWhole_iff selfSync_utf16]

/-- 59 letters and `😀`: the C buffer gets the first of its four bytes, the
Java string the first of its two units. -/
theorem previews_cut_character :
    let text := List.replicate 59 'a' ++ ['😀']
    '\x00' ∉ text ∧
      ¬ ShowsWhole String.utf8EncodeChar text
        (preview (cstr (encode String.utf8EncodeChar text))) ∧
      ¬ ShowsWhole utf16 text (some (androidPreview (some (encode utf16 text)))) := by
  intro text
  have hnul : text.takeWhile (· ≠ '\x00') = text := by decide
  refine ⟨by decide, fun hwhole => ?_, fun hwhole => ?_⟩
  · rw [preview_encode, hnul, showsWhole_iff selfSync_utf8] at hwhole
    have hcont : u8IsCont 0x9F = false := hwhole 0x9F (by decide)
    exact absurd hcont (by decide)
  · rw [androidPreview_encode, showsWhole_iff selfSync_utf16] at hwhole
    have hlow : isLowSurrogate 0xDE00 = false := hwhole 0xDE00 (by decide)
    exact absurd hlow (by decide)

end Diary
