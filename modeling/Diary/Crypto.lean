/-
Diary/Crypto.lean

Crypto.java and the native functions behind it, cpp/diary_crypto.c.

libsodium is a parameter (`Sodium`), and a Java array is a block of memory:
`none` is an access outside of it, or an array no one can allocate.  None of
the native functions looks at the length of a key.  `authPkFromSk` copies
from offset 32 on, and libsodium reads 64 bytes of an Ed25519 key and 32 of
an X25519 key, so they stay inside their arrays exactly if the keys are at
least that long (`construct_isSome_iff`, and `signChallenge_eq` for the
signature the server asks for).

What is sealed to base64 is opened again, whatever the text, and the string
is the one it was if its surrogates are paired (`unseal_sealToBase64`).
-/
import Diary.AndroidReply
import Diary.JavaString

namespace Diary

open CString Memory

/-! ### Base64 -/

/-- The character of six bits. -/
def base64Digit (n : ℕ) : UInt8 :=
  if n < 26 then UInt8.ofNat (65 + n)
  else if n < 52 then UInt8.ofNat (71 + n)
  else if n < 62 then UInt8.ofNat (n - 4)
  else if n = 62 then 43
  else 47

/-- `Crypto.encodeBase64`: `Base64.encodeToString` with `NO_WRAP`. -/
def encodeBase64 : Bytes → Bytes
  | a :: b :: c :: data =>
      base64Digit (a.toNat / 4) :: base64Digit (a.toNat % 4 * 16 + b.toNat / 16)
        :: base64Digit (b.toNat % 16 * 4 + c.toNat / 64) :: base64Digit (c.toNat % 64)
        :: encodeBase64 data
  | [a, b] =>
      [base64Digit (a.toNat / 4), base64Digit (a.toNat % 4 * 16 + b.toNat / 16),
        base64Digit (b.toNat % 16 * 4), 61]
  | [a] => [base64Digit (a.toNat / 4), base64Digit (a.toNat % 4 * 16), 61, 61]
  | [] => []

theorem sextet_base64Digit : ∀ n < 64, sextet (base64Digit n) = some n := by decide

theorem base64Digit_inert : ∀ n < 64, base64Digit n ≠ 32 ∧ isBreak (base64Digit n) = false := by
  decide

theorem base64From_digit {state n : ℕ} (hstate : state < 3) (hn : n < 64) (value : ℕ)
    (s : Bytes) :
    base64From state value (base64Digit n :: s) = base64From (state + 1) (value * 64 + n) s := by
  rw [base64From, sextet_base64Digit n hn]
  exact if_pos hstate

theorem base64From_last {n : ℕ} (hn : n < 64) (value : ℕ) (s : Bytes) :
    base64From 3 value (base64Digit n :: s)
      = (base64From 0 0 s).map fun out =>
          UInt8.ofNat ((value * 64 + n) / 65536) :: UInt8.ofNat ((value * 64 + n) / 256)
            :: UInt8.ofNat (value * 64 + n) :: out := by
  rw [base64From, sextet_base64Digit n hn]
  rfl

theorem ofNat_eq_of_mod {n : ℕ} {a : UInt8} (h : n % 256 = a.toNat) : UInt8.ofNat n = a := by
  rw [← UInt8.toNat_inj, UInt8.toNat_ofNat', h]

/-- **Round trip** of `encodeBase64` and `decodeBase64`. -/
theorem decodeBase64_encodeBase64 (data : Bytes) :
    decodeBase64 (encodeBase64 data) = some data := by
  induction data using encodeBase64.induct with
  | case1 a b c data ih =>
      have ha := a.toNat_lt
      have hb := b.toNat_lt
      have hc := c.toNat_lt
      rw [decodeBase64] at ih
      rw [decodeBase64, encodeBase64, base64From_digit (by omega) (by omega),
        base64From_digit (by omega) (by omega), base64From_digit (by omega) (by omega),
        base64From_last (by omega), ih, Option.map_some]
      congr 2
      · exact ofNat_eq_of_mod (by omega)
      · congr 1
        · exact ofNat_eq_of_mod (by omega)
        · congr 1
          exact ofNat_eq_of_mod (by omega)
  | case2 a b =>
      have ha := a.toNat_lt
      have hb := b.toNat_lt
      rw [decodeBase64, encodeBase64, base64From_digit (by omega) (by omega),
        base64From_digit (by omega) (by omega), base64From_digit (by omega) (by omega)]
      show some [_, _] = _
      congr 2
      · exact ofNat_eq_of_mod (by omega)
      · congr 1
        exact ofNat_eq_of_mod (by omega)
  | case3 a =>
      have ha := a.toNat_lt
      rw [decodeBase64, encodeBase64, base64From_digit (by omega) (by omega),
        base64From_digit (by omega) (by omega)]
      show some [_] = _
      congr 2
      exact ofNat_eq_of_mod (by omega)
  | case4 => rfl

/-- No blank and no line break in base64. -/
theorem inert_of_mem_encodeBase64 (data : Bytes) :
    ∀ c ∈ encodeBase64 data, c ≠ 32 ∧ isBreak c = false := by
  have hpad : (61 : UInt8) ≠ 32 ∧ isBreak 61 = false := by decide
  induction data using encodeBase64.induct with
  | case1 a b c data ih =>
      have ha := a.toNat_lt
      have hb := b.toNat_lt
      have hc := c.toNat_lt
      simp only [encodeBase64, List.forall_mem_cons]
      exact ⟨base64Digit_inert _ (by omega), base64Digit_inert _ (by omega),
        base64Digit_inert _ (by omega), base64Digit_inert _ (by omega), ih⟩
  | case2 a b =>
      have ha := a.toNat_lt
      have hb := b.toNat_lt
      simp only [encodeBase64, List.forall_mem_cons]
      exact ⟨base64Digit_inert _ (by omega), base64Digit_inert _ (by omega),
        base64Digit_inert _ (by omega), hpad, nofun⟩
  | case3 a =>
      have ha := a.toNat_lt
      simp only [encodeBase64, List.forall_mem_cons]
      exact ⟨base64Digit_inert _ (by omega), base64Digit_inert _ (by omega), hpad, hpad, nofun⟩
  | case4 => exact nofun

theorem encodeBase64_ne_nil {data : Bytes} (h : data ≠ []) : encodeBase64 data ≠ [] := by
  rcases data with - | ⟨a, - | ⟨b, - | ⟨c, data⟩⟩⟩
  · exact absurd rfl h
  all_goals exact List.cons_ne_nil _ _

/-! ### The native functions -/

/-- What the native code uses of libsodium, on as many bytes of the keys as
the library reads. -/
structure Sodium (ν : Type*) where
  /-- `crypto_scalarmult_base` -/
  scalarmultBase : Bytes → Bytes
  /-- `crypto_sign_detached`, of a message under a key -/
  signDetached : Bytes → Bytes → Bytes
  /-- `crypto_box_seal`, of a message to a public key -/
  boxSeal : ν → Bytes → Bytes → Bytes
  /-- `crypto_box_seal_open`, of a cipher text with both keys -/
  boxSealOpen : Bytes → Bytes → Bytes → Option Bytes

/-- The lengths libsodium documents, and that a sealed box opens with the
keys it was sealed to. -/
structure Sodium.Lawful {ν : Type*} (S : Sodium ν) : Prop where
  length_scalarmultBase : ∀ sk, (S.scalarmultBase sk).length = 32
  length_signDetached : ∀ msg sk, (S.signDetached msg sk).length = 64
  length_boxSeal : ∀ n msg pk, (S.boxSeal n msg pk).length = msg.length + 48
  open_seal : ∀ n msg sk, sk.length = 32 →
    S.boxSealOpen (S.boxSeal n msg (S.scalarmultBase sk)) (S.scalarmultBase sk) sk = some msg

variable {ν : Type*} (S : Sodium ν)

/-- `GetByteArrayElements`. -/
def elements (array : Bytes) : Block UInt8 := ⟨array.map some⟩

/-- `NewByteArray`; an array has at most `2^31 - 1` elements. -/
def newByteArray (n : ℕ) : Option (Block UInt8) :=
  if n < 2 ^ 31 then some (Block.calloc 0 n) else none

/-- `ReleaseByteArrayElements`: the array as Java sees it. -/
def release (m : Block UInt8) : Option Bytes := m.loads 0 m.size

/-- `authPkFromSk`. -/
def authPkFromSk (authSk : Bytes) : Option Bytes := do
  let pk ← newByteArray 32
  let copied ← (elements authSk).loads 32 32
  let pk ← pk.write 0 copied
  release pk

/-- `encPkFromSk`. -/
def encPkFromSk (encSk : Bytes) : Option Bytes := do
  let pk ← newByteArray 32
  let sk ← (elements encSk).loads 0 32
  let pk ← pk.write 0 (S.scalarmultBase sk)
  release pk

/-- `signChallenge`. -/
def signChallenge (challenge authSk : Bytes) : Option Bytes := do
  let sig ← newByteArray 64
  let sk ← (elements authSk).loads 0 64
  let sig ← sig.write 0 (S.signDetached challenge sk)
  release sig

/-- `seal`. -/
def nativeSeal (n : ν) (msg encPk : Bytes) : Option Bytes := do
  let cipher ← newByteArray (msg.length + 48)
  let pk ← (elements encPk).loads 0 32
  let cipher ← cipher.write 0 (S.boxSeal n msg pk)
  release cipher

/-- `unseal`; `some none` is `null`. -/
def nativeUnseal (cipher encPk encSk : Bytes) : Option (Option Bytes) :=
  if cipher.length < 48 then some none
  else do
    let plain ← newByteArray (cipher.length - 48)
    let pk ← (elements encPk).loads 0 32
    let sk ← (elements encSk).loads 0 32
    match S.boxSealOpen cipher pk sk with
    | none => some none
    | some msg => do
        let plain ← plain.write 0 msg
        (release plain).map some

/-! ### Crypto.java -/

/-- `Crypto.sealToBase64`. -/
def sealToBase64 (n : ν) (plaintext : List UInt16) (encPk : Bytes) : Option Bytes :=
  (nativeSeal S n (getBytes plaintext) encPk).map encodeBase64

/-- `Crypto.unsealFromBase64`; `none` is an exception or worse, `some none`
is `null`. -/
def unsealToString (b64 encPk encSk : Bytes) : Option (Option (List UInt16)) := do
  let cipher ← decodeBase64 b64
  let plain ← nativeUnseal S cipher encPk encSk
  some (plain.map newString)

/-- The keys of a `DiaryConnection`. -/
structure ConnectionKeys where
  authSk : Bytes
  authPk : Bytes
  encPk : Bytes
  encSk : Bytes
deriving DecidableEq

/-- The constructor of `DiaryConnection`. -/
def ConnectionKeys.construct (authSk encSk : Bytes) : Option ConnectionKeys := do
  let authPk ← authPkFromSk authSk
  let encPk ← encPkFromSk S encSk
  some ⟨authSk, authPk, encPk, encSk⟩

/-! ### Inside the arrays -/

theorem elements_loads {array : Bytes} {i n : ℕ} :
    (elements array).loads i n
      = if i + n ≤ array.length then some ((array.drop i).take n) else none := by
  have hsize : (elements array).size = array.length := List.length_map _
  split
  · next h => exact loads_eq (m := elements array) (List.prefix_refl _) h
  · next h => rw [Block.loads, hsize, if_neg h]

theorem release_write {n : ℕ} {s : Bytes} (h : s.length = n) :
    ((Block.calloc 0 n).write 0 s).bind release = some s := by
  obtain ⟨m, hwrite, hm, hsize⟩ :=
    (holds_nil (Block.calloc (0 : UInt8) n)).write (t := s) (by simp [h])
  rw [List.nil_append] at hm
  rw [Block.size_calloc] at hsize
  rw [show (Block.calloc 0 n).write 0 s = some m from hwrite]
  show m.loads 0 m.size = some s
  rw [hsize, loads_eq hm (by omega), List.drop_zero, ← h, List.take_length]

theorem newByteArray_of_lt {n : ℕ} (h : n < 2 ^ 31) :
    newByteArray n = some (Block.calloc 0 n) := if_pos h

theorem authPkFromSk_eq (authSk : Bytes) :
    authPkFromSk authSk
      = if 64 ≤ authSk.length then some ((authSk.drop 32).take 32) else none := by
  rw [authPkFromSk, newByteArray_of_lt (by decide), elements_loads]
  simp only [Option.bind_eq_bind, Option.bind_some]
  split
  · next h => exact release_write (by rw [List.length_take, List.length_drop]; omega)
  · rfl

variable {S}

theorem encPkFromSk_eq (hS : S.Lawful) (encSk : Bytes) :
    encPkFromSk S encSk
      = if 32 ≤ encSk.length then some (S.scalarmultBase (encSk.take 32)) else none := by
  rw [encPkFromSk, newByteArray_of_lt (by decide), elements_loads]
  simp only [Option.bind_eq_bind, Option.bind_some, Nat.zero_add, List.drop_zero]
  split
  · exact release_write (hS.length_scalarmultBase _)
  · rfl

theorem signChallenge_eq (hS : S.Lawful) (challenge authSk : Bytes) :
    signChallenge S challenge authSk
      = if 64 ≤ authSk.length then some (S.signDetached challenge (authSk.take 64))
        else none := by
  rw [signChallenge, newByteArray_of_lt (by decide), elements_loads]
  simp only [Option.bind_eq_bind, Option.bind_some, Nat.zero_add, List.drop_zero]
  split
  · exact release_write (hS.length_signDetached _ _)
  · rfl

theorem nativeSeal_eq (hS : S.Lawful) {n : ν} {msg encPk : Bytes} (hpk : encPk.length = 32) :
    nativeSeal S n msg encPk
      = if msg.length + 48 < 2 ^ 31 then some (S.boxSeal n msg encPk) else none := by
  rw [nativeSeal, elements_loads, if_pos (by omega), List.drop_zero,
    List.take_of_length_le (by omega : encPk.length ≤ 32)]
  simp only [Option.bind_eq_bind]
  split
  · next h =>
    rw [newByteArray_of_lt h]
    exact release_write (hS.length_boxSeal _ _ _)
  · next h =>
    rw [newByteArray, if_neg h]
    rfl

/-- What was sealed is unsealed. -/
theorem nativeUnseal_boxSeal (hS : S.Lawful) {n : ν} {msg encSk : Bytes} (hsk : 32 ≤ encSk.length)
    (hmsg : msg.length + 48 < 2 ^ 31) :
    nativeUnseal S (S.boxSeal n msg (S.scalarmultBase (encSk.take 32)))
      (S.scalarmultBase (encSk.take 32)) encSk = some (some msg) := by
  have hlen := hS.length_boxSeal n msg (S.scalarmultBase (encSk.take 32))
  have hpk := hS.length_scalarmultBase (encSk.take 32)
  have hopen := hS.open_seal n msg (encSk.take 32) (by rw [List.length_take]; omega)
  rw [nativeUnseal, if_neg (by omega), newByteArray_of_lt (by omega), elements_loads,
    elements_loads, if_pos (by omega), if_pos (by omega), List.drop_zero, List.drop_zero,
    List.take_of_length_le (by omega : (S.scalarmultBase (encSk.take 32)).length ≤ 32)]
  simp only [Option.bind_eq_bind, Option.bind_some, hopen]
  have hplain := release_write (n := (S.boxSeal n msg
    (S.scalarmultBase (encSk.take 32))).length - 48) (s := msg) (by omega)
  obtain ⟨m, hwrite, hrelease⟩ := Option.bind_eq_some_iff.mp hplain
  rw [hwrite, Option.bind_some, hrelease]
  rfl

/-- The native functions of the constructor stay inside their arrays iff the
keys are long enough. -/
theorem construct_isSome_iff (hS : S.Lawful) {authSk encSk : Bytes} :
    (ConnectionKeys.construct S authSk encSk).isSome ↔
      64 ≤ authSk.length ∧ 32 ≤ encSk.length := by
  rw [ConnectionKeys.construct, authPkFromSk_eq, encPkFromSk_eq hS]
  by_cases hauth : 64 ≤ authSk.length
  · by_cases henc : 32 ≤ encSk.length <;> simp [hauth, henc]
  · simp [hauth]

theorem construct_eq_some_iff (hS : S.Lawful) {authSk encSk : Bytes} {keys : ConnectionKeys} :
    ConnectionKeys.construct S authSk encSk = some keys ↔
      (64 ≤ authSk.length ∧ 32 ≤ encSk.length) ∧
        keys = ⟨authSk, (authSk.drop 32).take 32, S.scalarmultBase (encSk.take 32), encSk⟩ := by
  rw [ConnectionKeys.construct, authPkFromSk_eq, encPkFromSk_eq hS]
  by_cases hauth : 64 ≤ authSk.length
  · by_cases henc : 32 ≤ encSk.length
    · simp [hauth, henc, eq_comm]
    · simp [henc]
  · simp [hauth]

/-! ### Sealed and opened -/

/-- The largest text the native code can seal.  The array that
`Base64.encodeToString` makes of it is taken to be there; above some 1.6 GB it
would have to be longer than an array can be. -/
def Sealable (text : List UInt16) : Prop := (getBytes text).length + 48 < 2 ^ 31

instance (text : List UInt16) : Decidable (Sealable text) :=
  inferInstanceAs (Decidable (_ < _))

theorem sealToBase64_eq (hS : S.Lawful) {n : ν} {text : List UInt16} {encPk : Bytes}
    (hpk : encPk.length = 32) (htext : Sealable text) :
    sealToBase64 S n text encPk = some (encodeBase64 (S.boxSeal n (getBytes text) encPk)) := by
  rw [sealToBase64, nativeSeal_eq hS hpk, if_pos (show _ < _ from htext)]
  rfl

/-- Bytes in a box of the user's are opened as the string they make. -/
theorem unsealToString_boxSeal (hS : S.Lawful) {n : ν} {msg encSk b64 : Bytes}
    (hsk : 32 ≤ encSk.length) (hmsg : msg.length + 48 < 2 ^ 31)
    (hb64 : decodeBase64 b64 = some (S.boxSeal n msg (S.scalarmultBase (encSk.take 32)))) :
    unsealToString S b64 (S.scalarmultBase (encSk.take 32)) encSk
      = some (some (newString msg)) := by
  rw [unsealToString, hb64]
  simp only [Option.bind_eq_bind, Option.bind_some, nativeUnseal_boxSeal hS hsk hmsg,
    Option.map_some]

/-- **A text comes back.**  With keys a connection can be made with, every
text the native code can seal becomes one word of a line, and is opened
again as the text it was if and only if its surrogates are paired. -/
theorem text_comes_back_iff {S : Sodium ν} (hS : S.Lawful) (n : ν) {authSk encSk : Bytes}
    {keys : ConnectionKeys} (hkeys : ConnectionKeys.construct S authSk encSk = some keys)
    (text : List UInt16) (htext : Sealable text) :
    ∃ b64, sealToBase64 S n text keys.encPk = some b64 ∧ b64 ≠ [] ∧
      (∀ c ∈ b64, c ≠ 32 ∧ isBreak c = false) ∧
      (unsealToString S b64 keys.encPk keys.encSk = some (some text) ↔ Paired text) := by
  obtain ⟨⟨hauth, henc⟩, rfl⟩ := (construct_eq_some_iff hS).mp hkeys
  have hbox := hS.length_boxSeal n (getBytes text) (S.scalarmultBase (encSk.take 32))
  refine ⟨_, sealToBase64_eq hS (hS.length_scalarmultBase _) htext, ?_,
    inert_of_mem_encodeBase64 _, ?_⟩
  · apply encodeBase64_ne_nil
    exact List.ne_nil_of_length_pos (hbox ▸ Nat.succ_pos _)
  · simp only [unsealToString_boxSeal hS henc htext (decodeBase64_encodeBase64 _),
      Option.some.injEq]
    exact newString_getBytes_iff

/-- A library that hides nothing: the box shows the key and the message. -/
def openBoxes : Sodium Unit where
  scalarmultBase sk := (sk ++ List.replicate 32 0).take 32
  signDetached _ _ := List.replicate 64 0
  boxSeal _ msg pk := (pk ++ List.replicate 48 0).take 48 ++ msg
  boxSealOpen cipher pk _ := if pk.isPrefixOf cipher then some (cipher.drop 48) else none

theorem openBoxes_lawful : openBoxes.Lawful where
  length_scalarmultBase sk := by simp [openBoxes]
  length_signDetached _ _ := rfl
  length_boxSeal _ msg pk := by
    simp [openBoxes]
    omega
  open_seal n msg sk hsk := by
    have hpk : openBoxes.scalarmultBase sk = sk := by
      show (sk ++ List.replicate 32 0).take 32 = sk
      rw [← hsk, List.take_left]
    have hbox : openBoxes.boxSeal n msg sk = sk ++ (List.replicate 16 0 ++ msg) := by
      show (sk ++ List.replicate 48 0).take 48 ++ msg = _
      rw [List.take_append, List.take_of_length_le (by omega), List.take_replicate, hsk,
        List.append_assoc]
      rfl
    rw [hpk, hbox]
    show (if sk.isPrefixOf _ = true then some (List.drop 48 _) else none) = _
    rw [if_pos (List.isPrefixOf_iff_prefix.mpr (List.prefix_append _ _)), List.drop_append,
      List.drop_eq_nil_of_le (by omega), hsk]
    rfl

/-- An accent and a pair come back. -/
theorem text_comes_back_pair :
    let authSk : Bytes := List.replicate 64 1
    let encSk : Bytes := List.replicate 32 2
    ∃ keys b64, ConnectionKeys.construct openBoxes authSk encSk = some keys ∧
      sealToBase64 openBoxes () [0xE9, 0xD83D, 0xDE00] keys.encPk = some b64 ∧
      unsealToString openBoxes b64 keys.encPk keys.encSk = some (some [0xE9, 0xD83D, 0xDE00]) := by
  intro authSk encSk
  have hkeys : ConnectionKeys.construct openBoxes authSk encSk
      = some ⟨authSk, (authSk.drop 32).take 32, openBoxes.scalarmultBase (encSk.take 32), encSk⟩ :=
    (construct_eq_some_iff openBoxes_lawful).mpr ⟨⟨by decide, by decide⟩, rfl⟩
  obtain ⟨b64, hseal, -, -, hback⟩ := text_comes_back_iff openBoxes_lawful () hkeys
    [0xE9, 0xD83D, 0xDE00] (by decide)
  exact ⟨_, b64, hkeys, hseal, hback.mpr (by decide)⟩

/-- Half of a pair does not. -/
example : newString (getBytes [0xD83D, 0x21]) = [0x3F, 0x21] := by decide

end Diary
