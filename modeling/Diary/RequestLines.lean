/-
Diary/RequestLines.lean

The request lines of server/client_handler.c that carry a number, over every
payload and every token.

The protocol writes an epoch or an id as a decimal integer literal
(`decimalLiteral`).  The handler reads it by `atol` or `atoi`, which agree
with the literal where there is one in range (`atol_of_literal`) and go on
reading where there is none: blanks and a plus sign before the digits,
anything after them, and for an id any value modulo `2^32`.

* POST: `protocolFields` is the split the protocol describes.
  `post_splits_iff` says of which payloads the handler makes it.  It misses
  an epoch that is not positive, which stays glued to the data, and a first
  token that is no literal but begins like one.
* UPDATE and DELETE: `acts_on_named_iff` says for which tokens the row acted
  on is the one the token names.
-/
import Diary.Handler

namespace Diary

open CString

/-! ### Decimal literals -/

/-- The number a token of digits stands for. -/
def naturalLiteral (s : Bytes) : Option ℕ :=
  if s ≠ [] ∧ s.all isDigit = true then some (digitsVal s) else none

/-- The number a decimal integer literal stands for: an optional minus sign,
and digits. -/
def decimalLiteral (s : Bytes) : Option ℤ :=
  if s.head? = some 45 then (naturalLiteral s.tail).map fun n : ℕ => -(n : ℤ)
  else (naturalLiteral s).map fun n : ℕ => (n : ℤ)

theorem naturalLiteral_eq_some {s : Bytes} {n : ℕ} :
    naturalLiteral s = some n ↔ s ≠ [] ∧ s.all isDigit = true ∧ digitsVal s = n := by
  rw [naturalLiteral]
  split
  · next h => simp [h]
  · next h => simp_all

theorem digitsVal_append {s r : Bytes} (hs : s.all isDigit = true) (hr : StopsDigits r) :
    digitsVal (s ++ r) = digitsVal s := by
  have hall : ∀ c ∈ s, isDigit c = true := List.all_eq_true.mp hs
  simp only [digitsVal]
  rw [takeWhile_isDigit_append hall hr, List.takeWhile_eq_self_iff.mpr hall]

/-- `strtol` reads a literal as the number it stands for, whatever non-digit
follows. -/
theorem strtolVal_of_literal {s r : Bytes} {v : ℤ} (hs : decimalLiteral s = some v)
    (hr : StopsDigits r) : strtolVal (s ++ r) = v := by
  rw [decimalLiteral] at hs
  split at hs
  · next hminus =>
    obtain ⟨n, hn, rfl⟩ := Option.map_eq_some_iff.mp hs
    obtain ⟨-, hall, hval⟩ := naturalLiteral_eq_some.mp hn
    obtain ⟨t, rfl⟩ := List.head?_eq_some_iff.mp hminus
    have hneg : strtolVal (45 :: t ++ r) = -(digitsVal (t ++ r) : ℤ) := by
      simp [strtolVal, show isSpace 45 = false from rfl]
    rw [List.tail_cons] at hall hval
    rw [hneg, digitsVal_append hall hr, hval]
  · obtain ⟨n, hn, rfl⟩ := Option.map_eq_some_iff.mp hs
    obtain ⟨hne, hall, hval⟩ := naturalLiteral_eq_some.mp hn
    obtain ⟨c, t, rfl⟩ := List.exists_cons_of_ne_nil hne
    have hc : isDigit c = true := List.all_eq_true.mp hall c List.mem_cons_self
    rw [strtolVal_of_head (c := c) rfl hc, digitsVal_append hall hr, hval]

/-- Within 64 bits. -/
def InLong (v : ℤ) : Prop := -2 ^ 63 ≤ v ∧ v < 2 ^ 63

instance (v : ℤ) : Decidable (InLong v) := inferInstanceAs (Decidable (_ ∧ _))

theorem toInt_atol {s : Bytes} (h : InLong (strtolVal s)) : (atol s).toInt = strtolVal s :=
  Int64.toInt_ofIntClamp h.1 (Int.le_sub_one_of_lt h.2)

/-- Saturation keeps the sign. -/
theorem atol_pos_iff {s : Bytes} : 0 < (atol s).toInt ↔ 0 < strtolVal s := by
  by_cases hlo : -2 ^ 63 ≤ strtolVal s
  · by_cases hhi : strtolVal s < 2 ^ 63
    · rw [toInt_atol ⟨hlo, hhi⟩]
    · have hmax : (atol s).toInt = 2 ^ 63 - 1 := by
        have hle : ¬ strtolVal s ≤ Int64.maxValue.toInt := by
          rw [Int64.toInt_maxValue]
          omega
        have hge : Int64.minValue.toInt ≤ strtolVal s := hlo
        rw [atol, Int64.ofIntClamp, dif_pos hge, dif_neg hle]
        rfl
      omega
  · have hmin : (atol s).toInt = -2 ^ 63 := by
      have hge : ¬ Int64.minValue.toInt ≤ strtolVal s := hlo
      rw [atol, Int64.ofIntClamp, dif_neg hge]
      rfl
    omega

theorem atol_of_literal {s r : Bytes} {v : ℤ} (hs : decimalLiteral s = some v) (hv : InLong v)
    (hr : StopsDigits r) : (atol (s ++ r)).toInt = v := by
  have hval := strtolVal_of_literal hs hr
  rw [toInt_atol (by rwa [hval]), hval]

/-- A token up to the first blank, and what follows it. -/
theorem strchr_split {s : Bytes} {c : UInt8} {sp : ℕ} (h : strchr s c = some sp) :
    s = s.take sp ++ c :: s.drop (sp + 1) := by
  obtain ⟨hlt, hc, -⟩ := List.findIdx?_eq_some_iff_getElem.mp h
  have hget : s[sp] = c := by simpa using hc
  calc s = s.take sp ++ s.drop sp := (List.take_append_drop sp s).symm
    _ = s.take sp ++ c :: s.drop (sp + 1) := by rw [List.drop_eq_getElem_cons hlt, hget]

/-! ### The two forms of a POST -/

/-- The timestamp and the data the protocol gives a POST payload: an epoch
and a text without blanks, or a payload without blanks, or one whose first
token is no literal.  Of any other payload it says nothing. -/
def protocolFields (now : Int64) (p : Bytes) : Option (Int64 × Bytes) :=
  match strchr p 32 with
  | none => some (now, p)
  | some sp =>
      match decimalLiteral (p.take sp) with
      | none => some (now, p)
      | some e =>
          let d := p.drop (sp + 1)
          if InLong e ∧ d ≠ [] ∧ 32 ∉ d then
            some (if 0 < e then Int64.ofInt e else now, d)
          else none

/-- A POST that is carried out stores the row the protocol says. -/
def PostSplits (db : Db) (env : Env) (user p : Bytes) : Prop :=
  env.done = true → db.entries.seq < maxRowid → ∀ f, protocolFields env.now p = some f →
    (serve db ⟨user, env, lit "POST " ++ p⟩).1
      = { db with entries := db.entries.insert ⟨user, f.1, f.2⟩ }

/-- The epoch of the payload, if it has one, is positive; a first token that
is no literal does not read as a positive number. -/
def EpochPositive (p : Bytes) : Prop :=
  ∀ sp, strchr p 32 = some sp →
    match decimalLiteral (p.take sp) with
    | some e => InLong e → p.drop (sp + 1) ≠ [] → 32 ∉ p.drop (sp + 1) → 0 < e
    | none => strtolVal p ≤ 0

theorem serve_post_payload {db : Db} {env : Env} (user p : Bytes) (hdone : env.done = true)
    (hroom : db.entries.seq < maxRowid) :
    (serve db ⟨user, env, lit "POST " ++ p⟩).1
      = { db with entries :=
            db.entries.insert ⟨user, (postFields env.now p).1, (postFields env.now p).2⟩ } := by
  rw [serve_eq, parseLine_post]
  simp only [perform, storageAddEntry, if_pos (And.intro hdone hroom)]

/-- Two inserts make one table only of one row. -/
theorem insert_inj {t : AutoTable Entry} {a b : Entry} (h : t.insert a = t.insert b) : a = b := by
  have hrow := congrFun (congrArg AutoTable.lookup h) (t.seq + 1)
  simpa [AutoTable.lookup_insert] using hrow

theorem postSplits_iff_fields {db : Db} {env : Env} {user p : Bytes} :
    PostSplits db env user p ↔
      (env.done = true → db.entries.seq < maxRowid →
        ∀ f, protocolFields env.now p = some f → postFields env.now p = f) := by
  refine forall₂_congr fun hdone hroom => forall₂_congr fun f _ => ?_
  rw [serve_post_payload user p hdone hroom]
  constructor
  · intro h
    have hrow := insert_inj (congrArg Db.entries h)
    exact Prod.ext (congrArg Entry.timestamp hrow) (congrArg Entry.data hrow)
  · rintro rfl
    rfl

/-- What the handler makes of a payload with a blank. -/
theorem postFields_of_strchr {now : Int64} {p : Bytes} {sp : ℕ} (hsp : strchr p 32 = some sp) :
    postFields now p
      = if 0 < strtolVal p then (atol p, p.drop (sp + 1)) else (now, p) := by
  simp only [postFields, hsp, atol_pos_iff]

/-- The text behind a blank is not the whole payload. -/
theorem drop_succ_ne {s : Bytes} {c : UInt8} {sp : ℕ} (h : strchr s c = some sp) :
    s.drop (sp + 1) ≠ s := by
  intro heq
  have hlen := congrArg List.length heq
  rw [strchr_split h] at hlen
  simp only [List.length_drop, List.length_append, List.length_cons] at hlen
  omega

theorem fields_agree_iff (now : Int64) (p : Bytes) :
    (∀ f, protocolFields now p = some f → postFields now p = f) ↔ EpochPositive p := by
  rcases hsp : strchr p 32 with - | sp
  · -- a payload without a blank is data
    refine iff_of_true ?_ ?_
    · intro f hf
      simp only [protocolFields, hsp, Option.some.injEq] at hf
      simp only [postFields, hsp, hf]
    · intro sp h
      rw [hsp] at h
      cases h
  have hcond : EpochPositive p ↔
      match decimalLiteral (p.take sp) with
      | some e => InLong e → p.drop (sp + 1) ≠ [] → 32 ∉ p.drop (sp + 1) → 0 < e
      | none => strtolVal p ≤ 0 := by
    simp only [EpochPositive, hsp, Option.some.injEq, forall_eq']
  rw [hcond, postFields_of_strchr hsp]
  rcases hlit : decimalLiteral (p.take sp) with - | e
  · simp only [protocolFields, hsp, hlit, Option.some.injEq, forall_eq']
    by_cases hpos : 0 < strtolVal p
    · rw [if_pos hpos]
      refine iff_of_false (fun h => ?_) (by omega)
      exact drop_succ_ne hsp (congrArg Prod.snd h)
    · rw [if_neg hpos]
      exact iff_of_true rfl (by omega)
  · simp only [protocolFields, hsp, hlit]
    by_cases hform : InLong e ∧ p.drop (sp + 1) ≠ [] ∧ 32 ∉ p.drop (sp + 1)
    · obtain ⟨hlong, hne, hblank⟩ := hform
      -- `atol` stops at the blank
      have hstop : StopsDigits (32 :: p.drop (sp + 1)) := stopsDigits_cons rfl
      have hval := strtolVal_of_literal hlit hstop
      have hatol := atol_of_literal hlit hlong hstop
      rw [← strchr_split hsp] at hval hatol
      have hts : Int64.ofInt e = atol p := by
        rw [← hatol, Int64.ofInt_toInt]
      simp only [hlong, hne, hblank, not_false_eq_true, ne_eq, and_self, if_true,
        Option.some.injEq, forall_eq', true_implies, hval]
      by_cases hpos : 0 < e
      · rw [if_pos hpos, if_pos hpos, hts]
        exact iff_of_true rfl hpos
      · rw [if_neg hpos, if_neg hpos]
        refine iff_of_false (fun h => ?_) hpos
        exact drop_succ_ne hsp (congrArg Prod.snd h).symm
    · rw [if_neg hform]
      refine iff_of_true nofun ?_
      intro h1 h2 h3
      exact absurd ⟨h1, h2, h3⟩ hform

/-- **When a POST is split as the protocol says.**  Over every table, user and
payload: exactly when an epoch in the payload is positive and no other first
token reads as a positive number. -/
theorem post_splits_iff (db : Db) (env : Env) (user p : Bytes) :
    PostSplits db env user p ↔
      (env.done = true → db.entries.seq < maxRowid → EpochPositive p) := by
  rw [postSplits_iff_fields]
  exact forall₂_congr fun _ _ => fields_agree_iff env.now p

/-- An epoch of zero stays glued to the data. -/
theorem post_epoch_zero :
    ¬ PostSplits Db.fresh ⟨1000, true, true, []⟩ (lit "ab") (lit "0 QUJD") := by
  intro h
  have hfields := postSplits_iff_fields.mp h rfl (by decide) (1000, lit "QUJD") (by decide)
  exact absurd hfields (by decide)

/-! ### The two requests that name an entry -/

/-- A request line around the token that names an entry. -/
inductive Naming
  | delete
  | update (data : Bytes)

def Naming.line (a : Bytes) : Naming → Bytes
  | .delete => lit "DELETE " ++ a
  | .update data => lit "UPDATE " ++ (a ++ 32 :: data)

/-- The token of an UPDATE ends at the first blank. -/
def Naming.Token (a : Bytes) : Naming → Prop
  | .delete => True
  | .update _ => 32 ∉ a

/-- What the request is for: the named row is removed, or its data replaced. -/
def Naming.change : Naming → Entry → Option Entry
  | .delete, _ => none
  | .update data, e => some { e with data := data }

/-- The token is the decimal numeral of the id of a row. -/
def Names (db : Db) (a : Bytes) : Prop :=
  ∃ (k : ℕ) (e : Entry), decimalLiteral a = some (k : ℤ) ∧ db.entries.lookup k = some e

/-- A request acts on nothing but the row its token names: a row that changed
is that row, and a token that names no row is answered FAIL and changes
nothing. -/
structure ActsOnNamed (db : Db) (r : Request) (a : Bytes) : Prop where
  changed : ∀ k, (serve db r).1.entries.lookup k ≠ db.entries.lookup k →
    decimalLiteral a = some (k : ℤ)
  refused : ¬ Names db a → (∃ why, (serve db r).2 = .fail why) ∧ (serve db r).1 = db

/-- If `atoi` reads the id of a row of the user, the token is the numeral of
that id; or else the request leaves that row's data as they were, and the
token is the numeral of another row's id. -/
def ReadsAsNamed (db : Db) (env : Env) (user a : Bytes) (form : Naming) : Prop :=
  env.done = true → ∀ e, db.entries.lookup (atoi a).toNatClampNeg = some e →
    e.authPubkey = user →
      decimalLiteral a = some (atoi a).toInt ∨ form.change e = some e ∧ Names db a

theorem parseLine_naming (now : Int64) {a : Bytes} {form : Naming} (ha : form.Token a) :
    parseLine now (form.line a)
      = match form with
        | .delete => .delete (atoi a)
        | .update data => .update (atoi a) data := by
  cases form with
  | delete =>
      simp [Naming.line, parseLine, show lit "QUIT" = [81, 85, 73, 84] from rfl,
        show lit "POST " = [80, 79, 83, 84, 32] from rfl,
        show lit "GET" = [71, 69, 84] from rfl,
        show lit "UPDATE " = [85, 80, 68, 65, 84, 69, 32] from rfl,
        show lit "DELETE " = [68, 69, 76, 69, 84, 69, 32] from rfl]
  | update data =>
      have hsp : strchr (a ++ 32 :: data) 32 = some a.length := strchr_append ha
      simp [Naming.line, parseLine, show lit "QUIT" = [81, 85, 73, 84] from rfl,
        show lit "POST " = [80, 79, 83, 84, 32] from rfl,
        show lit "GET" = [71, 69, 84] from rfl,
        show lit "UPDATE " = [85, 80, 68, 65, 84, 69, 32] from rfl, hsp]

/-- What the two requests do: change the row of the user that `atoi` reads,
or fail. -/
theorem serve_naming_cases (db : Db) (env : Env) (user : Bytes) {a : Bytes} {form : Naming}
    (ha : form.Token a) :
    (∃ e, env.done = true ∧ db.entries.lookup (atoi a).toNatClampNeg = some e ∧
      e.authPubkey = user ∧ (serve db ⟨user, env, form.line a⟩).2 = .ok ∧
      (serve db ⟨user, env, form.line a⟩).1.entries.lookup
        = Function.update db.entries.lookup (atoi a).toNatClampNeg (form.change e)) ∨
    (env.done = true → ∀ e, db.entries.lookup (atoi a).toNatClampNeg = some e →
      e.authPubkey ≠ user) ∧ serve db ⟨user, env, form.line a⟩ = (db, .fail .notFound) := by
  rw [serve_eq, parseLine_naming env.now ha]
  cases form with
  | delete =>
      rcases storageDeleteEntry_cases env.done user (atoi a) db with ⟨e, hd, he, hu, h⟩ | h
      · refine Or.inl ⟨e, hd, he, hu, by simp [perform, h], ?_⟩
        simp only [perform, h, lookup_remove_namedBy he hu, Naming.change]
      · refine Or.inr ⟨?_, by simp [perform, h]⟩
        intro hd e he hu
        -- a row that is there and is the own one is found
        have hpos := count_namedBy_pos.mpr ⟨e, he, hu⟩
        rw [hd] at h
        simp [storageDeleteEntry, hpos] at h
  | update data =>
      rcases storageUpdateEntry_cases env.done user (atoi a) data db with ⟨e, hd, he, hu, h⟩ | h
      · refine Or.inl ⟨e, hd, he, hu, by simp [perform, h], ?_⟩
        simp only [perform, h, lookup_modify_namedBy he hu, Naming.change]
      · refine Or.inr ⟨?_, by simp [perform, h]⟩
        intro hd e he hu
        have hpos := count_namedBy_pos.mpr ⟨e, he, hu⟩
        rw [hd] at h
        simp [storageUpdateEntry, hpos] at h

/-- A request that does not leave its row as it was changes that row alone. -/
theorem Naming.update_ne_iff (form : Naming) {db : Db} {id : ℕ} {e : Entry}
    (h : form.change e ≠ some e) (he : db.entries.lookup id = some e) (k : ℕ) :
    Function.update db.entries.lookup id (form.change e) k ≠ db.entries.lookup k ↔ k = id := by
  by_cases hk : k = id
  · subst hk
    rw [Function.update_self, he]
    exact iff_of_true h rfl
  · rw [Function.update_of_ne hk]
    exact iff_of_false (fun hne => hne rfl) hk

/-- A row under the id `atoi` reads. -/
theorem toInt_atoi_of_lookup {db : Db} {a : Bytes} {e : Entry}
    (he : db.entries.lookup (atoi a).toNatClampNeg = some e) :
    ((atoi a).toNatClampNeg : ℤ) = (atoi a).toInt := by
  have hpos := db.entries.pos _ (AutoTable.lookup_eq_some_iff.mp he)
  rw [← Int32.toNat_toInt] at hpos ⊢
  simp only at hpos
  omega

/-- A request that acted, on the row that `atoi` reads. -/
theorem actsOnNamed_iff_of_row {db : Db} {env : Env} {user a : Bytes} {form : Naming} {e : Entry}
    (he : db.entries.lookup (atoi a).toNatClampNeg = some e)
    (hreply : (serve db ⟨user, env, form.line a⟩).2 = .ok)
    (hmap : (serve db ⟨user, env, form.line a⟩).1.entries.lookup
      = Function.update db.entries.lookup (atoi a).toNatClampNeg (form.change e)) :
    ActsOnNamed db ⟨user, env, form.line a⟩ a ↔
      decimalLiteral a = some (atoi a).toInt ∨ form.change e = some e ∧ Names db a := by
  have hid := toInt_atoi_of_lookup he
  constructor
  · intro h
    -- either the row is changed, or it is given the data it has
    by_cases hch : form.change e = some e
    · refine Or.inr ⟨hch, ?_⟩
      by_contra hnames
      obtain ⟨⟨why, hwhy⟩, -⟩ := h.refused hnames
      rw [hreply] at hwhy
      cases hwhy
    · refine Or.inl ?_
      -- the changed row must be the one the literal names
      have hrow := h.changed (atoi a).toNatClampNeg (by
        rw [hmap]
        exact (form.update_ne_iff hch he _).mpr rfl)
      rw [hrow, hid]
  · rintro (hlit | ⟨hch, hnames⟩)
    · -- the row that changes is the one named
      rw [← hid] at hlit
      refine ⟨?_, fun hnames => absurd ⟨_, e, hlit, he⟩ hnames⟩
      intro k hk
      rw [hmap] at hk
      by_cases hkid : k = (atoi a).toNatClampNeg
      · rw [hkid]
        exact hlit
      · exact absurd (Function.update_of_ne hkid _ _) hk
    · refine ⟨?_, fun hn => absurd hnames hn⟩
      intro k hk
      rw [hmap, hch, ← he, Function.update_eq_self] at hk
      exact absurd rfl hk

/-- A request that failed acts on nothing. -/
theorem actsOnNamed_of_fail {db : Db} {r : Request} {a : Bytes} {why : Failure}
    (h : serve db r = (db, .fail why)) : ActsOnNamed db r a := by
  constructor
  · intro k hk
    rw [h] at hk
    exact absurd rfl hk
  · intro _
    rw [h]
    exact ⟨⟨why, rfl⟩, rfl⟩

/-- **When an UPDATE or a DELETE acts on the entry its line names.**  Over
every table, user and token: exactly when `atoi` of the token is not the id
of a row of the user, unless the token is the numeral of that id. -/
theorem acts_on_named_iff (db : Db) (env : Env) (user a : Bytes) (form : Naming)
    (ha : form.Token a) :
    ActsOnNamed db ⟨user, env, form.line a⟩ a ↔ ReadsAsNamed db env user a form := by
  rcases serve_naming_cases db env user ha with ⟨e, hd, he, hu, hreply, hmap⟩ | ⟨hnone, hfail⟩
  · rw [actsOnNamed_iff_of_row he hreply hmap]
    constructor
    · intro h _ e' he' _
      obtain rfl : e = e' := by
        rw [he] at he'
        exact Option.some.inj he'
      exact h
    · exact fun h => h hd e he hu
  · refine iff_of_true (actsOnNamed_of_fail hfail) ?_
    intro hd e he hu
    exact absurd hu (hnone hd e he)

/-- A table with one row, of id 1. -/
def oneRow : Db := { Db.fresh with entries := AutoTable.empty.insert ⟨lit "ab", 5, lit "QUJD"⟩ }

theorem acts_on_named_delete_one :
    ActsOnNamed oneRow ⟨lit "ab", ⟨1000, true, true, []⟩, Naming.delete.line (lit "1")⟩
      (lit "1") := by
  refine (acts_on_named_iff oneRow _ (lit "ab") (lit "1") .delete trivial).mpr ?_
  intro _ _ _ _
  exact Or.inl (by decide)

/-- The numeral of an id that no row has, equal to 1 modulo `2^32`. -/
theorem delete_beyond_int :
    ¬ ActsOnNamed oneRow ⟨lit "ab", ⟨1000, true, true, []⟩, lit "DELETE 4294967297"⟩
      (lit "4294967297") := by
  intro h
  have hrow := h.changed 1 (by decide)
  exact absurd hrow (by decide)

end Diary
