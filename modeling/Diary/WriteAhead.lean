/-
Diary/WriteAhead.lean

Copies written ahead of a send that may fail.  Every document has a slot.
Before a text of the document is sent the slot is written with it, and once
the text is acknowledged the slot may be cleared.

`owed` reads off a log which text a document still owes: the one of its last
attempt, until that is acknowledged (`owed_eq_some_iff`).  `Kept` says that
the slot of a document that owes a text holds that text.  Documents may
share a slot; then `Kept` survives a write for one of them, and a clearing,
only if the others owe nothing (`Kept.attempt`, `Kept.clear`).
-/
import Mathlib

namespace WriteAhead

variable {δ τ κ : Type*} [DecidableEq δ]

/-- What a log records about documents `δ` and texts `τ`. -/
inductive Note (δ τ : Type*)
  | attempted (d : δ) (text : τ)
  | acknowledged (d : δ)
deriving DecidableEq

/-- The document a note is about. -/
def Note.doc : Note δ τ → δ
  | .attempted d _ => d
  | .acknowledged d => d

/-- One note more. -/
def owe (o : δ → Option τ) : Note δ τ → δ → Option τ
  | .attempted d text => Function.update o d (some text)
  | .acknowledged d => Function.update o d none

/-- The text each document owes after a log. -/
def owed (log : List (Note δ τ)) : δ → Option τ := log.foldl owe fun _ => none

@[simp] theorem owed_nil : owed ([] : List (Note δ τ)) = fun _ => none := rfl

@[simp] theorem owed_concat (log : List (Note δ τ)) (n : Note δ τ) :
    owed (log ++ [n]) = owe (owed log) n := by
  simp [owed, List.foldl_append]

theorem owe_of_ne {n : Note δ τ} {d : δ} (h : n.doc ≠ d) (o : δ → Option τ) : owe o n d = o d := by
  cases n with
  | attempted d' text => exact Function.update_of_ne (Ne.symm h) _ _
  | acknowledged d' => exact Function.update_of_ne (Ne.symm h) _ _

/-- **What is owed.**  The text was attempted, and no note about the
document follows: neither an acknowledgement nor another attempt. -/
theorem owed_eq_some_iff {log : List (Note δ τ)} {d : δ} {text : τ} :
    owed log d = some text ↔
      ∃ before after, log = before ++ .attempted d text :: after ∧ ∀ n ∈ after, n.doc ≠ d := by
  induction log using List.reverseRecOn with
  | nil => simp
  | append_singleton log n ih =>
      rw [owed_concat]
      constructor
      · intro h
        by_cases hn : n.doc = d
        · -- the last note is about `d`, so it is the attempt
          subst hn
          cases n with
          | attempted d text' =>
              obtain rfl : text' = text := by simpa [owe, Note.doc] using h
              exact ⟨log, [], rfl, nofun⟩
          | acknowledged d => simp [owe, Note.doc] at h
        · rw [owe_of_ne hn] at h
          obtain ⟨before, after, rfl, hafter⟩ := ih.mp h
          refine ⟨before, after ++ [n], by simp, fun m hm => ?_⟩
          rcases List.mem_append.mp hm with hm | hm
          · exact hafter m hm
          · rw [List.mem_singleton.mp hm]
            exact hn
      · rintro ⟨before, after, heq, hafter⟩
        rcases List.eq_nil_or_concat after with rfl | ⟨after, m, rfl⟩
        · obtain ⟨-, rfl⟩ := List.append_singleton_inj.mp heq
          show Function.update (owed log) d (some text) d = some text
          exact Function.update_self _ _ _
        · rw [List.concat_eq_append, ← List.cons_append, ← List.append_assoc] at heq
          obtain ⟨hlog, rfl⟩ := List.append_singleton_inj.mp heq
          rw [owe_of_ne (hafter n (by simp))]
          apply ih.mpr
          exact ⟨before, after, hlog, fun x hx => hafter x (by simp [hx])⟩

/-! ### Slots -/

variable [DecidableEq κ]

/-- The slot of a document that owes a text holds it. -/
def Kept (slot : δ → κ) (disk : κ → Option τ) (o : δ → Option τ) : Prop :=
  ∀ d text, o d = some text → disk (slot d) = some text

variable {slot : δ → κ} {disk : κ → Option τ} {o : δ → Option τ}

/-- Writing the slot of `d` keeps what the documents of other slots owe. -/
theorem Kept.attempt (h : Kept slot disk o) (d : δ) (text : τ)
    (hshare : ∀ d', d' ≠ d → slot d' = slot d → o d' = none) :
    Kept slot (Function.update disk (slot d) (some text)) (owe o (.attempted d text)) := by
  intro d' x hx
  by_cases hd : d' = d
  · subst hd
    simpa [owe] using hx
  · rw [owe_of_ne (Ne.symm hd)] at hx
    have hslot : slot d' ≠ slot d := fun e => by
      rw [hshare d' hd e] at hx
      cases hx
    rw [Function.update_of_ne hslot]
    exact h d' x hx

omit [DecidableEq κ] in
theorem Kept.acknowledge (h : Kept slot disk o) (d : δ) :
    Kept slot disk (owe o (.acknowledged d)) := by
  intro d' x hx
  by_cases hd : d' = d
  · subst hd
    simp [owe] at hx
  · rw [owe_of_ne (Ne.symm hd)] at hx
    exact h d' x hx

omit [DecidableEq δ] in
/-- A slot that nobody owes a text of may be cleared. -/
theorem Kept.clear (h : Kept slot disk o) (k : κ) (hfree : ∀ d, slot d = k → o d = none) :
    Kept slot (Function.update disk k none) o := by
  intro d x hx
  have hslot : slot d ≠ k := fun e => by
    rw [hfree d e] at hx
    cases hx
  rw [Function.update_of_ne hslot]
  exact h d x hx

end WriteAhead
