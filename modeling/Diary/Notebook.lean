/-
Diary/Notebook.lean

What a user has of the program: a notebook of dated pages, each under a
number of its own.  `Notebook.Step` says what a request may do to it and how
it is answered, and knows nothing of tables, lines or ciphertexts.

What a user relies on: a text that was noted is there (`has_noted`) and stays
(`has_kept`).
-/
import Diary.Machine

namespace Diary

open Machine

/-! ### Pages -/

/-- A page: its number, its time and its text. -/
structure Page where
  id : ℤ
  timestamp : ℤ
  text : List UInt8
deriving DecidableEq

/-- The page under a number with another text. -/
def Page.withText (id : ℤ) (text : List UInt8) (n : Page) : Page :=
  if n.id = id then { n with text := text } else n

@[simp] theorem Page.withText_id (id : ℤ) (text : List UInt8) (n : Page) :
    (Page.withText id text n).id = n.id := by
  rw [withText]
  split <;> rfl

/-- The pages in the order they were begun, and the greatest number ever
given to one. -/
@[ext] structure Notebook where
  pages : List Page
  last : ℤ
  ascending : pages.Pairwise fun a b => a.id < b.id
  positive : ∀ n ∈ pages, 0 < n.id
  le_last : ∀ n ∈ pages, n.id ≤ last

namespace Notebook

def empty : Notebook where
  pages := []
  last := 0
  ascending := List.Pairwise.nil
  positive := nofun
  le_last := nofun

/-- A page is begun, under a number that no page has had. -/
def begin (nb : Notebook) (id timestamp : ℤ) (text : List UInt8) (hlast : nb.last < id)
    (hpos : 0 < id) : Notebook where
  pages := nb.pages ++ [⟨id, timestamp, text⟩]
  last := id
  ascending := by
    refine List.pairwise_append.mpr ⟨nb.ascending, List.pairwise_singleton _ _, ?_⟩
    intro a ha b hb
    obtain rfl := List.mem_singleton.mp hb
    exact lt_of_le_of_lt (nb.le_last a ha) hlast
  positive := by
    intro n hn
    rcases List.mem_append.mp hn with hn | hn
    · exact nb.positive n hn
    · obtain rfl := List.mem_singleton.mp hn
      exact hpos
  le_last := by
    intro n hn
    rcases List.mem_append.mp hn with hn | hn
    · exact (nb.le_last n hn).trans hlast.le
    · obtain rfl := List.mem_singleton.mp hn
      exact le_refl _

/-- The text of a page is replaced. -/
def rewrite (nb : Notebook) (id : ℤ) (text : List UInt8) : Notebook where
  pages := nb.pages.map (Page.withText id text)
  last := nb.last
  ascending := by
    refine List.pairwise_map.mpr (nb.ascending.imp fun h => ?_)
    rwa [Page.withText_id, Page.withText_id]
  positive := by
    intro n hn
    obtain ⟨m, hm, rfl⟩ := List.mem_map.mp hn
    rw [Page.withText_id]
    exact nb.positive m hm
  le_last := by
    intro n hn
    obtain ⟨m, hm, rfl⟩ := List.mem_map.mp hn
    rw [Page.withText_id]
    exact nb.le_last m hm

/-- A page is torn out. -/
def remove (nb : Notebook) (id : ℤ) : Notebook where
  pages := nb.pages.filter fun n => n.id ≠ id
  last := nb.last
  ascending := nb.ascending.filter _
  positive := fun n hn => nb.positive n (List.mem_filter.mp hn).1
  le_last := fun n hn => nb.le_last n (List.mem_filter.mp hn).1

end Notebook

/-! ### Requests -/

/-- What is asked of a notebook. -/
inductive NotebookRequest
  | write (text : List UInt8) (timestamp : ℤ)
  | rewrite (id : ℤ) (text : List UInt8)
  | remove (id : ℤ)
  | read
deriving DecidableEq

/-- What is answered. -/
inductive NotebookAnswer
  | noted (id : ℤ)
  | removed
  | pages (ns : List Page)
  | refused
deriving DecidableEq

/-- The number a request is about. -/
def NotebookRequest.names : NotebookRequest → Option ℤ
  | .rewrite id _ | .remove id => some id
  | .write _ _ | .read => none

/-- A step of the notebook, of which at most `limit` pages are read.  Unless
everything it needs is granted a request may be refused, and a reading may
leave pages out; beyond that only a number that is not there is refused. -/
inductive Notebook.Step (limit : ℕ) (granted : Bool) :
    NotebookRequest → NotebookAnswer → Notebook → Notebook → Prop
  | write {nb : Notebook} {text timestamp id} (hlast : nb.last < id) (hpos : 0 < id) :
      Notebook.Step limit granted (.write text timestamp) (.noted id) nb
        (nb.begin id timestamp text hlast hpos)
  | rewrite {nb : Notebook} {id text} (hid : id ∈ nb.pages.map Page.id) :
      Notebook.Step limit granted (.rewrite id text) (.noted id) nb (nb.rewrite id text)
  | remove {nb : Notebook} {id} (hid : id ∈ nb.pages.map Page.id) :
      Notebook.Step limit granted (.remove id) .removed nb (nb.remove id)
  | read {nb : Notebook} {ns} (hsub : ns.Sublist nb.pages)
      (hall : granted = true → ns = nb.pages.take limit) :
      Notebook.Step limit granted .read (.pages ns) nb nb
  | refuse {nb : Notebook} {r : NotebookRequest}
      (hwhy : granted = true → ∃ id, r.names = some id ∧ id ∉ nb.pages.map Page.id) :
      Notebook.Step limit granted r .refused nb nb

/-- The text a request carries. -/
def NotebookRequest.text : NotebookRequest → Option (List UInt8)
  | .write text _ | .rewrite _ text => some text
  | .remove _ | .read => none

/-! ### What is written stays -/

/-- There is a page under this number with this text. -/
def Notebook.Has (nb : Notebook) (id : ℤ) (text : List UInt8) : Prop :=
  ∃ n ∈ nb.pages, n.id = id ∧ n.text = text

namespace Notebook.Step

variable {limit : ℕ} {granted : Bool} {r : NotebookRequest} {answer : NotebookAnswer}
  {nb nb' : Notebook} {id : ℤ} {text : List UInt8}

/-- A text that is noted is there. -/
theorem has_noted (h : Step limit granted r (.noted id) nb nb') (ht : r.text = some text) :
    nb'.Has id text := by
  cases h with
  | write hlast hpos =>
      obtain rfl := Option.some.inj ht
      exact ⟨_, List.mem_append_right _ (List.mem_singleton_self _), rfl, rfl⟩
  | rewrite hid =>
      obtain rfl := Option.some.inj ht
      obtain ⟨n, hn, rfl⟩ := List.mem_map.mp hid
      exact ⟨_, List.mem_map_of_mem hn, Page.withText_id _ _ n, by rw [Page.withText, if_pos rfl]⟩

/-- A text that is there stays, unless a request about its number is not
refused. -/
theorem has_kept (h : Step limit granted r answer nb nb')
    (hother : r.names = some id → answer = .refused) (hhas : nb.Has id text) :
    nb'.Has id text := by
  obtain ⟨n, hn, rfl, rfl⟩ := hhas
  cases h with
  | write hlast hpos => exact ⟨n, List.mem_append_left _ hn, rfl, rfl⟩
  | @rewrite _ id text hid =>
      have hne : n.id ≠ id := fun heq => by cases hother (congrArg some heq.symm)
      exact ⟨n, List.mem_map.mpr ⟨n, hn, by rw [Page.withText, if_neg hne]⟩, rfl, rfl⟩
  | @remove _ id hid =>
      have hne : n.id ≠ id := fun heq => by cases hother (congrArg some heq.symm)
      exact ⟨n, List.mem_filter.mpr ⟨hn, by simpa using hne⟩, rfl, rfl⟩
  | read hsub hall => exact ⟨n, hn, rfl, rfl⟩
  | refuse hwhy => exact ⟨n, hn, rfl, rfl⟩

/-- Numbers given out are greater than all before. -/
theorem last_le (h : Step limit granted r answer nb nb') : nb.last ≤ nb'.last := by
  cases h with
  | write hlast hpos => exact hlast.le
  | rewrite | remove | read | refuse => exact le_refl _

end Notebook.Step

end Diary
