/-
Diary/Machine.lean

Runs of a deterministic machine that answers every input: `final` is the
state a list of inputs leads to, `trace` the list of inputs with their
answers.

`Throughout` says that every step of a run meets a condition on the state it
starts from and its input, `Simulates` that an abstract machine can follow
the run, related to the machine after every input.  These rules carry an
argument about one step to whole runs:

* `final_invariant`: what every step preserves holds at the end;
* `exists_step_of_final`, `origin`: what holds only at the end began at some
  step, and at one of the steps at which it can begin;
* `throughout_invariant`: what every step that meets a condition preserves
  holds at the end of a run whose steps all meet it;
* `throughout_induction`: induction over such a run from its right end;
* `throughout_congr`: two conditions that agree under an invariant, which
  the first of them preserves, hold throughout the same runs;
* `throughout_invariant_until`, `throughout_congr_until`: the same for runs
  that end in a condition which can only be lost;
* `monitor`: a ghost state that only watches the trace (what was asked and
  what was answered) and is related to the machine's state by a relation
  every step preserves, is related to it at the end;
* `simulates`: what can be followed for one step can be followed for a run;
* `follows`: the same for an abstract machine that gives the answers as well;
* `defined_iff_throughout`: a machine that may be undefined follows as long
  as every step meets a condition.
-/
import Mathlib

namespace Machine

variable {σ ι ω μ : Type*} (step : σ → ι → σ × ω)

/-- The state after a list of inputs. -/
def final (s : σ) (is : List ι) : σ := is.foldl (fun s i => (step s i).1) s

/-- The inputs of a run, each with its answer. -/
def trace : σ → List ι → List (ι × ω)
  | _, [] => []
  | s, i :: is => (i, (step s i).2) :: trace (step s i).1 is

@[simp] theorem final_nil (s : σ) : final step s [] = s := rfl

@[simp] theorem final_cons (s : σ) (i : ι) (is : List ι) :
    final step s (i :: is) = final step (step s i).1 is := rfl

theorem final_append (s : σ) (is js : List ι) :
    final step s (is ++ js) = final step (final step s is) js := by
  simp [final, List.foldl_append]

@[simp] theorem final_concat (s : σ) (is : List ι) (i : ι) :
    final step s (is ++ [i]) = (step (final step s is) i).1 := by
  simp [final_append]

@[simp] theorem trace_nil (s : σ) : trace step s [] = [] := rfl

@[simp] theorem trace_cons (s : σ) (i : ι) (is : List ι) :
    trace step s (i :: is) = (i, (step s i).2) :: trace step (step s i).1 is := rfl

theorem trace_append (s : σ) (is js : List ι) :
    trace step s (is ++ js) = trace step s is ++ trace step (final step s is) js := by
  induction is generalizing s with
  | nil => rfl
  | cons i is ih => simp [ih]

@[simp] theorem trace_concat (s : σ) (is : List ι) (i : ι) :
    trace step s (is ++ [i]) = trace step s is ++ [(i, (step (final step s is) i).2)] := by
  simp [trace_append]

/-- An entry of the trace is a step from the state the inputs before it led
to. -/
theorem mem_trace_iff {s : σ} {is : List ι} {p : ι × ω} :
    p ∈ trace step s is ↔
      ∃ js i ks, is = js ++ i :: ks ∧ p = (i, (step (final step s js) i).2) := by
  induction is generalizing s with
  | nil => simp
  | cons i is ih =>
      rw [trace_cons, List.mem_cons, ih]
      constructor
      · rintro (rfl | ⟨js, j, ks, rfl, rfl⟩)
        · exact ⟨[], i, is, rfl, rfl⟩
        · exact ⟨i :: js, j, ks, rfl, rfl⟩
      · rintro ⟨js, j, ks, heq, rfl⟩
        cases js with
        | nil =>
            obtain ⟨rfl, rfl⟩ := List.cons.inj heq
            exact Or.inl rfl
        | cons j' js =>
            obtain ⟨rfl, rfl⟩ := List.cons.inj heq
            exact Or.inr ⟨js, j, ks, rfl, rfl⟩

variable {step}

/-- What every step preserves holds after every run. -/
theorem final_invariant {I : σ → Prop} (hstep : ∀ s i, I s → I (step s i).1) {s : σ}
    (hs : I s) (is : List ι) : I (final step s is) := by
  induction is generalizing s with
  | nil => exact hs
  | cons i is ih => exact ih (hstep s i hs)

/-- What can only be lost, and holds at the end, held at the start. -/
theorem of_final {B : σ → Prop} (hB : ∀ s i, B (step s i).1 → B s) {s : σ} (is : List ι)
    (hend : B (final step s is)) : B s := by
  induction is generalizing s with
  | nil => exact hend
  | cons i is ih => exact hB s i (ih hend)

/-- What holds at the end and not at the start began to hold at some step of
the run. -/
theorem exists_step_of_final {P : σ → Prop} {s : σ} (is : List ι) (hs : ¬ P s)
    (hend : P (final step s is)) :
    ∃ js i ks, is = js ++ i :: ks ∧ ¬ P (final step s js) ∧ P (step (final step s js) i).1 := by
  induction is generalizing s with
  | nil => exact absurd hend hs
  | cons i is ih =>
      by_cases hP : P (step s i).1
      · exact ⟨[], i, is, rfl, hs, hP⟩
      · obtain ⟨js, j, ks, rfl, hnot, hthen⟩ := ih hP hend
        exact ⟨i :: js, j, ks, rfl, hnot, hthen⟩

variable (step) in
/-- Some step of the run meets `Q`. -/
def Sometime (Q : σ → ι → Prop) (s : σ) (is : List ι) : Prop :=
  ∃ js i ks, is = js ++ i :: ks ∧ Q (final step s js) i

theorem Sometime.append {Q : σ → ι → Prop} {s : σ} {is : List ι} (h : Sometime step Q s is)
    (js : List ι) : Sometime step Q s (is ++ js) := by
  obtain ⟨ks, i, ls, rfl, hQ⟩ := h
  exact ⟨ks, i, ls ++ js, by rw [List.append_assoc, List.cons_append], hQ⟩

theorem Sometime.prepend {Q : σ → ι → Prop} {s : σ} (js : List ι) {is : List ι}
    (h : Sometime step Q (final step s js) is) : Sometime step Q s (js ++ is) := by
  obtain ⟨ks, i, ls, rfl, hQ⟩ := h
  refine ⟨js ++ ks, i, ls, by rw [List.append_assoc], ?_⟩
  rwa [final_append]

theorem Sometime.imp {Q R : σ → ι → Prop} (hQR : ∀ s i, Q s i → R s i) {s : σ} {is : List ι}
    (h : Sometime step Q s is) : Sometime step R s is := by
  obtain ⟨ks, i, ls, his, hQ⟩ := h
  exact ⟨ks, i, ls, his, hQR _ i hQ⟩

/-- **Origin rule.**  What holds only at the end began at a step that meets
`Q`, if it begins at such steps only. -/
theorem origin {P : σ → Prop} {Q : σ → ι → Prop}
    (hstep : ∀ s i, ¬ P s → P (step s i).1 → Q s i) {s : σ} (is : List ι) (hs : ¬ P s)
    (hend : P (final step s is)) : Sometime step Q s is := by
  obtain ⟨js, i, ks, his, hnot, hthen⟩ := exists_step_of_final is hs hend
  exact ⟨js, i, ks, his, hstep _ i hnot hthen⟩

/-- **Monitor rule.**  `note` updates a ghost state from one input and its
answer.  If every step that keeps `B` at its end preserves the relation `R`
between the state and the ghost state, and `B` can only be lost, then `R`
holds at the end of every run that ends in `B`. -/
theorem monitor {note : μ → ι × ω → μ} {R : σ → μ → Prop} {B : σ → Prop}
    (hB : ∀ s i, B (step s i).1 → B s)
    (hstep : ∀ s m i, B (step s i).1 → R s m → R (step s i).1 (note m (i, (step s i).2)))
    {s : σ} {m : μ} (hs : R s m) (is : List ι) (hend : B (final step s is)) :
    R (final step s is) ((trace step s is).foldl note m) := by
  induction is generalizing s m with
  | nil => exact hs
  | cons i is ih =>
      exact ih (hstep s m i (of_final hB is hend) hs) hend

/-- **History rule.**  The ghost state is the trace so far. -/
theorem history {R : σ → List (ι × ω) → Prop}
    (hstep : ∀ s tr i, R s tr → R (step s i).1 (tr ++ [(i, (step s i).2)])) {s : σ}
    {tr : List (ι × ω)} (hs : R s tr) (is : List ι) :
    R (final step s is) (tr ++ trace step s is) := by
  induction is generalizing s tr with
  | nil => simpa using hs
  | cons i is ih =>
      rw [trace_cons, List.append_cons]
      exact ih (hstep s tr i hs)

/-! ### Conditions on every step -/

variable (step)

/-- Every step of the run meets `Q`. -/
def Throughout (Q : σ → ι → Prop) : σ → List ι → Prop
  | _, [] => True
  | s, i :: is => Q s i ∧ Throughout Q (step s i).1 is

variable {step}

instance decidableThroughout {Q : σ → ι → Prop} [∀ s i, Decidable (Q s i)] :
    ∀ s is, Decidable (Throughout step Q s is)
  | _, [] => isTrue trivial
  | s, i :: is => @instDecidableAnd _ _ _ (decidableThroughout (step s i).1 is)

theorem throughout_append {Q : σ → ι → Prop} {s : σ} {is js : List ι} :
    Throughout step Q s (is ++ js) ↔
      Throughout step Q s is ∧ Throughout step Q (final step s is) js := by
  induction is generalizing s with
  | nil => simp [Throughout]
  | cons i is ih => exact (and_congr_right fun _ => ih).trans and_assoc.symm

/-- What every step that meets `Q` preserves holds after every run of such
steps. -/
theorem throughout_invariant {I : σ → Prop} {Q : σ → ι → Prop}
    (hstep : ∀ s i, I s → Q s i → I (step s i).1) {s : σ} (hs : I s) (is : List ι)
    (hrun : Throughout step Q s is) : I (final step s is) := by
  induction is generalizing s with
  | nil => exact hs
  | cons i is ih => exact ih (hstep s i hs hrun.1) hrun.2

/-- Induction over a run from its right end: what is claimed of a run may
speak of its state, its trace and its inputs. -/
theorem throughout_induction {Q : σ → ι → Prop} {P : List ι → Prop} {s : σ} (nil : P [])
    (concat : ∀ is i, Q (final step s is) i → P is → P (is ++ [i])) (is : List ι)
    (hrun : Throughout step Q s is) : P is := by
  induction is using List.reverseRecOn with
  | nil => exact nil
  | append_singleton is i ih =>
      obtain ⟨his, hi, -⟩ := throughout_append.mp hrun
      exact concat is i hi (ih his)

theorem throughout_iff_forall {Q : σ → ι → Prop} {s : σ} {is : List ι} :
    Throughout step Q s is ↔ ∀ js i ks, is = js ++ i :: ks → Q (final step s js) i := by
  induction is generalizing s with
  | nil => simp [Throughout]
  | cons i is ih =>
      constructor
      · rintro ⟨hQ, hrest⟩ js j ks heq
        cases js with
        | nil =>
            obtain ⟨rfl, rfl⟩ := List.cons.inj heq
            exact hQ
        | cons j' js =>
            obtain ⟨rfl, rfl⟩ := List.cons.inj heq
            exact ih.mp hrest js j ks rfl
      · intro h
        exact ⟨h [] i is rfl, ih.mpr fun js j ks heq => h (i :: js) j ks (by rw [heq]; rfl)⟩

theorem throughout_and {Q R : σ → ι → Prop} {s : σ} {is : List ι} :
    Throughout step (fun s i => Q s i ∧ R s i) s is ↔
      Throughout step Q s is ∧ Throughout step R s is := by
  induction is generalizing s with
  | nil => simp [Throughout]
  | cons i is ih => exact (and_congr_right fun _ => ih).trans and_and_and_comm

/-- A condition on the inputs alone. -/
theorem throughout_of_inputs {Q : ι → Prop} {s : σ} {is : List ι} (h : ∀ i ∈ is, Q i) :
    Throughout step (fun _ => Q) s is := by
  induction is generalizing s with
  | nil => trivial
  | cons i is ih =>
      exact ⟨h i List.mem_cons_self, ih fun j hj => h j (List.mem_cons_of_mem _ hj)⟩

/-- The same for runs that end in `B`, which can only be lost: the steps
preserve the invariant as long as `B` holds. -/
theorem throughout_invariant_until {I B : σ → Prop} {Q : σ → ι → Prop}
    (hB : ∀ s i, B (step s i).1 → B s)
    (hstep : ∀ s i, B (step s i).1 → I s → Q s i → I (step s i).1) {s : σ} (hs : I s)
    (is : List ι) (hrun : Throughout step Q s is) (hend : B (final step s is)) :
    I (final step s is) := by
  induction is generalizing s with
  | nil => exact hs
  | cons i is ih => exact ih (hstep s i (of_final hB is hend) hs hrun.1) hrun.2 hend

theorem throughout_congr {I : σ → Prop} {Q R : σ → ι → Prop}
    (hQR : ∀ s i, I s → (Q s i ↔ R s i)) (hI : ∀ s i, I s → Q s i → I (step s i).1) {s : σ}
    (hs : I s) (is : List ι) : Throughout step Q s is ↔ Throughout step R s is := by
  induction is generalizing s with
  | nil => exact Iff.rfl
  | cons i is ih =>
      constructor
      · rintro ⟨hQ, hrest⟩
        exact ⟨(hQR s i hs).mp hQ, (ih (hI s i hs hQ)).mp hrest⟩
      · rintro ⟨hR, hrest⟩
        have hQ := (hQR s i hs).mpr hR
        exact ⟨hQ, (ih (hI s i hs hQ)).mpr hrest⟩

theorem throughout_congr_until {I B : σ → Prop} {Q R : σ → ι → Prop}
    (hB : ∀ s i, B (step s i).1 → B s) (hQR : ∀ s i, B s → I s → (Q s i ↔ R s i))
    (hI : ∀ s i, B (step s i).1 → I s → I (step s i).1) {s : σ} (hs : I s) (is : List ι)
    (hend : B (final step s is)) : Throughout step Q s is ↔ Throughout step R s is := by
  induction is generalizing s with
  | nil => exact Iff.rfl
  | cons i is ih =>
      have hnext : B (step s i).1 := of_final hB is hend
      exact and_congr (hQR s i (hB s i hnext) hs) (ih (hI s i hnext hs) hend)

/-! ### Simulation -/

section Simulation

variable {α : Type*}

/-- From the state `s` and the abstract state `a`, an abstract machine whose
steps are `spec` can follow the run, related by `R` after every input. -/
def Simulates (next : σ → ι → σ) (R : σ → α → Prop) (spec : ι → α → α → Prop) :
    σ → α → List ι → Prop
  | s, a, [] => R s a
  | s, a, i :: is => R s a ∧ ∃ a', spec i a a' ∧ Simulates next R spec (next s i) a' is

/-- **Simulation rule.** -/
theorem simulates {next : σ → ι → σ} {R : σ → α → Prop} {spec : ι → α → α → Prop}
    (hstep : ∀ s a i, R s a → ∃ a', spec i a a' ∧ R (next s i) a') {s : σ} {a : α} (h : R s a)
    (is : List ι) : Simulates next R spec s a is := by
  induction is generalizing s a with
  | nil => exact h
  | cons i is ih =>
      obtain ⟨a', hspec, hR⟩ := hstep s a i h
      exact ⟨h, a', hspec, ih hR⟩

theorem Simulates.imp {next : σ → ι → σ} {R R' : σ → α → Prop} {spec : ι → α → α → Prop}
    (himp : ∀ s a, R s a → R' s a) {s : σ} {a : α} {is : List ι}
    (h : Simulates next R spec s a is) : Simulates next R' spec s a is := by
  induction is generalizing s a with
  | nil => exact himp s a h
  | cons i is ih =>
      obtain ⟨hR, a', hspec, hrest⟩ := h
      exact ⟨himp s a hR, a', hspec, ih hrest⟩

/-- An abstract machine, whose steps are `spec`, can go from one state to
another over a trace, giving the answers in it. -/
inductive Follows (spec : ι → ω → α → α → Prop) : α → List (ι × ω) → α → Prop
  | nil {a} : Follows spec a [] a
  | cons {a b c i o ps} (hstep : spec i o a b) (hrest : Follows spec b ps c) :
      Follows spec a ((i, o) :: ps) c

/-- What every abstract step over an entry of the trace preserves holds at
the end. -/
theorem Follows.invariant {spec : ι → ω → α → α → Prop} {I : α → Prop} {a c : α}
    {ps : List (ι × ω)} (hstep : ∀ i o b b', (i, o) ∈ ps → spec i o b b' → I b → I b')
    (h : Follows spec a ps c) (ha : I a) : I c := by
  induction h with
  | nil => exact ha
  | cons hs hrest ih =>
      exact ih (fun i o b b' hmem => hstep i o b b' (List.mem_cons_of_mem _ hmem))
        (hstep _ _ _ _ List.mem_cons_self hs ha)

/-- **Simulation with answers.**  If every step that meets `Q` and keeps `B`
at its end can be followed with its answer, and `B` can only be lost, then
every run of such steps that ends in `B` can be followed. -/
theorem follows {B : σ → Prop} {Q : ι → Prop} {R : σ → α → Prop} {spec : ι → ω → α → α → Prop}
    (hB : ∀ s i, B (step s i).1 → B s)
    (hstep : ∀ s a i, B (step s i).1 → Q i → R s a →
      ∃ a', spec i (step s i).2 a a' ∧ R (step s i).1 a') {s : σ} {a : α} (hs : R s a)
    (is : List ι) (hQ : ∀ i ∈ is, Q i) (hend : B (final step s is)) :
    ∃ a', Follows spec a (trace step s is) a' ∧ R (final step s is) a' := by
  induction is generalizing s a with
  | nil => exact ⟨a, .nil, hs⟩
  | cons i is ih =>
      obtain ⟨b, hspec, hR⟩ := hstep s a i (of_final hB is hend) (hQ i List.mem_cons_self) hs
      obtain ⟨c, hfollows, hc⟩ := ih hR (fun j hj => hQ j (List.mem_cons_of_mem _ hj)) hend
      exact ⟨c, .cons hspec hfollows, hc⟩

/-- A machine whose steps may be undefined follows `step` as long as every
step meets `Q`, and is undefined where one does not. -/
theorem defined_iff_throughout {κ : Type*} {run : α → κ → Option α} {f : κ → ι}
    {R : α → σ → Prop} {Q : σ → ι → Prop}
    (hdef : ∀ a s k, R a s → Q s (f k) → ∃ a', run a k = some a' ∧ R a' (step s (f k)).1)
    (hundef : ∀ a s k, R a s → ¬ Q s (f k) → run a k = none) {a : α} {s : σ} (h : R a s)
    (ks : List κ) :
    ((∃ a', ks.foldlM run a = some a') ↔ Throughout step Q s (ks.map f)) ∧
      ∀ a', ks.foldlM run a = some a' → R a' (final step s (ks.map f)) := by
  induction ks generalizing a s with
  | nil =>
      refine ⟨iff_of_true ⟨a, rfl⟩ trivial, fun a' ha' => ?_⟩
      obtain rfl : a = a' := Option.some.inj ha'
      exact h
  | cons k ks ih =>
      rw [List.foldlM_cons]
      by_cases hQ : Q s (f k)
      · -- the first step is defined, and the rest is by induction
        obtain ⟨a', ha', hR⟩ := hdef a s k h hQ
        obtain ⟨hiff, hfinal⟩ := ih hR
        rw [ha', Option.bind_eq_bind, Option.bind_some]
        exact ⟨hiff.trans (and_iff_right hQ).symm, hfinal⟩
      · rw [hundef a s k h hQ]
        refine ⟨iff_of_false ?_ fun hrun => hQ hrun.1, ?_⟩
        · rintro ⟨a', ha'⟩
          cases ha'
        · intro a' ha'
          cases ha'

end Simulation

end Machine
