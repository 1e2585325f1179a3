import Mathlib.Tactic

/-!
# Deterministic machines that may fail

A machine is a step function `σ → ι → Except ε σ`, or one that also answers
with an output. `run` and `trace` feed it a list of inputs; the first error
ends the run.

Results:
* `run_history`, `trace_history`: the induction over a run. The invariant may
  mention the inputs read so far, newest first, and only has to be kept on
  admissible input lists.
* `run_history_of_forall`, `run_invariant`: the special cases of inputs that are
  admissible one by one, and of an invariant of the state alone.
* `trace_history` compares the outputs with those of a total reference machine.
* `trace_all`, `step_ok_of_trace`: outputs judged one by one, and a run without an
  error as the absence of one in every step.
-/

namespace StepperSynth.Common

section Run

variable {σ ι ε : Type*}

/-- The steps for the inputs `is`, in order. -/
def run (step : σ → ι → Except ε σ) : σ → List ι → Except ε σ
  | s, [] => .ok s
  | s, i :: is =>
    match step s i with
    | .error e => .error e
    | .ok s' => run step s' is

variable {step : σ → ι → Except ε σ}

@[simp] theorem run_nil (s : σ) : run step s [] = .ok s := rfl

theorem run_cons_ok {s s' : σ} {i : ι} (h : step s i = .ok s') (is : List ι) :
    run step s (i :: is) = run step s' is := by
  rw [run, h]

theorem run_append_ok {s s' : σ} {is : List ι} (h : run step s is = .ok s') (js : List ι) :
    run step s (is ++ js) = run step s' js := by
  induction is generalizing s with
  | nil => cases h; rfl
  | cons i is ih =>
    cases hs : step s i with
    | error e => rw [run, hs] at h; cases h
    | ok t =>
      rw [run_cons_ok hs] at h
      rw [List.cons_append, run_cons_ok hs, ih h]

/-- What a run keeps, step by step. `R` relates the inputs read so far, newest
    first, to the state; `adm` says which input lists are considered. -/
theorem run_history (R : List ι → σ → Prop) (adm : List ι → Prop)
    (htail : ∀ i h, adm (i :: h) → adm h)
    (hstep : ∀ h s i, adm (i :: h) → R h s → ∃ s', step s i = .ok s' ∧ R (i :: h) s')
    {s : σ} (h0 : R [] s) :
    ∀ is : List ι, adm is.reverse → ∃ s', run step s is = .ok s' ∧ R is.reverse s' := by
  intro is
  induction is using List.reverseRecOn with
  | nil => intro _; exact ⟨s, rfl, h0⟩
  | append_singleton is i ih =>
    intro hadm
    rw [List.reverse_append, List.reverse_singleton, List.singleton_append] at hadm ⊢
    obtain ⟨t, ht, hR⟩ := ih (htail _ _ hadm)
    obtain ⟨s', hs', hR'⟩ := hstep _ _ _ hadm hR
    exact ⟨s', by rw [run_append_ok ht, run_cons_ok hs', run_nil], hR'⟩

/-- The case where the inputs are admissible one by one. -/
theorem run_history_of_forall {R : List ι → σ → Prop} {ok : ι → Prop}
    (hstep : ∀ h s i, (∀ j ∈ i :: h, ok j) → R h s →
      ∃ s', step s i = .ok s' ∧ R (i :: h) s')
    {s : σ} (h0 : R [] s) (is : List ι) (hok : ∀ i ∈ is, ok i) :
    ∃ s', run step s is = .ok s' ∧ R is.reverse s' :=
  run_history R (fun h => ∀ i ∈ h, ok i) (fun _ _ h j hj => h j (List.mem_cons_of_mem _ hj))
    hstep h0 is fun i hi => hok i (List.mem_reverse.mp hi)

/-- An invariant of the state that every admissible input keeps. -/
theorem run_invariant {P : σ → Prop} {ok : ι → Prop}
    (hstep : ∀ s i, ok i → P s → ∃ s', step s i = .ok s' ∧ P s')
    {s : σ} (h0 : P s) (is : List ι) (hok : ∀ i ∈ is, ok i) :
    ∃ s', run step s is = .ok s' ∧ P s' :=
  run_history_of_forall (fun _ s i h hP => hstep s i (h i List.mem_cons_self) hP) h0 is hok

end Run

section Trace

variable {σ τ ι ω ε : Type*}

/-- A run that also collects the outputs, oldest first. -/
def trace (step : σ → ι → Except ε (σ × ω)) : σ → List ι → Except ε (σ × List ω)
  | s, [] => .ok (s, [])
  | s, i :: is =>
    match step s i with
    | .error e => .error e
    | .ok (s', o) =>
      match trace step s' is with
      | .error e => .error e
      | .ok (t, os) => .ok (t, o :: os)

/-- The outputs of a machine that never fails. -/
def refTrace (astep : τ → ι → τ × ω) : τ → List ι → τ × List ω
  | t, [] => (t, [])
  | t, i :: is =>
    let r := refTrace astep (astep t i).1 is
    (r.1, (astep t i).2 :: r.2)

variable {step : σ → ι → Except ε (σ × ω)} {astep : τ → ι → τ × ω}

theorem trace_cons_ok {s s' t : σ} {i : ι} {o : ω} {is : List ι} {os : List ω}
    (h : step s i = .ok (s', o)) (ht : trace step s' is = .ok (t, os)) :
    trace step s (i :: is) = .ok (t, o :: os) := by
  rw [trace, h]; simp only [ht]

/-- Admissibility that survives dropping the newest input survives dropping any
    number of them. -/
theorem adm_of_append {adm : List ι → Prop} (htail : ∀ i h, adm (i :: h) → adm h)
    (js h : List ι) (hadm : adm (js ++ h)) : adm h := by
  induction js with
  | nil => exact hadm
  | cons j js ih => exact ih (htail _ _ hadm)

/-- **Forward simulation.** If related states answer every admissible input
    alike and stay related, the machine produces the outputs of the reference
    machine. The relation may mention the inputs read so far, newest first. -/
theorem trace_history (R : List ι → σ → τ → Prop) (adm : List ι → Prop)
    (htail : ∀ i h, adm (i :: h) → adm h)
    (hstep : ∀ h s t i, adm (i :: h) → R h s t →
      ∃ s', step s i = .ok (s', (astep t i).2) ∧ R (i :: h) s' (astep t i).1) :
    ∀ (is h : List ι) (s : σ) (t : τ), adm (is.reverse ++ h) → R h s t →
      ∃ s', trace step s is = .ok (s', (refTrace astep t is).2) ∧
        R (is.reverse ++ h) s' (refTrace astep t is).1 := by
  intro is
  induction is with
  | nil => intro h s t _ hR; exact ⟨s, rfl, hR⟩
  | cons i is ih =>
    intro h s t hadm hR
    rw [List.reverse_cons, List.append_assoc, List.singleton_append] at hadm ⊢
    obtain ⟨s', hs', hR'⟩ := hstep h s t i (adm_of_append htail _ _ hadm) hR
    obtain ⟨u, hu, hRu⟩ := ih (i :: h) s' _ hadm hR'
    exact ⟨u, trace_cons_ok hs' hu, hRu⟩

/-- If every admissible input is answered well in any state, so are all inputs of
    a run. -/
theorem trace_all {ok : ι → Prop} {R : ι → ω → Prop}
    (hstep : ∀ s i, ok i → ∃ s' o, step s i = .ok (s', o) ∧ R i o) (s : σ) (is : List ι)
    (hok : ∀ i ∈ is, ok i) : ∃ s' os, trace step s is = .ok (s', os) ∧ List.Forall₂ R is os := by
  induction is generalizing s with
  | nil => exact ⟨s, [], rfl, .nil⟩
  | cons i is ih =>
    obtain ⟨s', o, hs', hR⟩ := hstep s i (hok i List.mem_cons_self)
    obtain ⟨t, os, ht, hos⟩ := ih s' fun j hj => hok j (List.mem_cons_of_mem _ hj)
    exact ⟨t, o :: os, trace_cons_ok hs' ht, .cons hR hos⟩

/-- Every step of a run that returns has returned. -/
theorem step_ok_of_trace {s : σ} {is : List ι} {r : σ × List ω} (h : trace step s is = .ok r)
    {i : ι} (hi : i ∈ is) : ∃ t r', step t i = .ok r' := by
  induction is generalizing s r with
  | nil => cases hi
  | cons j is ih =>
    rw [trace] at h
    cases hs : step s j with
    | error e => rw [hs] at h; cases h
    | ok p =>
      rcases List.mem_cons.mp hi with rfl | hi
      · exact ⟨s, p, hs⟩
      · rw [hs] at h
        cases ht : trace step p.1 is with
        | error e => simp only [ht] at h; cases h
        | ok q => exact ih ht hi

end Trace

end StepperSynth.Common
