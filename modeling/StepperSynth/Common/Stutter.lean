import StepperSynth.Common.Machine

/-!
# Machines that do the work of another one

A machine has a state of another one within its own. Some of its inputs are inputs of the
other machine, and the rest leave the inner state alone.

* `seen`: the inputs of a run that reach the inner machine.
* `Stutters`, `Stutters.run`: a run of the outer machine is a run of the inner one.
* `seen_split`: so is each part of it.
-/

namespace StepperSynth.Common

section Stutter

variable {σ τ ι κ ε : Type*}

/-- The inputs that reach the inner machine, along a run. -/
def seen (step : σ → ι → Except ε σ) (inner : σ → ι → Option κ) : σ → List ι → List κ
  | _, [] => []
  | s, i :: is =>
    match step s i with
    | .error _ => []
    | .ok s' => (inner s i).toList ++ seen step inner s' is

/-- From a state with `I`, every step succeeds, and does to the part `part` of the state
    what the inner machine does, or nothing. -/
structure Stutters (step : σ → ι → Except ε σ) (step' : τ → κ → Except ε τ) (part : σ → τ)
    (inner : σ → ι → Option κ) (I : σ → Prop) : Prop where
  keeps : ∀ s i, I s → ∃ s', step s i = .ok s' ∧ I s'
  rests : ∀ s i s', I s → step s i = .ok s' → inner s i = none → part s' = part s
  moves : ∀ s i s' k, I s → step s i = .ok s' → inner s i = some k →
    step' (part s) k = .ok (part s')

variable {step : σ → ι → Except ε σ} {step' : τ → κ → Except ε τ} {part : σ → τ}
  {inner : σ → ι → Option κ} {I : σ → Prop} {s s' : σ} {i : ι} {is js : List ι}

theorem seen_cons (h : step s i = .ok s') :
    seen step inner s (i :: is) = (inner s i).toList ++ seen step inner s' is := by
  rw [seen, h]

theorem seen_append (h : run step s is = .ok s') :
    seen step inner s (is ++ js) = seen step inner s is ++ seen step inner s' js := by
  induction is generalizing s with
  | nil =>
    cases h
    rfl
  | cons i is ih =>
    cases hs : step s i with
    | error e =>
      rw [run, hs] at h
      cases h
    | ok t =>
      rw [run_cons_ok hs] at h
      rw [List.cons_append, seen_cons hs, seen_cons hs, ih h, List.append_assoc]

namespace Stutters

/-- One step, as a run of the inner machine. -/
theorem step_run (h : Stutters step step' part inner I) (hI : I s) (hs : step s i = .ok s') :
    Common.run step' (part s) (inner s i).toList = .ok (part s') := by
  cases hi : inner s i with
  | none =>
    show Except.ok (part s) = .ok (part s')
    rw [h.rests s i s' hI hs hi]
  | some k =>
    show Common.run step' (part s) [k] = _
    rw [run_cons_ok (h.moves s i s' k hI hs hi), run_nil]

/-- A run. -/
theorem run (h : Stutters step step' part inner I) (hI : I s) (is : List ι) :
    ∃ s', Common.run step s is = .ok s' ∧ I s' ∧
      Common.run step' (part s) (seen step inner s is) = .ok (part s') := by
  induction is generalizing s with
  | nil => exact ⟨s, rfl, hI, rfl⟩
  | cons i is ih =>
    obtain ⟨t, hs, hIt⟩ := h.keeps s i hI
    obtain ⟨s', hrun, hI', hinner⟩ := ih hIt
    refine ⟨s', by rw [run_cons_ok hs, hrun], hI', ?_⟩
    rw [seen_cons hs, run_append_ok (h.step_run hI hs), hinner]

/-- A part of what the inner machine sees belongs to a part of the run. -/
theorem seen_split (h : Stutters step step' part inner I) (hI : I s) {ks ls : List κ}
    (heq : seen step inner s is = ks ++ ls) :
    ∃ js js' s', is = js ++ js' ∧ Common.run step s js = .ok s' ∧ I s' ∧
      seen step inner s js = ks ∧ seen step inner s' js' = ls := by
  induction is generalizing s ks with
  | nil =>
    obtain ⟨rfl, rfl⟩ := List.append_eq_nil_iff.mp heq.symm
    exact ⟨[], [], s, rfl, rfl, hI, rfl, rfl⟩
  | cons i is ih =>
    obtain ⟨t, hs, hIt⟩ := h.keeps s i hI
    cases ks with
    | nil => exact ⟨[], i :: is, s, rfl, rfl, hI, rfl, heq⟩
    | cons k ks =>
      rw [seen_cons hs] at heq
      have hrest : ∃ ks', (inner s i).toList ++ ks' = k :: ks ∧
          seen step inner t is = ks' ++ ls := by
        cases hi : inner s i with
        | none =>
          rw [hi] at heq
          exact ⟨k :: ks, rfl, heq⟩
        | some k' =>
          rw [hi] at heq
          obtain ⟨rfl, hrest⟩ := List.cons.inj heq
          exact ⟨ks, rfl, hrest⟩
      obtain ⟨ks', hks, hrest⟩ := hrest
      obtain ⟨js, js', s', rfl, hrun, hI', hseen, hseen'⟩ := ih hIt hrest
      refine ⟨i :: js, js', s', rfl, by rw [run_cons_ok hs, hrun], hI', ?_, hseen'⟩
      rw [seen_cons hs, hseen, hks]

end Stutters

end Stutter

end StepperSynth.Common
