import Mathlib.Tactic

/-!
# Bounded queues

A queue of at most `cap` elements that refuses more. An offer is an element with
the number of elements queued when it was offered; `accepted` are those that
found room.

* `Delivers.push`, `Delivers.pop`: what was taken out, followed by what is
  queued, is what was accepted, in order.
* `accepted_eq_iff`: nothing is lost exactly when every offer found room.
-/

namespace StepperSynth.Common

variable {α : Type*}

/-- Append `x` if there is room; whether there was. -/
def push (cap : ℕ) (queue : List α) (x : α) : List α × Bool :=
  if queue.length < cap then (queue ++ [x], true) else (queue, false)

/-- The offers that found room. -/
def accepted (cap : ℕ) (offers : List (α × ℕ)) : List α :=
  (offers.filter fun o => o.2 < cap).map Prod.fst

theorem accepted_append (cap : ℕ) (offers : List (α × ℕ)) (x : α) (n : ℕ) :
    accepted cap (offers ++ [(x, n)]) = accepted cap offers ++ if n < cap then [x] else [] := by
  unfold accepted
  rw [List.filter_append, List.map_append]
  by_cases h : n < cap <;> simp [h]

/-- Nothing is lost exactly when every offer found room. -/
theorem accepted_eq_iff (cap : ℕ) (offers : List (α × ℕ)) :
    accepted cap offers = offers.map Prod.fst ↔ ∀ o ∈ offers, o.2 < cap := by
  constructor
  · intro h o ho
    have hlen := congrArg List.length h
    unfold accepted at hlen
    rw [List.length_map, List.length_map, List.length_filter_eq_length_iff] at hlen
    simpa using hlen o ho
  · intro h
    unfold accepted
    rw [List.filter_eq_self.mpr (by simpa using h)]

/-- What was taken out of the queue, followed by what is in it, is what it
    accepted. -/
def Delivers (cap : ℕ) (offers : List (α × ℕ)) (taken queue : List α) : Prop :=
  taken ++ queue = accepted cap offers

theorem delivers_nil (cap : ℕ) : Delivers cap ([] : List (α × ℕ)) [] [] := rfl

theorem Delivers.push {cap : ℕ} {offers : List (α × ℕ)} {taken queue : List α}
    (h : Delivers cap offers taken queue) (x : α) :
    Delivers cap (offers ++ [(x, queue.length)]) taken (Common.push cap queue x).1 := by
  unfold Delivers at *
  rw [accepted_append, ← h]
  unfold Common.push
  split_ifs
  · rw [List.append_assoc]
  · rw [List.append_nil]

theorem Delivers.pop {cap : ℕ} {offers : List (α × ℕ)} {taken queue : List α} {x : α}
    (h : Delivers cap offers taken (x :: queue)) : Delivers cap offers (taken ++ [x]) queue := by
  unfold Delivers at *
  rw [List.append_assoc]
  exact h

end StepperSynth.Common
