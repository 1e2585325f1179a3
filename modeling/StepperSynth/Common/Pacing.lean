import Mathlib.Tactic

/-!
# Paced edges

A device emits edges. Each edge has to be serviced, and the service sets the
distance `h` from that edge to the next one. `Paced N φ es` says that up to time
`N`, from phase `φ` on, exactly the edges due are emitted.

* `Paced.head_edgeTimes`: the next edge comes when it is due.
* `Paced.after_service`: after an edge at `t` serviced with `h`, the next edge
  is due at `t + h`.
* `Paced.edgeTimes_getElem?`: the time of an edge is the time of the first one
  plus the distances set before it, so no service delay ever adds up.
* `Paced.no_double`: no two edges without a service between them.
* `grid`: the edges that come at one distance.

`Timed` is the law without any condition on the services, for a device whose
counter goes round after `wrap`.

* `Timed.after_service`: an edge serviced late comes one round later.
* `Timed.modEq`: modulo `wrap`, no edge is ever off.
* `EdgeLaw`: both, with the first edge and the edges that are not serviced.
-/

namespace StepperSynth.Common

/-- What is seen of the device, in order. -/
inductive Pulse
  /-- An edge at time `t`. -/
  | edge (t : ℕ)
  /-- A service at time `t` of the last edge: the next one is to come `h` after it. -/
  | service (t h : ℕ)
  deriving DecidableEq, Repr

namespace Pulse

/-- Consecutive pulses are in time: an edge is serviced less than `h` after it,
    and is not left unserviced for `patience`. -/
def InTime (patience : ℕ) : Pulse → Pulse → Prop
  | edge t, service d h => d < t + h
  | edge t, edge t' => t' < t + patience
  | service _ _, _ => True

instance (patience : ℕ) : DecidableRel (InTime patience)
  | edge t, service d h => inferInstanceAs (Decidable (d < t + h))
  | edge t, edge t' => inferInstanceAs (Decidable (t' < t + patience))
  | service _ _, _ => inferInstanceAs (Decidable True)

end Pulse

open Pulse

/-- The times of the edges. -/
def edgeTimes : List Pulse → List ℕ
  | [] => []
  | edge t :: es => t :: edgeTimes es
  | service _ _ :: es => edgeTimes es

theorem edgeTimes_append (es es' : List Pulse) :
    edgeTimes (es ++ es') = edgeTimes es ++ edgeTimes es' := by
  induction es with
  | nil => rfl
  | cons e es ih =>
    cases e with
    | edge t => exact congrArg (t :: ·) ih
    | service d h => exact ih

/-- The distances set by the services. -/
def distances : List Pulse → List ℕ
  | [] => []
  | edge _ :: es => distances es
  | service _ h :: es => h :: distances es

/-- What the device is waiting for. -/
inductive Phase
  /-- The edge due at `next`. -/
  | waiting (next : ℕ)
  /-- A service of the edge emitted at `last`. -/
  | pending (last : ℕ)

/-- Up to time `N`, the edges due are emitted, and no others. -/
inductive Paced (N : ℕ) : Phase → List Pulse → Prop
  | quiet {next} : N < next → Paced N (.waiting next) []
  | edge {next es} : next ≤ N → Paced N (.pending next) es →
      Paced N (.waiting next) (edge next :: es)
  | unserviced {last} : Paced N (.pending last) []
  | service {last d h es} : Paced N (.waiting (last + h)) es →
      Paced N (.pending last) (service d h :: es)

namespace Paced

variable {N : ℕ} {es : List Pulse}

/-- The next edge comes when it is due, or the run ends before. -/
theorem head_edgeTimes {next : ℕ} (hes : Paced N (.waiting next) es) :
    (edgeTimes es).head? = if next ≤ N then some next else none := by
  cases hes with
  | quiet h => rw [if_neg (by omega)]; rfl
  | edge h _ => rw [if_pos h]; rfl

/-- A suffix that starts after an edge is in the phase that waits for its service. -/
theorem of_append {φ : Phase} {pre : List Pulse} {t : ℕ}
    (hes : Paced N φ (pre ++ Pulse.edge t :: es)) : Paced N (.pending t) es := by
  induction pre generalizing φ with
  | nil =>
    cases hes with
    | edge _ hes => exact hes
  | cons p pre ih =>
    cases hes with
    | edge _ hes => exact ih hes
    | service hes => exact ih hes

theorem after_service {φ : Phase} {pre : List Pulse} {t d h : ℕ}
    (hes : Paced N φ (pre ++ Pulse.edge t :: Pulse.service d h :: es)) :
    (edgeTimes es).head? = if t + h ≤ N then some (t + h) else none := by
  cases of_append hes with
  | service hes => exact hes.head_edgeTimes

theorem no_double {φ : Phase} {pre : List Pulse} {t t' : ℕ} :
    ¬ Paced N φ (pre ++ Pulse.edge t :: Pulse.edge t' :: es) := by
  intro hes
  cases of_append hes

/-- The edges of a paced run, counted from the phase it starts in. -/
theorem edgeTimes_getElem?_of {φ : Phase} (hes : Paced N φ es) :
    ∀ k t, (edgeTimes es)[k]? = some t →
      match φ with
      | .waiting next => t = next + ((distances es).take k).sum
      | .pending last => t = last + ((distances es).take (k + 1)).sum := by
  induction hes with
  | quiet _ => intro k t ht; simp [edgeTimes] at ht
  | @edge next es _ _ ih =>
    intro k t ht
    cases k with
    | zero => simpa [edgeTimes, eq_comm] using ht
    | succ k => exact ih k t (by simpa [edgeTimes] using ht)
  | unserviced => intro k t ht; simp [edgeTimes] at ht
  | @service last d h es _ ih =>
    intro k t ht
    have := ih k t ht
    show t = last + ((h :: distances es).take (k + 1)).sum
    rw [List.take_succ_cons, List.sum_cons]
    omega

/-- **No drift.** Edge `k` comes at the time of the first edge plus the first
    `k` distances. -/
theorem edgeTimes_getElem? {next k t : ℕ} (hes : Paced N (.waiting next) es)
    (ht : (edgeTimes es)[k]? = some t) : t = next + ((distances es).take k).sum :=
  edgeTimes_getElem?_of hes k t ht

end Paced

/-! ## Any services -/

/-- When the edge after one at `last` comes that is serviced at `d` with `h`. -/
def dueAfter (wrap last d h : ℕ) : ℕ := if d < last + h then last + h else last + h + wrap

/-- Up to time `N`, the edges of a device whose counter goes round after `wrap`. An
    edge that is not serviced comes again. -/
inductive Timed (wrap N : ℕ) : Phase → List Pulse → Prop
  | quiet {next} : N < next → Timed wrap N (.waiting next) []
  | edge {next es} : next ≤ N → Timed wrap N (.pending next) es →
      Timed wrap N (.waiting next) (edge next :: es)
  | unserviced {last} : N < last + wrap → Timed wrap N (.pending last) []
  | again {last es} : last + wrap ≤ N → Timed wrap N (.pending (last + wrap)) es →
      Timed wrap N (.pending last) (edge (last + wrap) :: es)
  | service {last d h es} : last ≤ d → d < last + wrap →
      Timed wrap N (.waiting (dueAfter wrap last d h)) es →
      Timed wrap N (.pending last) (service d h :: es)

namespace Timed

variable {wrap N : ℕ} {φ : Phase} {es : List Pulse}

theorem head_edgeTimes {next : ℕ} (hes : Timed wrap N (.waiting next) es) :
    (edgeTimes es).head? = if next ≤ N then some next else none := by
  cases hes with
  | quiet h => rw [if_neg (by omega)]; rfl
  | edge h _ => rw [if_pos h]; rfl

/-- A suffix that starts after an edge is in the phase that waits for its service. -/
theorem of_append {pre : List Pulse} {t : ℕ} (hes : Timed wrap N φ (pre ++ Pulse.edge t :: es)) :
    Timed wrap N (.pending t) es := by
  induction pre generalizing φ with
  | nil =>
    cases hes with
    | edge _ hes => exact hes
    | again _ hes => exact hes
  | cons p pre ih =>
    cases hes with
    | edge _ hes => exact ih hes
    | again _ hes => exact ih hes
    | service _ _ hes => exact ih hes

theorem after_service {pre : List Pulse} {t d h : ℕ}
    (hes : Timed wrap N φ (pre ++ Pulse.edge t :: Pulse.service d h :: es)) :
    (edgeTimes es).head? =
      if dueAfter wrap t d h ≤ N then some (dueAfter wrap t d h) else none := by
  cases of_append hes with
  | service _ _ hes => exact hes.head_edgeTimes

theorem after_edge {pre : List Pulse} {t t' : ℕ}
    (hes : Timed wrap N φ (pre ++ Pulse.edge t :: Pulse.edge t' :: es)) : t' = t + wrap := by
  cases of_append hes with
  | again _ _ => rfl

theorem dueAfter_modEq (wrap last d h : ℕ) : dueAfter wrap last d h ≡ last + h [MOD wrap] := by
  unfold dueAfter
  split_ifs
  · rfl
  · exact Nat.add_modEq_right

/-- An edge comes when one is due, or a round after one that was not serviced. -/
theorem edge_or_again {t : ℕ} (hφ : φ = .waiting t ∨ ∃ last, φ = .pending last ∧ t = last + wrap)
    (ht : t ≤ N) (hes : Timed wrap N (.pending t) es) : Timed wrap N φ (Pulse.edge t :: es) := by
  rcases hφ with rfl | ⟨last, rfl, rfl⟩
  · exact .edge ht hes
  · exact .again ht hes

/-- An edge is off its phase by the distances set before it, and a number of rounds. -/
theorem modEq {pre : List Pulse} {t : ℕ} (hes : Timed wrap N φ (pre ++ Pulse.edge t :: es)) :
    t ≡ (match φ with | .waiting next => next | .pending last => last) + (distances pre).sum
      [MOD wrap] := by
  induction pre generalizing φ with
  | nil =>
    cases hes with
    | edge _ _ => rfl
    | again _ _ => exact Nat.add_modEq_right
  | cons p pre ih =>
    cases hes with
    | edge _ hes => exact ih hes
    | again _ hes => exact (ih hes).trans (Nat.add_modEq_right.add_right _)
    | @service last d h _ _ _ hes =>
      refine (ih hes).trans ?_
      show _ ≡ last + (h :: distances pre).sum [MOD wrap]
      rw [List.sum_cons, ← add_assoc]
      exact (dueAfter_modEq wrap last d h).add_right _

end Timed

/-- The edges up to time `N`, of which the first is due at `start`. -/
structure EdgeLaw (wrap start N : ℕ) (es : List Pulse) : Prop where
  /-- The first edge comes when it is due, if the run gets there. -/
  first : (edgeTimes es).head? = if start ≤ N then some start else none
  /-- After an edge at `t` that a service at `d` moved on by `h`, the next edge is at
      `t + h` if the service came before that, and else a round later. -/
  next : ∀ pre t d h rest, es = pre ++ .edge t :: .service d h :: rest →
    (edgeTimes rest).head? =
      if dueAfter wrap t d h ≤ N then some (dueAfter wrap t d h) else none
  /-- An edge that is not serviced comes again after a round. -/
  again : ∀ pre t t' rest, es = pre ++ .edge t :: .edge t' :: rest → t' = t + wrap
  /-- No edge is ever off its phase: it is at the time of the first one plus the
      distances set before it, modulo a round. -/
  phase : ∀ pre t rest, es = pre ++ .edge t :: rest →
    t ≡ start + (distances pre).sum [MOD wrap]

theorem Timed.edgeLaw {wrap start N : ℕ} {es : List Pulse}
    (hes : Timed wrap N (.waiting start) es) : EdgeLaw wrap start N es := by
  refine ⟨hes.head_edgeTimes, fun pre t d h rest he => ?_, fun pre t t' rest he => ?_,
    fun pre t rest he => ?_⟩
  · rw [he] at hes
    exact hes.after_service
  · rw [he] at hes
    exact Timed.after_edge hes
  · rw [he] at hes
    exact hes.modEq

/-! ## One distance -/

/-- The times `next`, `next + h`, `next + 2 * h`, … up to `N`. -/
def grid (next h N : ℕ) : List ℕ := (List.range ((N + h - next) / h)).map fun k => next + k * h

theorem grid_of_lt {next h N : ℕ} (hlt : N < next) : grid next h N = [] := by
  have hzero : (N + h - next) / h = 0 := Nat.div_eq_zero_iff.mpr (by omega)
  rw [grid, hzero]
  rfl

theorem grid_of_le {next h N : ℕ} (hh : 0 < h) (hle : next ≤ N) :
    grid next h N = next :: grid (next + h) h N := by
  have hsub : N + h - next = N + h - (next + h) + h := by omega
  rw [grid, grid, hsub, Nat.add_div_right _ hh, List.range_succ_eq_map, List.map_cons,
    List.map_map, Nat.zero_mul, Nat.add_zero]
  refine congrArg (next :: ·) (List.map_congr_left fun k _ => ?_)
  show next + (k + 1) * h = next + h + k * h
  ring

end StepperSynth.Common
