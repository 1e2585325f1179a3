import StepperSynth.Common.Machine

/-!
# A break that moves up and down

An area of `room` units, of which the first `used` are in use. A request moves the break
by `incr` and answers with the old one, or is refused if there is no room.

* `Balanced`: no more is released than is in use.
* `granted_pairwise`, `granted_within`: without releases, the blocks granted are in the
  area, one after another, so no two of them overlap.
-/

namespace StepperSynth.Common

/-- A request. -/
def bump (room used incr : ℤ) : ℤ × Option ℤ :=
  if used + incr ≤ room then (used + incr, some used) else (used, none)

section Bump

variable {room used incr : ℤ} {incrs : List ℤ}

theorem bump_of_le (h : used + incr ≤ room) : bump room used incr = (used + incr, some used) :=
  if_pos h

theorem bump_of_lt (h : room < used + incr) : bump room used incr = (used, none) :=
  if_neg (not_le.mpr h)

/-- The break after the requests. -/
def usedAfter (room used : ℤ) (incrs : List ℤ) : ℤ := (refTrace (bump room) used incrs).1

/-- At no moment has more been released than was in use. -/
def Balanced (room used : ℤ) (incrs : List ℤ) : Prop :=
  ∀ before, before <+: incrs → 0 ≤ usedAfter room used before

instance : Decidable (Balanced room used incrs) :=
  decidable_of_iff (∀ before ∈ incrs.inits, 0 ≤ usedAfter room used before)
    (forall_congr' fun before => imp_congr_left (List.mem_inits before incrs))

theorem Balanced.tail (h : Balanced room used (incr :: incrs)) :
    Balanced room (bump room used incr).1 incrs :=
  fun before hbefore => h (incr :: before) ((List.prefix_cons_inj incr).mpr hbefore)

theorem Balanced.next (h : Balanced room used (incr :: incrs)) : 0 ≤ (bump room used incr).1 :=
  h.tail [] List.nil_prefix

theorem le_usedAfter (hincrs : ∀ i ∈ incrs, 0 ≤ i) : used ≤ usedAfter room used incrs := by
  induction incrs generalizing used with
  | nil => exact le_rfl
  | cons incr incrs ih =>
    have hincr := hincrs incr List.mem_cons_self
    have hnext : used ≤ (bump room used incr).1 := by
      unfold bump
      split_ifs
      · exact le_add_of_nonneg_right hincr
      · exact le_rfl
    exact hnext.trans (ih fun i hi => hincrs i (List.mem_cons_of_mem _ hi))

/-- Without releases, a sequence is balanced. -/
theorem balanced_of_nonneg (hused : 0 ≤ used) (hincrs : ∀ i ∈ incrs, 0 ≤ i) :
    Balanced room used incrs :=
  fun _ hbefore => hused.trans (le_usedAfter fun i hi => hincrs i (hbefore.subset hi))

/-- The blocks granted, each with its start and its size. -/
def granted (room : ℤ) : ℤ → List ℤ → List (ℤ × ℤ)
  | _, [] => []
  | used, incr :: incrs =>
    match bump room used incr with
    | (used', some start) => (start, incr) :: granted room used' incrs
    | (used', none) => granted room used' incrs

theorem granted_of_le (h : used + incr ≤ room) :
    granted room used (incr :: incrs) = (used, incr) :: granted room (used + incr) incrs := by
  rw [granted, bump_of_le h]

theorem granted_of_lt (h : room < used + incr) :
    granted room used (incr :: incrs) = granted room used incrs := by
  rw [granted, bump_of_lt h]

theorem granted_size : ∀ b ∈ granted room used incrs, b.2 ∈ incrs := by
  induction incrs generalizing used with
  | nil => exact fun b hb => by cases hb
  | cons incr incrs ih =>
    intro b hb
    by_cases hroom : used + incr ≤ room
    · rw [granted_of_le hroom] at hb
      rcases List.mem_cons.mp hb with rfl | hb
      · exact List.mem_cons_self
      · exact List.mem_cons_of_mem _ (ih b hb)
    · rw [granted_of_lt (not_le.mp hroom)] at hb
      exact List.mem_cons_of_mem _ (ih b hb)

/-- The blocks are between the break before the requests and the end of the area. -/
theorem granted_within (hincrs : ∀ i ∈ incrs, 0 ≤ i) :
    ∀ b ∈ granted room used incrs, used ≤ b.1 ∧ b.1 + b.2 ≤ room := by
  induction incrs generalizing used with
  | nil => exact fun b hb => by cases hb
  | cons incr incrs ih =>
    have hincr := hincrs incr List.mem_cons_self
    have hrest := fun i hi => hincrs i (List.mem_cons_of_mem _ hi)
    intro b hb
    by_cases hroom : used + incr ≤ room
    · rw [granted_of_le hroom] at hb
      rcases List.mem_cons.mp hb with rfl | hb
      · exact ⟨le_rfl, hroom⟩
      · obtain ⟨hlow, hhigh⟩ := ih hrest b hb
        exact ⟨by omega, hhigh⟩
    · rw [granted_of_lt (not_le.mp hroom)] at hb
      exact ih hrest b hb

/-- Each block ends before the next one starts. -/
theorem granted_pairwise (hincrs : ∀ i ∈ incrs, 0 ≤ i) :
    (granted room used incrs).Pairwise fun a b => a.1 + a.2 ≤ b.1 := by
  induction incrs generalizing used with
  | nil => exact .nil
  | cons incr incrs ih =>
    have hrest := fun i hi => hincrs i (List.mem_cons_of_mem _ hi)
    by_cases hroom : used + incr ≤ room
    · rw [granted_of_le hroom]
      exact .cons (fun b hb => (granted_within hrest b hb).1) (ih hrest)
    · rw [granted_of_lt (not_le.mp hroom)]
      exact ih hrest

end Bump

end StepperSynth.Common
