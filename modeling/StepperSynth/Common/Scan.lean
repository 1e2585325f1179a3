import Mathlib.Tactic

/-!
# Searching a list for its first least element

The loop

    for i in l: if (p(i) && key(i) < best) { best = key(i); index = i; }

with a sentinel index and a start value for `best`. `scan_spec`: the loop ends
with the first element of `l` whose key is least among those that satisfy `p`,
or with its start values when no key is below the start value.
-/

namespace StepperSynth.Common

variable {ι κ β : Type*} [LinearOrder κ]

/-- One iteration on `(index, best)`; `emb` is how the loop stores an index. -/
def scanBody (p : ι → Prop) [DecidablePred p] (key : ι → κ) (emb : ι → β) (acc : β × κ)
    (i : ι) : β × κ :=
  if p i ∧ key i < acc.2 then (emb i, key i) else acc

/-- `i` is the first element of `l` with the least key among those with `p`. -/
def FirstMin (p : ι → Prop) (key : ι → κ) (l : List ι) (i : ι) : Prop :=
  ∃ pre post, l = pre ++ i :: post ∧ p i ∧ (∀ j ∈ pre, p j → key i < key j) ∧
    ∀ j ∈ post, p j → key i ≤ key j

variable {p : ι → Prop} {key : ι → κ}

theorem FirstMin.holds {l : List ι} {i : ι} (h : FirstMin p key l i) : p i := by
  obtain ⟨-, -, -, h, -⟩ := h; exact h

theorem FirstMin.le {l : List ι} {i : ι} (h : FirstMin p key l i) :
    ∀ j ∈ l, p j → key i ≤ key j := by
  obtain ⟨pre, post, rfl, -, h1, h2⟩ := h
  intro j hj hp
  rw [List.mem_append, List.mem_cons] at hj
  rcases hj with hj | rfl | hj
  · exact (h1 j hj hp).le
  · exact le_rfl
  · exact h2 j hj hp

/-- In an increasing list the first least element is the least one in the
    lexicographic order of key and element. -/
theorem FirstMin.lex [LinearOrder ι] {l : List ι} (hl : l.Pairwise (· < ·)) {i : ι}
    (h : FirstMin p key l i) :
    ∀ j ∈ l, p j → j ≠ i → key i < key j ∨ key i = key j ∧ i < j := by
  obtain ⟨pre, post, rfl, -, h1, h2⟩ := h
  intro j hj hp hne
  rw [List.mem_append, List.mem_cons] at hj
  rcases hj with hj | rfl | hj
  · exact Or.inl (h1 j hj hp)
  · exact absurd rfl hne
  · have hij : i < j := (List.pairwise_cons.mp (List.pairwise_append.mp hl).2.1).1 j hj
    exact (h2 j hj hp).lt_or_eq.imp_right fun he => ⟨he, hij⟩

/-- The search loop, started with the sentinel `b0` and the start value `top`. -/
theorem scan_spec (p : ι → Prop) [DecidablePred p] (key : ι → κ) (emb : ι → β) (b0 : β)
    (top : κ) (l : List ι) :
    ((∀ i ∈ l, p i → top ≤ key i) ∧ l.foldl (scanBody p key emb) (b0, top) = (b0, top)) ∨
      ∃ i, FirstMin p key l i ∧ key i < top ∧
        l.foldl (scanBody p key emb) (b0, top) = (emb i, key i) := by
  induction l using List.reverseRecOn with
  | nil => left; simp
  | append_singleton l x ih =>
    rw [List.foldl_append, List.foldl_cons, List.foldl_nil]
    rcases ih with ⟨hnone, hfold⟩ | ⟨i, hmin, hlt, hfold⟩
    · rw [hfold]
      by_cases hx : p x ∧ key x < top
      · right
        refine ⟨x, ⟨l, [], rfl, hx.1, ?_, by simp⟩, hx.2, if_pos hx⟩
        exact fun j hj hp => lt_of_lt_of_le hx.2 (hnone j hj hp)
      · left
        refine ⟨fun j hj hp => ?_, if_neg hx⟩
        rw [List.mem_append, List.mem_singleton] at hj
        rcases hj with hj | rfl
        · exact hnone j hj hp
        · exact not_lt.mp fun hlt => hx ⟨hp, hlt⟩
    · rw [hfold]
      right
      by_cases hx : p x ∧ key x < key i
      · refine ⟨x, ⟨l, [], rfl, hx.1, ?_, by simp⟩, hx.2.trans hlt, if_pos hx⟩
        exact fun j hj hp => lt_of_lt_of_le hx.2 (hmin.le j hj hp)
      · obtain ⟨pre, post, rfl, hp, h1, h2⟩ := hmin
        refine ⟨i, ⟨pre, post ++ [x], by simp, hp, h1, fun j hj hpj => ?_⟩, hlt, if_neg hx⟩
        rw [List.mem_append, List.mem_singleton] at hj
        rcases hj with hj | rfl
        · exact h2 j hj hpj
        · exact not_lt.mp fun hlt => hx ⟨hpj, hlt⟩

end StepperSynth.Common
