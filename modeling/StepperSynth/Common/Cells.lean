import Mathlib.Tactic

/-!
# Tables of independent cells

A list of writes, each to the cell its key names.

* `writeAll_of_mem`, `writeAll_of_notMem`: with distinct keys every cell written
  holds the value of its write; the others keep theirs.
* `writeAll_perm`: the order of the writes does not matter then.
-/

namespace StepperSynth.Common

variable {ι κ α : Type*} [DecidableEq κ] (key : ι → κ) (val : ι → α)

/-- The write that `x` describes. -/
def writeCell (t : κ → α) (x : ι) : κ → α := Function.update t (key x) (val x)

/-- The writes that `l` describes, in order. -/
def writeAll (t : κ → α) (l : List ι) : κ → α := l.foldl (writeCell key val) t

theorem writeAll_cons (t : κ → α) (x : ι) (l : List ι) :
    writeAll key val t (x :: l) = writeAll key val (writeCell key val t x) l := rfl

/-- A cell that no write names keeps its value. -/
theorem writeAll_of_notMem {k : κ} {l : List ι} (hk : ∀ x ∈ l, key x ≠ k) (t : κ → α) :
    writeAll key val t l k = t k := by
  induction l generalizing t with
  | nil => rfl
  | cons x l ih =>
    rw [writeAll_cons, ih fun y hy => hk y (List.mem_cons_of_mem _ hy)]
    exact Function.update_of_ne (hk x List.mem_cons_self).symm _ _

/-- With distinct keys a cell holds the value of the write that names it. -/
theorem writeAll_of_mem {x : ι} {l : List ι} (hl : l.Pairwise fun a b => key a ≠ key b)
    (hx : x ∈ l) (t : κ → α) : writeAll key val t l (key x) = val x := by
  induction l generalizing t with
  | nil => cases hx
  | cons y l ih =>
    obtain ⟨hy, hl⟩ := List.pairwise_cons.mp hl
    rw [writeAll_cons]
    rcases List.mem_cons.mp hx with rfl | hx
    · rw [writeAll_of_notMem key val fun z hz => (hy z hz).symm]
      exact Function.update_self _ _ _
    · exact ih hl hx _

/-- Writes to distinct cells can be made in any order. -/
theorem writeAll_perm {l l' : List ι} (hp : l.Perm l')
    (hl : l.Pairwise fun a b => key a ≠ key b) (t : κ → α) :
    writeAll key val t l = writeAll key val t l' := by
  apply hp.foldl_eq'
  intro x hx y hy t
  by_cases hxy : x = y
  · rw [hxy]
  · have hsymm : Std.Symm fun a b => key a ≠ key b := ⟨fun _ _ h => h.symm⟩
    have hkey : key x ≠ key y := hl.forall hx hy hxy
    exact Function.update_comm hkey _ _ t

end StepperSynth.Common
