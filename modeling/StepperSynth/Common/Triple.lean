import Mathlib.Tactic

/-!
# Triples for commands that may stop

A command of `EStateM ε σ` returns or stops with an error, and keeps its state in
both cases. `Triple P m Q E`: started in `P`, the command returns in `Q` or stops
in `E`.

* `Triple.bind`, `Triple.pure`, `Triple.throw`, `Triple.modifyGet`: one rule for
  each way to build a command.
* `Triple.imp`, `Triple.of_and`, `Triple.and`: consequence, facts taken out of the start,
  and two triples about one command.
* `finalState`, `Triple.final`: what the state is in the end, either way.
* `Ends.returns`: a command that cannot stop returns.
-/

namespace StepperSynth.Common

variable {ε σ α β : Type}

/-- The outcome of a command: returned in `Q` or stopped in `E`. -/
def Ends (Q : α → σ → Prop) (E : ε → σ → Prop) : EStateM.Result ε σ α → Prop
  | .ok a s => Q a s
  | .error e s => E e s

/-- Started in `P`, the command returns in `Q` or stops in `E`. -/
def Triple (P : σ → Prop) (m : EStateM ε σ α) (Q : α → σ → Prop) (E : ε → σ → Prop) : Prop :=
  ∀ s, P s → Ends Q E (m s)

/-- The state in the end. -/
def finalState : EStateM.Result ε σ α → σ
  | .ok _ s => s
  | .error _ s => s

/-- A command that has not stopped has returned. -/
theorem Ends.returns {Q : α → σ → Prop} {E : ε → σ → Prop} {r : EStateM.Result ε σ α}
    (h : Ends Q E r) (hE : ∀ e s, ¬ E e s) : ∃ a s, r = .ok a s ∧ Q a s := by
  cases r with
  | ok a s => exact ⟨a, s, rfl, h⟩
  | error e s => exact absurd h (hE e s)

variable {P P' : σ → Prop} {m : EStateM ε σ α} {Q Q' : α → σ → Prop} {E E' : ε → σ → Prop}

theorem Triple.bind {f : α → EStateM ε σ β} {R : β → σ → Prop} (hm : Triple P m Q E)
    (hf : ∀ a, Triple (Q a) (f a) R E) : Triple P (m >>= f) R E := by
  intro s hs
  have h := hm s hs
  show Ends R E (EStateM.bind m f s)
  unfold EStateM.bind
  cases hms : m s with
  | ok a s' =>
    rw [hms] at h
    exact hf a s' h
  | error e s' =>
    rw [hms] at h
    exact h

theorem Triple.pure {a : α} (h : ∀ s, P s → Q a s) : Triple P (Pure.pure a : EStateM ε σ α) Q E :=
  h

theorem Triple.throw {e : ε} (h : ∀ s, P s → E e s) :
    Triple P (throwThe ε e : EStateM ε σ α) Q E := h

theorem Triple.modifyGet {f : σ → α × σ} (h : ∀ s, P s → Q (f s).1 (f s).2) :
    Triple P (EStateM.modifyGet f : EStateM ε σ α) Q E := h

/-- A stronger start, a weaker end. -/
theorem Triple.imp (h : Triple P m Q E) (hP : ∀ s, P' s → P s) (hQ : ∀ a s, Q a s → Q' a s)
    (hE : ∀ e s, E e s → E' e s) : Triple P' m Q' E' := by
  intro s hs
  have h' := h s (hP s hs)
  cases hms : m s with
  | ok a s' =>
    rw [hms] at h'
    exact hQ a s' h'
  | error e s' =>
    rw [hms] at h'
    exact hE e s' h'

/-- A fact that does not depend on the state may be assumed outside. -/
theorem Triple.of_and {φ : Prop} (h : φ → Triple P m Q E) : Triple (fun s => φ ∧ P s) m Q E :=
  fun s hs => h hs.1 s hs.2

/-- Two triples about one command. -/
theorem Triple.and (h : Triple P m Q E) (h' : Triple P' m Q' E') :
    Triple (fun s => P s ∧ P' s) m (fun a s => Q a s ∧ Q' a s) (fun e s => E e s ∧ E' e s) := by
  intro s hs
  have hends := h s hs.1
  have hends' := h' s hs.2
  cases hms : m s with
  | ok a s' =>
    rw [hms] at hends hends'
    exact ⟨hends, hends'⟩
  | error e s' =>
    rw [hms] at hends hends'
    exact ⟨hends, hends'⟩

/-- What holds in the end, whether the command returns or stops. -/
theorem Triple.final {F : σ → Prop} (h : Triple P m (fun _ => F) (fun _ => F)) {s : σ} (hs : P s) :
    F (finalState (m s)) := by
  have h' := h s hs
  cases hms : m s with
  | ok a s' =>
    rw [hms] at h'
    exact h'
  | error e s' =>
    rw [hms] at h'
    exact h'

end StepperSynth.Common
