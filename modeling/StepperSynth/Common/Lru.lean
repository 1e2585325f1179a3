import Mathlib.Tactic

/-!
# Least recently used allocation

Finitely many resources `V` are handed out to names `N`. A `Lru` keeps the
resources in the order of their last use, oldest first, and what each one
holds. `press n` gives `n` a resource: the one it has already, else the least
recently used free one, else the least recently used one of all. `release n`
takes it back without touching the order.

* `find?_of_least`, `head?_of_least`: in a list ordered by `r`, searching from
  the front finds the `r`-least element.
* `pairwise_touch`: moving an element to the back keeps the list ordered when
  the element becomes the greatest.
* `press_held`, `press_victim`, `release_held`: what `press` and `release` do.
-/

namespace StepperSynth.Common

/-! ## Lists ordered by their last use -/

section Touch

variable {V : Type*} [DecidableEq V]

/-- Move `v` to the back. -/
def touch (order : List V) (v : V) : List V := order.erase v ++ [v]

@[simp] theorem mem_touch {order : List V} {v w : V} (h : v ∈ order) :
    w ∈ touch order v ↔ w ∈ order := by
  rw [touch, List.mem_append, List.mem_singleton]
  by_cases hw : w = v
  · simp [hw, h]
  · simp [hw, List.mem_erase_of_ne hw]

theorem nodup_touch {order : List V} (h : order.Nodup) (v : V) : (touch order v).Nodup := by
  rw [touch, List.nodup_append]
  refine ⟨h.erase v, List.nodup_singleton v, fun a ha b hb => ?_⟩
  rw [List.mem_singleton] at hb
  rintro rfl
  exact (h.mem_erase_iff.mp (hb ▸ ha)).1 rfl

/-- If `v` is the greatest element after the change from `r` to `r'`, and `r'`
    extends `r` on the others, then moving `v` to the back keeps the list ordered. -/
theorem pairwise_touch {r r' : V → V → Prop} {order : List V} (hn : order.Nodup) {v : V}
    (hlast : ∀ w, w ≠ v → r' w v) (hkeep : ∀ a b, a ≠ v → b ≠ v → r a b → r' a b)
    (h : order.Pairwise r) : (touch order v).Pairwise r' := by
  have hne : ∀ w ∈ order.erase v, w ≠ v := fun w hw => (hn.mem_erase_iff.mp hw).1
  rw [touch, List.pairwise_append]
  refine ⟨?_, List.pairwise_singleton _ _, fun a ha b hb => ?_⟩
  · exact (h.erase v).imp_of_mem fun ha hb => hkeep _ _ (hne _ ha) (hne _ hb)
  · rw [List.mem_singleton] at hb
    subst hb
    exact hlast a (hne a ha)

end Touch

section Least

variable {V : Type*} {r : V → V → Prop} {order : List V}

/-- Searching an ordered list from the front finds the least element with `p`. -/
theorem find?_of_least {p : V → Bool} (h : order.Pairwise r) {v : V} (hv : v ∈ order) (hp : p v)
    (hleast : ∀ w ∈ order, p w → ¬ r w v) : order.find? p = some v := by
  obtain ⟨pre, post, rfl⟩ := List.append_of_mem hv
  rw [List.find?_eq_some_iff_append]
  refine ⟨hp, pre, post, rfl, fun w hw => ?_⟩
  have hr : r w v := (List.pairwise_append.mp h).2.2 w hw v List.mem_cons_self
  simpa using fun hpw => hleast w (List.mem_append_left _ hw) hpw hr

/-- The head of an ordered list is its least element. -/
theorem head?_of_least (h : order.Pairwise r) {v : V} (hv : v ∈ order)
    (hleast : ∀ w ∈ order, ¬ r w v) : order.head? = some v := by
  cases order with
  | nil => cases hv
  | cons w ws =>
    rcases List.mem_cons.mp hv with rfl | hv
    · rfl
    · exact absurd ((List.pairwise_cons.mp h).1 v hv) (hleast w List.mem_cons_self)

end Least

/-! ## The allocator -/

/-- The resources in the order of their last use, and what each one holds. -/
structure Lru (V N : Type*) where
  order : List V
  held : V → Option N
  nodup : order.Nodup
  mem_order : ∀ v, v ∈ order

/-- How a press was served. -/
inductive Grant
  | again
  | fresh
  | stolen
  deriving DecidableEq, Repr

namespace Lru

variable {V N : Type*}

/-- The resource that holds `n`. -/
def holder [DecidableEq N] (a : Lru V N) (n : N) : Option V :=
  a.order.find? fun v => a.held v = some n

/-- The least recently used free resource. -/
def free (a : Lru V N) : Option V := a.order.find? fun v => (a.held v).isNone

section Searches

variable {a : Lru V N} {n : N} {v : V}

theorem holder_some [DecidableEq N] (h : a.holder n = some v) : a.held v = some n := by
  simpa using List.find?_some h

theorem holder_none [DecidableEq N] (h : a.holder n = none) (w : V) : a.held w ≠ some n := by
  simpa using List.find?_eq_none.mp h w (a.mem_order w)

theorem free_some (h : a.free = some v) : a.held v = none := by
  simpa using List.find?_some h

theorem free_none (h : a.free = none) (w : V) : a.held w ≠ none := by
  simpa using List.find?_eq_none.mp h w (a.mem_order w)

/-- The one resource that holds `n` is its holder. -/
theorem holder_eq [DecidableEq N] (h : a.held v = some n)
    (hu : ∀ w, a.held w = some n → w = v) : a.holder n = some v := by
  cases ho : a.holder n with
  | none => exact absurd h (holder_none ho v)
  | some w => rw [hu w (holder_some ho)]

theorem order_head? [Inhabited V] (a : Lru V N) : ∃ v, a.order.head? = some v := by
  cases h : a.order with
  | nil => exact absurd (a.mem_order default) (by simp [h])
  | cons v vs => exact ⟨v, rfl⟩

end Searches

variable [DecidableEq V]

/-- `v` becomes the most recently used resource. -/
def moveBack (a : Lru V N) (v : V) : Lru V N where
  order := touch a.order v
  held := a.held
  nodup := nodup_touch a.nodup v
  mem_order w := (mem_touch (a.mem_order v)).mpr (a.mem_order w)

/-- `v` holds `o`. -/
def store (a : Lru V N) (v : V) (o : Option N) : Lru V N :=
  { a with held := Function.update a.held v o }

variable [DecidableEq N]

/-- Give `n` a resource. -/
def press [Inhabited V] (a : Lru V N) (n : N) : Lru V N × Grant × V :=
  match a.holder n with
  | some v => (a.moveBack v, .again, v)
  | none =>
    match a.free with
    | some v => ((a.store v (some n)).moveBack v, .fresh, v)
    | none =>
      let v := a.order.headD default
      ((a.store v (some n)).moveBack v, .stolen, v)

/-- Take the resource of `n` back. -/
def release (a : Lru V N) (n : N) : Lru V N × Option V :=
  match a.holder n with
  | some v => (a.store v none, some v)
  | none => (a, none)

section Branches

variable [Inhabited V] {a : Lru V N} {n : N} {v : V}

theorem press_again (h : a.holder n = some v) : a.press n = (a.moveBack v, .again, v) := by
  rw [press, h]

theorem press_fresh (h : a.holder n = none) (hf : a.free = some v) :
    a.press n = ((a.store v (some n)).moveBack v, .fresh, v) := by
  rw [press, h]; simp only [hf]

theorem press_stolen (h : a.holder n = none) (hf : a.free = none) (hv : a.order.head? = some v) :
    a.press n = ((a.store v (some n)).moveBack v, .stolen, v) := by
  have hd : a.order.headD default = v := by rw [List.headD_eq_head?_getD, hv]; rfl
  rw [press, h]; simp only [hf, hd]

/-- In every branch the resource granted holds `n` and moves to the back. -/
theorem press_state (a : Lru V N) (n : N) :
    (a.press n).1 = (a.store (a.press n).2.2 (some n)).moveBack (a.press n).2.2 := by
  cases h : a.holder n with
  | none =>
    cases hf : a.free with
    | some v => rw [press_fresh h hf]
    | none =>
      obtain ⟨v, hv⟩ := order_head? a
      rw [press_stolen h hf hv]
  | some v =>
    rw [press_again h]
    simp only [moveBack, store, mk.injEq, true_and]
    rw [← holder_some h, Function.update_eq_self]

/-- What the resources hold after a press. -/
theorem press_held (a : Lru V N) (n : N) (w : V) :
    (a.press n).1.held w = if w = (a.press n).2.2 then some n else a.held w := by
  rw [press_state]
  simp [moveBack, store, Function.update_apply]

theorem press_held_self (a : Lru V N) (n : N) : (a.press n).1.held (a.press n).2.2 = some n := by
  rw [press_held, if_pos rfl]

theorem press_held_ne (a : Lru V N) (n : N) {w : V} (hw : w ≠ (a.press n).2.2) :
    (a.press n).1.held w = a.held w := by
  rw [press_held, if_neg hw]

/-- No other resource holds `n`. -/
theorem press_holder (hu : ∀ v w m, a.held v = some m → a.held w = some m → v = w) {w : V}
    (hw : a.held w = some n) : (a.press n).2.2 = w := by
  rw [press_again (holder_eq hw fun u hu' => hu u w n hu' hw)]

/-- A resource is taken away from another name only when none is free and no
    resource holds `n`, and then it is the least recently used one. -/
theorem press_victim {m : N} (hv : a.held (a.press n).2.2 = some m) (hm : m ≠ n) :
    (∀ w, a.held w ≠ some n) ∧ (∀ w, a.held w ≠ none) ∧
      a.order.head? = some (a.press n).2.2 := by
  cases h : a.holder n with
  | some v =>
    rw [press_again h, holder_some h] at hv
    cases hv
    exact absurd rfl hm
  | none =>
    cases hf : a.free with
    | some v =>
      rw [press_fresh h hf, free_some hf] at hv
      cases hv
    | none =>
      obtain ⟨v, hhead⟩ := order_head? a
      rw [press_stolen h hf hhead]
      exact ⟨holder_none h, free_none hf, hhead⟩

end Branches

/-- `release n` frees exactly what `n` holds. -/
theorem release_held {a : Lru V N} (hu : ∀ v w m, a.held v = some m → a.held w = some m → v = w)
    (n : N) (w : V) :
    (a.release n).1.held w = if a.held w = some n then none else a.held w := by
  unfold release
  cases h : a.holder n with
  | none => simp only; rw [if_neg (holder_none h w)]
  | some v =>
    by_cases hw : a.held w = some n
    · obtain rfl : w = v := hu w v n hw (holder_some h)
      simp [store, hw]
    · have hne : w ≠ v := by rintro rfl; exact hw (holder_some h)
      simp [store, hw, hne]

theorem release_order (a : Lru V N) (n : N) : (a.release n).1.order = a.order := by
  unfold release
  cases a.holder n <;> rfl

end Lru

end StepperSynth.Common
