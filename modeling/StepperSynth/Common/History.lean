import StepperSynth.Common.Lru

/-!
# Presses, releases and what sounds

A history of presses and releases, newest first. `Held h n`: the latest gesture
on `n` is a press. `Sounds k h n`: `n` is held, and at no moment since its
latest press were `k` or more other names held whose latest press came later.

* `tracks_lruOf`: whatever the history, a least recently used allocator holds
  exactly the names that sound, in the order of their latest press.
* `sounds_of_few`: while at most `k` names are held at once, every held name
  sounds.
-/

namespace StepperSynth.Common

/-- A press or a release of a name. -/
inductive Gesture (N : Type*)
  | press (n : N)
  | release (n : N)
  deriving DecidableEq

namespace Gesture

variable {N : Type*}

/-- The name pressed or released. -/
def name : Gesture N → N
  | press n => n
  | release n => n

theorem ne_press_of_name {g : Gesture N} {n : N} (hg : g.name ≠ n) : g ≠ press n := by
  rintro rfl; exact hg rfl

end Gesture

open Gesture

section Spec

variable {N : Type*} [DecidableEq N]

/-- The latest gesture on `n` is a press. -/
def Held (h : List (Gesture N)) (n : N) : Prop :=
  h.find? (fun g => g.name = n) = some (press n)

/-- The number of gestures up to and including the latest press of `n`, or 0. -/
def lastPress : List (Gesture N) → N → ℕ
  | [], _ => 0
  | g :: h, n => if g = press n then h.length + 1 else lastPress h n

/-- `m ≠ n` is held, and was last pressed after `n` was. -/
def Overtakes (h : List (Gesture N)) (n m : N) : Prop :=
  m ≠ n ∧ Held h m ∧ lastPress h n < lastPress h m

/-- `n` is held, and at no moment `h'` since its latest press were there `k` or
    more names that overtook it. -/
def Sounds (k : ℕ) (h : List (Gesture N)) (n : N) : Prop :=
  Held h n ∧ ∀ h', h' <:+ h → lastPress h n ≤ h'.length →
    ∀ S : Finset N, (∀ m ∈ S, Overtakes h' n m) → S.card < k

/-! ## One more gesture -/

variable {h : List (Gesture N)} {g : Gesture N} {n m : N}

theorem not_held_nil : ¬ Held ([] : List (Gesture N)) n := by simp [Held]

theorem held_press : Held (press n :: h) n := by simp [Held, name]

theorem not_held_release : ¬ Held (release n :: h) n := by simp [Held, name]

theorem held_cons (hg : g.name ≠ n) : Held (g :: h) n ↔ Held h n := by simp [Held, hg]

theorem lastPress_le (h : List (Gesture N)) (n : N) : lastPress h n ≤ h.length := by
  induction h with
  | nil => exact le_rfl
  | cons g h ih => rw [lastPress, List.length_cons]; split_ifs <;> omega

theorem lastPress_press : lastPress (press n :: h) n = h.length + 1 := if_pos rfl

theorem lastPress_cons (hg : g ≠ press n) : lastPress (g :: h) n = lastPress h n := if_neg hg

/-- After a gesture on another name there is one more moment to look at. -/
theorem sounds_cons {k : ℕ} (hg : g.name ≠ n) :
    Sounds k (g :: h) n ↔
      Sounds k h n ∧ ∀ S : Finset N, (∀ m ∈ S, Overtakes (g :: h) n m) → S.card < k := by
  have hle := lastPress_le h n
  unfold Sounds
  rw [held_cons hg, lastPress_cons (ne_press_of_name hg), and_assoc]
  refine and_congr_right fun _ => ⟨fun hS => ⟨fun h' hh' => ?_, ?_⟩, fun hS h' hh' hlen => ?_⟩
  · exact hS h' (hh'.trans (List.suffix_cons g h))
  · exact hS _ List.suffix_rfl (by rw [List.length_cons]; omega)
  · rcases List.suffix_cons_iff.mp hh' with rfl | hh'
    · exact hS.2
    · exact hS.1 h' hh' hlen

/-- Nothing overtakes the name just pressed. -/
theorem sounds_press {k : ℕ} (hk : 0 < k) : Sounds k (press n :: h) n := by
  refine ⟨held_press, fun h' hh' hlen S hS => ?_⟩
  rw [lastPress_press] at hlen
  obtain rfl : h' = press n :: h := hh'.eq_of_length_le hlen
  have hempty : S = ∅ := Finset.eq_empty_of_forall_notMem fun m hm => by
    obtain ⟨-, -, hlt⟩ := hS m hm
    have := lastPress_le (press n :: h) m
    rw [lastPress_press] at hlt
    rw [List.length_cons] at this
    omega
  simpa [hempty] using hk

theorem not_sounds_release {k : ℕ} : ¬ Sounds k (release n :: h) n :=
  fun hs => not_held_release hs.1

/-- A held name has been held ever since its latest press. -/
theorem Held.since (hn : Held h n) {h' : List (Gesture N)} (hh' : h' <:+ h)
    (hlen : lastPress h n ≤ h'.length) : Held h' n := by
  induction h with
  | nil => exact absurd hn not_held_nil
  | cons g h ih =>
    rcases List.suffix_cons_iff.mp hh' with rfl | hsuf
    · exact hn
    · by_cases hg : g.name = n
      · cases g with
        | press m =>
          obtain rfl : m = n := hg
          rw [lastPress_press] at hlen
          have := hsuf.length_le
          omega
        | release m =>
          obtain rfl : m = n := hg
          exact absurd hn not_held_release
      · rw [lastPress_cons (ne_press_of_name hg)] at hlen
        exact ih ((held_cons hg).mp hn) hsuf hlen

/-- While at most `k` names are held at once, every held name sounds. -/
theorem sounds_of_few {k : ℕ}
    (hfew : ∀ h', h' <:+ h → ∀ S : Finset N, (∀ m ∈ S, Held h' m) → S.card ≤ k)
    (hn : Held h n) : Sounds k h n := by
  refine ⟨hn, fun h' hh' hlen S hS => ?_⟩
  have hnS : n ∉ S := fun hmem => (hS n hmem).1 rfl
  have hcard := hfew h' hh' (insert n S) fun m hm => by
    rcases Finset.mem_insert.mp hm with rfl | hm
    · exact hn.since hh' hlen
    · exact (hS m hm).2.1
  rw [Finset.card_insert_of_notMem hnS] at hcard
  omega

end Spec

/-! ## The allocator holds what sounds -/

section Tracks

variable {V N : Type*}

/-- Names with a resource other than that of `n` are fewer than the resources. -/
theorem card_lt_of_held [Fintype V] [DecidableEq V] {a : Lru V N} {v : V} {n : N}
    (hv : a.held v = some n) (S : Finset N)
    (hS : ∀ m ∈ S, m ≠ n ∧ ∃ w, a.held w = some m) : S.card < Fintype.card V := by
  have hex : ∀ m ∈ S, ∃ w, a.held w = some m := fun m hm => (hS m hm).2
  have : Nonempty V := ⟨v⟩
  choose! f hf using hex
  have hinj : Set.InjOn f S := fun m hm m' hm' he => by
    have := hf m hm
    rw [he, hf m' hm', Option.some.injEq] at this
    exact this.symm
  have hsub : S.image f ⊆ Finset.univ.erase v := fun w hw => by
    obtain ⟨m, hm, rfl⟩ := Finset.mem_image.mp hw
    refine Finset.mem_erase.mpr ⟨fun he => (hS m hm).1 ?_, Finset.mem_univ _⟩
    have := hf m hm
    rw [he, hv, Option.some.injEq] at this
    exact this.symm
  calc S.card = (S.image f).card := (Finset.card_image_of_injOn hinj).symm
    _ ≤ (Finset.univ.erase v).card := Finset.card_le_card hsub
    _ < Fintype.card V := Finset.card_erase_lt_of_mem (Finset.mem_univ v)

variable [DecidableEq N]

/-- What the allocator `a` has to do with the history `h`. -/
structure Tracks [Fintype V] (h : List (Gesture N)) (a : Lru V N) : Prop where
  held : ∀ v n, a.held v = some n → Held h n
  inj : ∀ v w n, a.held v = some n → a.held w = some n → v = w
  ordered : a.order.Pairwise fun v w =>
    ∀ n m, a.held v = some n → a.held w = some m → lastPress h n < lastPress h m
  /-- Every held name pressed later than a name with a resource has one too. -/
  closed : ∀ v n m, a.held v = some n → Held h m → lastPress h n < lastPress h m →
    ∃ w, a.held w = some m
  sounds : ∀ n, (∃ v, a.held v = some n) ↔ Sounds (Fintype.card V) h n

variable [Fintype V] {h : List (Gesture N)} {a : Lru V N}

/-- When every resource is held, the names with a resource number as many. -/
theorem exists_names (hinj : ∀ v w n, a.held v = some n → a.held w = some n → v = w)
    (hfull : ∀ v, a.held v ≠ none) :
    ∃ S : Finset N, S.card = Fintype.card V ∧ ∀ m ∈ S, ∃ w, a.held w = some m := by
  have hex : ∀ v, ∃ m, a.held v = some m := fun v => Option.ne_none_iff_exists'.mp (hfull v)
  choose f hf using hex
  refine ⟨Finset.univ.image f, ?_, fun m hm => ?_⟩
  · rw [Finset.card_image_of_injective _ fun v w he => hinj v w (f v) (hf v) (by rw [he, hf w]),
      Finset.card_univ]
  · obtain ⟨w, -, rfl⟩ := Finset.mem_image.mp hm
    exact ⟨w, hf w⟩

variable [DecidableEq V]

/-- The names that overtake a name with a resource are too few to silence it. -/
theorem overtakes_card_lt
    (hclosed : ∀ v n m, a.held v = some n → Held h m → lastPress h n < lastPress h m →
      ∃ w, a.held w = some m) {v : V} {n : N} (hv : a.held v = some n) (S : Finset N)
    (hS : ∀ m ∈ S, Overtakes h n m) : S.card < Fintype.card V :=
  card_lt_of_held hv S fun m hm => ⟨(hS m hm).1, hclosed v n m hv (hS m hm).2.1 (hS m hm).2.2⟩

/-! ### A release -/

theorem lastPress_release (h : List (Gesture N)) (n m : N) :
    lastPress (Gesture.release n :: h) m = lastPress h m := lastPress_cons (by simp)

theorem held_release (h : List (Gesture N)) (n m : N) :
    Held (Gesture.release n :: h) m ↔ Held h m ∧ m ≠ n := by
  by_cases hm : m = n
  · subst hm
    simp [not_held_release]
  · rw [held_cons (g := Gesture.release n) (Ne.symm hm)]
    simp [hm]

/-- A name keeps its resource exactly when it is not the one released. -/
theorem Tracks.release_held (ht : Tracks h a) (n : N) (w : V) (m : N) :
    (a.release n).1.held w = some m ↔ a.held w = some m ∧ m ≠ n := by
  rw [Lru.release_held ht.inj n]
  by_cases hw : a.held w = some n
  · rw [if_pos hw, hw]
    simp +contextual [eq_comm]
  · rw [if_neg hw]
    exact ⟨fun h => ⟨h, by rintro rfl; exact hw h⟩, fun h => h.1⟩

theorem Tracks.release_closed (ht : Tracks h a) (n : N) (v : V) (m m' : N)
    (hv : (a.release n).1.held v = some m) (hm' : Held (Gesture.release n :: h) m')
    (hlt : lastPress (Gesture.release n :: h) m < lastPress (Gesture.release n :: h) m') :
    ∃ w, (a.release n).1.held w = some m' := by
  rw [lastPress_release, lastPress_release] at hlt
  obtain ⟨hm', hne⟩ := (held_release h n m').mp hm'
  obtain ⟨w, hw⟩ := ht.closed v m m' ((ht.release_held n v m).mp hv).1 hm' hlt
  exact ⟨w, (ht.release_held n w m').mpr ⟨hw, hne⟩⟩

theorem Tracks.release_sounds (ht : Tracks h a) (n m : N) :
    (∃ v, (a.release n).1.held v = some m) ↔
      Sounds (Fintype.card V) (Gesture.release n :: h) m := by
  by_cases hm : m = n
  · subst hm
    exact ⟨fun ⟨v, hv⟩ => absurd rfl ((ht.release_held m v m).mp hv).2,
      fun hs => absurd hs not_sounds_release⟩
  · rw [sounds_cons (g := Gesture.release n) (Ne.symm hm), ← ht.sounds m]
    constructor
    · rintro ⟨v, hv⟩
      exact ⟨⟨v, ((ht.release_held n v m).mp hv).1⟩, overtakes_card_lt (ht.release_closed n) hv⟩
    · rintro ⟨⟨v, hv⟩, -⟩
      exact ⟨v, (ht.release_held n v m).mpr ⟨hv, hm⟩⟩

theorem Tracks.release (ht : Tracks h a) (n : N) :
    Tracks (Gesture.release n :: h) (a.release n).1 where
  held v m hv := by
    obtain ⟨hv, hne⟩ := (ht.release_held n v m).mp hv
    exact (held_release h n m).mpr ⟨ht.held v m hv, hne⟩
  inj v w m hv hw :=
    ht.inj v w m ((ht.release_held n v m).mp hv).1 ((ht.release_held n w m).mp hw).1
  ordered := by
    rw [Lru.release_order]
    refine ht.ordered.imp fun hvw m m' hm hm' => ?_
    rw [lastPress_release, lastPress_release]
    exact hvw m m' ((ht.release_held n _ m).mp hm).1 ((ht.release_held n _ m').mp hm').1
  closed := ht.release_closed n
  sounds := ht.release_sounds n

/-! ### A press -/

variable [Inhabited V]

/-- The resource granted was not in use by a name pressed later than another
    name with a resource. -/
theorem Tracks.victim_oldest (ht : Tracks h a) {n m m' : N} {w : V}
    (hv : a.held (a.press n).2.2 = some m) (hm : m ≠ n) (hw : a.held w = some m')
    (hne : w ≠ (a.press n).2.2) : lastPress h m < lastPress h m' := by
  obtain ⟨-, -, hhead⟩ := Lru.press_victim hv hm
  have hord := ht.ordered
  obtain ⟨v, vs, hvs⟩ : ∃ v vs, a.order = v :: vs := List.exists_cons_of_ne_nil
    (List.ne_nil_of_mem (a.mem_order w))
  rw [hvs, List.head?_cons, Option.some.injEq] at hhead
  rw [hvs, hhead, List.pairwise_cons] at hord
  have hmem : w ∈ vs := by
    have := a.mem_order w
    rw [hvs, hhead, List.mem_cons] at this
    exact this.resolve_left hne
  exact hord.1 w hmem m m' hv hw

/-- A resource other than the one granted does not hold `n`. -/
theorem Tracks.held_ne (ht : Tracks h a) {n m : N} {w : V} (hw : w ≠ (a.press n).2.2)
    (hm : a.held w = some m) : m ≠ n := by
  rintro rfl
  exact hw (Lru.press_holder ht.inj hm).symm

/-- A resource holds, after a press of `n`, either `n`, or what it held before. -/
theorem Tracks.press_cases (ht : Tracks h a) {n m : N} {w : V}
    (hw : (a.press n).1.held w = some m) :
    w = (a.press n).2.2 ∧ m = n ∨ w ≠ (a.press n).2.2 ∧ a.held w = some m ∧ m ≠ n := by
  by_cases hv : w = (a.press n).2.2
  · left
    rw [hv, Lru.press_held_self, Option.some.injEq] at hw
    exact ⟨hv, hw.symm⟩
  · right
    rw [Lru.press_held_ne a n hv] at hw
    exact ⟨hv, hw, ht.held_ne hv hw⟩

theorem lastPress_press_ne (h : List (Gesture N)) {n m : N} (hm : m ≠ n) :
    lastPress (Gesture.press n :: h) m = lastPress h m :=
  lastPress_cons (by simpa using Ne.symm hm)

theorem held_press_ne (h : List (Gesture N)) {n m : N} (hm : m ≠ n) :
    Held (Gesture.press n :: h) m ↔ Held h m := held_cons (g := Gesture.press n) (Ne.symm hm)

/-- Every other press is older than the one just made. -/
theorem lastPress_lt_press (h : List (Gesture N)) {n m : N} (hm : m ≠ n) :
    lastPress (Gesture.press n :: h) m < lastPress (Gesture.press n :: h) n := by
  have := lastPress_le h m
  rw [lastPress_press, lastPress_press_ne h hm]
  omega

theorem Tracks.press_inj (ht : Tracks h a) (n : N) (u w : V) (m : N)
    (hu : (a.press n).1.held u = some m) (hw : (a.press n).1.held w = some m) : u = w := by
  rcases ht.press_cases hu with ⟨hu, hm⟩ | ⟨-, hu, hm⟩ <;>
    rcases ht.press_cases hw with ⟨hw, hm'⟩ | ⟨-, hw, hm'⟩
  · rw [hu, hw]
  · exact absurd hm hm'
  · exact absurd hm' hm
  · exact ht.inj u w m hu hw

theorem Tracks.press_closed (ht : Tracks h a) (n : N) (w : V) (m m' : N)
    (hw : (a.press n).1.held w = some m) (hm' : Held (Gesture.press n :: h) m')
    (hlt : lastPress (Gesture.press n :: h) m < lastPress (Gesture.press n :: h) m') :
    ∃ u, (a.press n).1.held u = some m' := by
  by_cases hn' : m' = n
  · subst hn'
    exact ⟨_, Lru.press_held_self a m'⟩
  rcases ht.press_cases hw with ⟨-, rfl⟩ | ⟨hwv, hwm, hne⟩
  · exact absurd hlt (lastPress_lt_press h hn').asymm
  rw [lastPress_press_ne h hne, lastPress_press_ne h hn'] at hlt
  obtain ⟨u, hu⟩ := ht.closed w m m' hwm ((held_press_ne h hn').mp hm') hlt
  by_cases huv : u = (a.press n).2.2
  · -- then the oldest name was taken away, but `m` is older
    rw [huv] at hu
    have := ht.victim_oldest hu hn' hwm hwv
    omega
  · exact ⟨u, (Lru.press_held_ne a n huv).trans hu⟩

theorem Tracks.press_ordered (ht : Tracks h a) (n : N) :
    (a.press n).1.order.Pairwise fun v w => ∀ m m', (a.press n).1.held v = some m →
      (a.press n).1.held w = some m' →
        lastPress (Gesture.press n :: h) m < lastPress (Gesture.press n :: h) m' := by
  have horder : (a.press n).1.order = touch a.order (a.press n).2.2 := by
    rw [Lru.press_state]
    rfl
  rw [horder]
  refine pairwise_touch a.nodup (fun w hwv m m' hm hm' => ?_)
    (fun u w huv hwv huw m m' hm hm' => ?_) ht.ordered
  · rw [Lru.press_held_self, Option.some.injEq] at hm'
    rw [Lru.press_held_ne a n hwv] at hm
    exact hm' ▸ lastPress_lt_press h (ht.held_ne hwv hm)
  · rw [Lru.press_held_ne a n huv] at hm
    rw [Lru.press_held_ne a n hwv] at hm'
    rw [lastPress_press_ne h (ht.held_ne huv hm), lastPress_press_ne h (ht.held_ne hwv hm')]
    exact huw m m' hm hm'

/-- A name that lost its resource has been overtaken by as many names as there
    are resources. -/
theorem Tracks.stolen_overtaken (ht : Tracks h a) {n m : N} (hm : m ≠ n)
    (hv : a.held (a.press n).2.2 = some m) :
    ∃ S : Finset N, S.card = Fintype.card V ∧ ∀ m' ∈ S, Overtakes (Gesture.press n :: h) m m' := by
  obtain ⟨-, hbusy, -⟩ := Lru.press_victim hv hm
  obtain ⟨S, hcard, hS⟩ := exists_names (ht.press_inj n) fun u => by
    rw [Lru.press_held]
    split_ifs <;> simp [hbusy]
  refine ⟨S, hcard, fun m' hm' => ?_⟩
  obtain ⟨u, hu⟩ := hS m' hm'
  rcases ht.press_cases hu with ⟨-, rfl⟩ | ⟨huv, hum, hne⟩
  · exact ⟨Ne.symm hm, held_press, lastPress_lt_press h hm⟩
  · refine ⟨?_, (held_press_ne h hne).mpr (ht.held u m' hum), ?_⟩
    · rintro rfl
      exact huv (ht.inj u _ m' hum hv)
    · rw [lastPress_press_ne h hm, lastPress_press_ne h hne]
      exact ht.victim_oldest hv hm hum huv

theorem Tracks.press_sounds (ht : Tracks h a) (n m : N) :
    (∃ w, (a.press n).1.held w = some m) ↔
      Sounds (Fintype.card V) (Gesture.press n :: h) m := by
  by_cases hm : m = n
  · subst hm
    exact ⟨fun _ => sounds_press (Fintype.card_pos_iff.mpr ⟨default⟩),
      fun _ => ⟨_, Lru.press_held_self a m⟩⟩
  · rw [sounds_cons (g := Gesture.press n) (Ne.symm hm), ← ht.sounds m]
    constructor
    · rintro ⟨w, hw⟩
      rcases ht.press_cases hw with ⟨-, h⟩ | ⟨-, hwm, -⟩
      · exact absurd h hm
      · exact ⟨⟨w, hwm⟩, overtakes_card_lt (ht.press_closed n) hw⟩
    · rintro ⟨⟨w, hw⟩, hfew⟩
      by_cases hwv : w = (a.press n).2.2
      · obtain ⟨S, hcard, hS⟩ := ht.stolen_overtaken hm (hwv ▸ hw)
        exact absurd (hfew S hS) (by omega)
      · exact ⟨w, (Lru.press_held_ne a n hwv).trans hw⟩

theorem Tracks.press (ht : Tracks h a) (n : N) :
    Tracks (Gesture.press n :: h) (a.press n).1 where
  held w m hw := by
    rcases ht.press_cases hw with ⟨-, rfl⟩ | ⟨-, hwm, hne⟩
    · exact held_press
    · exact (held_press_ne h hne).mpr (ht.held w m hwm)
  inj := ht.press_inj n
  ordered := ht.press_ordered n
  closed := ht.press_closed n
  sounds := ht.press_sounds n

/-! ### A history -/

/-- The allocator after a history, newest gesture first. -/
def lruOf (a : Lru V N) : List (Gesture N) → Lru V N
  | [] => a
  | Gesture.press n :: h => ((lruOf a h).press n).1
  | Gesture.release n :: h => ((lruOf a h).release n).1

/-- An allocator that starts with every resource free tracks every history. -/
theorem tracks_lruOf (hfree : ∀ v, a.held v = none) (h : List (Gesture N)) :
    Tracks h (lruOf a h) := by
  induction h with
  | nil =>
    have hno : ∀ v n, a.held v ≠ some n := fun v n hv => by rw [hfree v] at hv; cases hv
    exact ⟨fun v n hv => absurd hv (hno v n), fun v _ n hv => absurd hv (hno v n),
      List.pairwise_of_forall fun v w n m hv _ => absurd hv (hno v n),
      fun v n _ hv => absurd hv (hno v n),
      fun n => ⟨fun ⟨v, hv⟩ => absurd hv (hno v n), fun hs => absurd hs.1 not_held_nil⟩⟩
  | cons g h ih =>
    cases g with
    | press n => exact ih.press n
    | release n => exact ih.release n

end Tracks

end StepperSynth.Common
