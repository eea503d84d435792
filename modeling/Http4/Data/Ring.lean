import Mathlib

/-!
# Rings of the last entries

Entries numbered 0, 1, 2, … are kept in slots by their number modulo `size`, so
that each one overwrites the one `size` before it. `key` reads the number an
entry was stored under, if it is one at all, and `R j e` says that `e` is a right
entry for `j`.

Main results:

* `Window.push`: storing the next number.
* `Window.holds_iff`: a number is found iff it is one of the last `size` stored.
-/

namespace Ring

variable {α : Type*} (size : ℕ) (key : α → Option ℕ)

/-- A look-up of `j` finds an entry stored under `j`. -/
def Holds (ring : ℕ → α) (j : ℕ) : Prop := key (ring (j % size)) = some j

/-- The ring holds the last `size` of the first `k` entries. -/
structure Window (R : ℕ → α → Prop) (ring : ℕ → α) (k : ℕ) : Prop where
  /-- Whatever a slot holds is one of them, and in its place. -/
  recent : ∀ i j, key (ring i) = some j → j < k ∧ k ≤ j + size ∧ j % size = i
  /-- Each of them is in its slot. -/
  kept : ∀ j, j < k → k ≤ j + size → key (ring (j % size)) = some j ∧ R j (ring (j % size))

variable {size key} {R R' : ℕ → α → Prop} {ring ring' : ℕ → α} {k : ℕ}

theorem Window.empty (h : ∀ i, key (ring i) = none) : Window size key R ring 0 where
  recent i j hj := by
    rw [h i] at hj
    cases hj
  kept j hj := absurd hj (Nat.not_lt_zero j)

/-- **A number is found iff it is one of the last `size` stored.** -/
theorem Window.holds_iff (h : Window size key R ring k) {j : ℕ} :
    Holds size key ring j ↔ j < k ∧ k ≤ j + size := by
  constructor
  · intro hj
    obtain ⟨hlt, hle, -⟩ := h.recent _ j hj
    exact ⟨hlt, hle⟩
  · intro ⟨hlt, hle⟩
    exact (h.kept j hlt hle).1

/-- **Storing the next number.** It takes the place of the oldest one. -/
theorem Window.push (h : Window size key R ring k) (hsize : 0 < size) {e : α}
    (hkey : key e = some k) (he : R k e) :
    Window size key R (Function.update ring (k % size) e) (k + 1) where
  recent i j hj := by
    by_cases hi : i = k % size
    · rw [hi, Function.update_self, hkey, Option.some.injEq] at hj
      subst hj
      exact ⟨Nat.lt_succ_self _, by omega, hi.symm⟩
    · rw [Function.update_of_ne hi] at hj
      obtain ⟨hlt, hle, hji⟩ := h.recent i j hj
      -- were `j` the oldest, it would sit in the slot of `k`
      have hne : j + size ≠ k := by
        intro heq
        exact hi (by rw [← hji, ← heq, Nat.add_mod_right])
      exact ⟨by omega, by omega, hji⟩
  kept j hlt hle := by
    by_cases hjk : j = k
    · subst hjk
      rw [Function.update_self]
      exact ⟨hkey, he⟩
    · have hslot : j % size ≠ k % size := by
        intro heq
        have hdvd := (Nat.modEq_iff_dvd' (show j ≤ k by omega)).mp heq
        exact absurd (Nat.le_of_dvd (by omega) hdvd) (by omega)
      rw [Function.update_of_ne hslot]
      exact h.kept j (by omega) (by omega)

/-- A change of the entries that keeps their numbers. -/
theorem Window.congr (h : Window size key R ring k) (hkey : ∀ i, key (ring' i) = key (ring i))
    (hR : ∀ i j, j < k → key (ring i) = some j → R j (ring i) → R' j (ring' i)) :
    Window size key R' ring' k where
  recent i j hj := h.recent i j (by rwa [hkey] at hj)
  kept j hlt hle := by
    obtain ⟨hj, he⟩ := h.kept j hlt hle
    exact ⟨by rw [hkey]; exact hj, hR _ j hlt hj he⟩

end Ring
