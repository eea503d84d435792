import Mathlib

/-!
# Leaky buckets

A bucket books slots of equal length one after another. A slot that is not used in time
is kept as credit, up to `cap` in all. Something may be let through when the next slot
is due.

Main results:

* `admits_iff`: what goes through is paced from the first slot and spaced out
  among itself.
* `spaced_iff_bounded`: events are spaced out exactly if no window holds more of them
  than the credit and its length allow.
-/

namespace LeakyBucket

/-- The next slot after something went through at `t`. -/
def book (cap slot next t : ℤ) : ℤ := max next (t - cap) + slot

/-- Each event comes when the next slot is due. -/
def Admits (cap slot : ℤ) : ℤ → List ℤ → Prop
  | _, [] => True
  | next, t :: ts => next ≤ t ∧ Admits cap slot (book cap slot next t) ts

/-- The events come no earlier than the slots from `next` on. -/
def Paced (slot : ℤ) : ℤ → List ℤ → Prop
  | _, [] => True
  | next, t :: ts => next ≤ t ∧ Paced slot (next + slot) ts

/-- After each event the next ones are paced, less the credit. -/
def Spaced (cap slot : ℤ) : List ℤ → Prop
  | [] => True
  | t :: ts => Paced slot (t - cap + slot) ts ∧ Spaced cap slot ts

section

variable {cap slot : ℤ}

theorem paced_max_iff {a b : ℤ} {ts : List ℤ} : Paced slot (max a b) ts ↔ Paced slot a ts ∧ Paced slot b ts := by
  induction ts generalizing a b with
  | nil => exact ⟨fun _ => ⟨trivial, trivial⟩, fun _ => trivial⟩
  | cons t ts ih =>
    unfold Paced
    rw [← max_add_add_right, ih, max_le_iff]
    exact and_and_and_comm

/-- A bucket lets through what is paced from its next slot and spaced out. -/
theorem admits_iff {next : ℤ} {ts : List ℤ} :
    Admits cap slot next ts ↔ Paced slot next ts ∧ Spaced cap slot ts := by
  induction ts generalizing next with
  | nil => exact ⟨fun _ => ⟨trivial, trivial⟩, fun _ => trivial⟩
  | cons t ts ih =>
    unfold Admits Paced Spaced book
    rw [ih, ← max_add_add_right, paced_max_iff]
    constructor
    · rintro ⟨hdue, ⟨h1, h2⟩, h3⟩
      exact ⟨⟨hdue, h1⟩, h2, h3⟩
    · rintro ⟨⟨hdue, h1⟩, h2, h3⟩
      exact ⟨hdue, ⟨h1, h2⟩, h3⟩

theorem Paced.mono {a b : ℤ} {ts : List ℤ} (h : Paced slot b ts) (hab : a ≤ b) : Paced slot a ts := by
  rw [← max_eq_right hab, paced_max_iff] at h
  exact h.1

/-- The `j`-th event comes no earlier than the `j`-th slot. -/
theorem paced_iff {next : ℤ} {ts : List ℤ} :
    Paced slot next ts ↔ ∀ j (h : j < ts.length), next + j * slot ≤ ts[j] := by
  induction ts generalizing next with
  | nil => exact ⟨fun _ j h => absurd h (by simp), fun _ => trivial⟩
  | cons t ts ih =>
    unfold Paced
    rw [ih]
    constructor
    · rintro ⟨hfirst, hrest⟩ j hj
      cases j with
      | zero => simpa using hfirst
      | succ j =>
        have := hrest j (by simpa using hj)
        rw [List.getElem_cons_succ]
        push_cast
        linarith
    · intro h
      have hfirst := h 0 (by simp)
      rw [List.getElem_cons_zero, Nat.cast_zero, zero_mul, add_zero] at hfirst
      refine ⟨hfirst, ?_⟩
      intro j hj
      have := h (j + 1) (by simpa using hj)
      rw [List.getElem_cons_succ] at this
      push_cast at this
      linarith

variable (hslot : 0 < slot)
include hslot

/-- Fewer events are paced as well. -/
theorem Paced.sublist {next : ℤ} {ts us : List ℤ} (h : Paced slot next ts) (hsub : us.Sublist ts) :
    Paced slot next us := by
  induction hsub generalizing next with
  | slnil => exact h
  | cons t _ ih => exact ih (h.2.mono (by omega))
  | cons_cons t _ ih => exact ⟨h.1, ih h.2⟩

theorem Spaced.sublist {ts us : List ℤ} (h : Spaced cap slot ts) (hsub : us.Sublist ts) : Spaced cap slot us := by
  induction hsub with
  | slnil => exact h
  | cons t _ ih => exact ih h.2
  | cons_cons t hsub ih => exact ⟨h.1.sublist hslot hsub, ih h.2⟩

end

/-! ## Windows -/

/-- The events in the window of length `L` from `a` on. -/
def inWindow (a L : ℤ) (ts : List ℤ) : List ℤ := ts.filter fun t => a ≤ t ∧ t ≤ a + L

/-- No window holds more than `k` events and one for each slot of its length. -/
def Bounded (k : ℕ) (slot : ℤ) (ts : List ℤ) : Prop :=
  ∀ a L, 0 ≤ L → ((inWindow a L ts).length : ℤ) ≤ k + L / slot

section

variable {slot : ℤ} (hslot : 0 < slot) {k : ℕ} (hk : 1 ≤ k) {ts : List ℤ}
include hslot hk

/-- Spaced events are few in any window. -/
theorem Spaced.bounded (h : Spaced (((k : ℤ) - 1) * slot) slot ts) : Bounded k slot ts := by
  intro a L hL
  have hwin := h.sublist hslot (List.filter_sublist (p := fun t => decide (a ≤ t ∧ t ≤ a + L)))
  have hmem : ∀ t ∈ inWindow a L ts, a ≤ t ∧ t ≤ a + L := by
    intro t ht
    exact of_decide_eq_true (List.mem_filter.mp ht).2
  have hdiv : 0 ≤ L / slot := Int.ediv_nonneg hL hslot.le
  change Spaced _ _ (inWindow a L ts) at hwin
  generalize inWindow a L ts = us at hwin hmem ⊢
  cases us with
  | nil =>
    rw [List.length_nil]
    omega
  | cons t rest =>
    rcases List.eq_nil_or_concat' rest with rfl | ⟨front, last, rfl⟩
    · rw [List.length_singleton]
      omega
    · have hlast := paced_iff.mp hwin.1 front.length (by simp)
      rw [List.getElem_concat_length rfl] at hlast
      have h1 := (hmem t (by simp)).1
      have h2 := (hmem last (by simp)).2
      -- `front.length + 2` events span at least as many slots, less the credit
      have hspan : ((front.length : ℤ) + 2 - k) * slot ≤ L := by linarith
      have hquot : (front.length : ℤ) + 2 - k ≤ L / slot := (Int.le_ediv_iff_mul_le hslot).mpr hspan
      simp only [List.length_cons, List.length_append, List.length_nil]
      push_cast
      omega

omit hk in
/-- Events that are few in every window are spaced out. -/
theorem Bounded.spaced (hsorted : ts.Pairwise (· ≤ ·)) (h : Bounded k slot ts) :
    Spaced (((k : ℤ) - 1) * slot) slot ts := by
  induction ts with
  | nil => trivial
  | cons t ts ih =>
    obtain ⟨ht, hts⟩ := List.pairwise_cons.mp hsorted
    refine ⟨?_, ih hts ?_⟩
    · rw [paced_iff]
      intro j hj
      have hle : t ≤ ts[j] := ht _ (List.getElem_mem hj)
      have hcount := h t (ts[j] - t) (by omega)
      -- the window from `t` to the `j`-th event holds the first `j + 2`
      have hall : ∀ x ∈ t :: ts.take (j + 1), t ≤ x ∧ x ≤ t + (ts[j] - t) := by
        intro x hx
        rcases List.mem_cons.mp hx with rfl | hx
        · omega
        · obtain ⟨i, hi, rfl⟩ := List.mem_take_iff_getElem.mp hx
          have hle' : ts[i] ≤ ts[j] := by
            rcases Nat.lt_or_ge i j with hij | hij
            · exact List.pairwise_iff_getElem.mp hts i j (by omega) hj hij
            · have : i = j := by omega
              subst this
              exact le_rfl
          have hi' : i < ts.length := by omega
          have := ht _ (List.getElem_mem hi')
          omega
      have hsub : (t :: ts.take (j + 1)).Sublist (inWindow t (ts[j] - t) (t :: ts)) := by
        have hfilter : (t :: ts.take (j + 1)).filter (fun x => decide (t ≤ x ∧ x ≤ t + (ts[j] - t))) =
            t :: ts.take (j + 1) := List.filter_eq_self.mpr fun x hx => decide_eq_true (hall x hx)
        rw [← hfilter]
        exact ((List.take_sublist (j + 1) ts).cons_cons t).filter _
      have hlen := hsub.length_le
      rw [List.length_cons, List.length_take, Nat.min_eq_left hj] at hlen
      have hquot : (j : ℤ) + 2 - k ≤ (ts[j] - t) / slot := by
        have : ((j + 1 + 1 : ℕ) : ℤ) ≤ k + (ts[j] - t) / slot := le_trans (by exact_mod_cast hlen) hcount
        push_cast at this
        omega
      have hspan := (Int.le_ediv_iff_mul_le hslot).mp hquot
      linarith
    · intro a L hL
      refine le_trans ?_ (h a L hL)
      exact_mod_cast ((List.sublist_cons_self t ts).filter _).length_le

/-- **Events are spaced out exactly if no window holds too many.** -/
theorem spaced_iff_bounded (hsorted : ts.Pairwise (· ≤ ·)) :
    Spaced (((k : ℤ) - 1) * slot) slot ts ↔ Bounded k slot ts :=
  ⟨Spaced.bounded hslot hk, Bounded.spaced hslot hsorted⟩

end

end LeakyBucket
