import Http4.Client.Budget
import Http4.Data.WindowMin

/-!
# What `minRttMs` is the minimum of

The controller keeps one RTT sample and its time. By its contract `minRttMs` is the
smallest sample of the last `MIN_RTT_WINDOW_MS`. Samples and times are exact
rationals; the only arithmetic on them is the age of a sample, which a double may
round.

Main results:

* `minRttMs_iff`: exactly for which samples it is.
* `minRttMs_forgets`: three samples for which it is not.
-/

namespace Http4.Client

namespace BudgetController

/-- A call of `onRttSample` for each sample `(rttMs, now)`. -/
def onRttSamples (c : BudgetController) (samples : List (ℚ × ℚ)) : BudgetController :=
  samples.foldl (fun c s => c.onRttSample s.1 s.2) c

/-- The sample the controller keeps. -/
structure KeepsSample (c : BudgetController) (held : Option (ℚ × ℚ)) : Prop where
  minRtt : c.minRtt = held.map Prod.fst
  minRttAt : ∀ h ∈ held, c.minRttAt = h.2

variable {c : BudgetController} {held : Option (ℚ × ℚ)}

theorem KeepsSample.onRttSample (h : c.KeepsSample held) (s : ℚ × ℚ) :
    (c.onRttSample s.1 s.2).KeepsSample (WindowMin.keep minRttWindowMs held s) := by
  obtain ⟨hrtt, hat⟩ := h
  cases held with
  | none =>
    rw [BudgetController.onRttSample, hrtt]
    exact ⟨rfl, fun h hh => (Option.some.inj hh) ▸ rfl⟩
  | some held =>
    rw [BudgetController.onRttSample, hrtt, Option.map_some, hat held rfl, WindowMin.keep]
    dsimp only
    by_cases hkeep : s.1 ≤ held.1 ∨ s.2 - held.2 > minRttWindowMs
    · rw [if_pos hkeep, if_pos hkeep]
      exact ⟨rfl, fun h hh => (Option.some.inj hh) ▸ rfl⟩
    · rw [if_neg hkeep, if_neg hkeep]
      exact ⟨hrtt, hat⟩

theorem KeepsSample.onRttSamples (h : c.KeepsSample held) (samples : List (ℚ × ℚ)) :
    (c.onRttSamples samples).KeepsSample (samples.foldl (WindowMin.keep minRttWindowMs) held) := by
  induction samples generalizing c held with
  | nil => exact h
  | cons s samples ih => exact ih (h.onRttSample s)

/-- A new controller keeps what the window keeps. -/
theorem minRttMs_onRttSamples (floor cap : ℚ) (k lossFactor : Option ℚ) (samples : List (ℚ × ℚ)) :
    ((new floor cap k lossFactor).onRttSamples samples).minRttMs =
      (WindowMin.held minRttWindowMs samples).map Prod.fst := by
  have hnone : (new floor cap k lossFactor).KeepsSample none := ⟨rfl, by simp⟩
  exact (hnone.onRttSamples samples).minRtt

/-- After the call for `s`, which follows the calls for `before`, `minRttMs` is the
    smallest sample of the window. -/
def MinRttExact (c : BudgetController) (before : List (ℚ × ℚ)) (s : ℚ × ℚ) : Prop :=
  ∃ m, (c.onRttSamples (before ++ [s])).minRttMs = some m ∧
    IsLeast (WindowMin.values minRttWindowMs s.2 (before ++ [s])) m

theorem minRttExact_new_iff {floor cap : ℚ} {k lossFactor : Option ℚ} {before : List (ℚ × ℚ)} {s : ℚ × ℚ} :
    (new floor cap k lossFactor).MinRttExact before s ↔ WindowMin.Exact minRttWindowMs before s := by
  rw [MinRttExact, minRttMs_onRttSamples]
  constructor
  · rintro ⟨m, hm, hleast⟩
    obtain ⟨h, hheld, rfl⟩ := Option.map_eq_some_iff.mp hm
    exact ⟨h, hheld, hleast⟩
  · rintro ⟨h, hheld, hleast⟩
    exact ⟨h.1, by rw [hheld, Option.map_some], hleast⟩

/-- **`minRttMs` and the minimum over the window.** For samples with nondecreasing
    times `minRttMs` is the smallest sample of the last 10 s after every call,
    exactly if at no call all that were the smallest at the call before have left
    the window while a sample in it is smaller than the new one. -/
theorem minRttMs_iff (floor cap : ℚ) (k lossFactor : Option ℚ) (samples : List (ℚ × ℚ))
    (hmono : samples.Pairwise fun a b => a.2 ≤ b.2) :
    (∀ before s, before ++ [s] <+: samples → (new floor cap k lossFactor).MinRttExact before s) ↔
      ∀ before l s, before ++ [l] ++ [s] <+: samples →
        ¬ WindowMin.Forgets minRttWindowMs before l s := by
  simp only [minRttExact_new_iff]
  exact WindowMin.exact_iff (by norm_num [minRttWindowMs]) hmono

/-- Two samples, the second no greater, are held right. -/
theorem minRttMs_iff_two : (new 1 1 none none).MinRttExact [(20, 0)] (10, 5000) := by
  refine (minRttMs_iff 1 1 none none [(20, 0), (10, 5000)] (by norm_num)).mpr ?_ _ _ (List.prefix_refl _)
  rintro before l s hpre ⟨-, z, hz, -, hlt⟩
  obtain rfl : before = [] := by simpa using hpre.length_le
  obtain ⟨rfl, rfl⟩ : l = (20, 0) ∧ s = (10, 5000) := by simpa using hpre
  obtain rfl := List.mem_singleton.mp hz
  exact absurd hlt (by norm_num)

/-- Samples of 10, 20 and 30 ms at 0, 5 and 10.001 s. -/
theorem minRttMs_forgets : ¬ ∀ samples : List (ℚ × ℚ), samples.Pairwise (fun a b => a.2 ≤ b.2) →
    ∀ before s, before ++ [s] <+: samples → (new 1 1 none none).MinRttExact before s := by
  intro h
  obtain ⟨m, hm, hleast⟩ := h [(10, 0), (20, 5000), (30, 10001)] (by norm_num) [(10, 0), (20, 5000)] (30, 10001)
    (List.prefix_refl _)
  have hthirty : m = 30 := by
    have hget : ((new 1 1 none none).onRttSamples [(10, 0), (20, 5000), (30, 10001)]).minRttMs = some 30 := by
      decide +kernel
    exact Option.some.inj (hm.symm.trans hget)
  have hle : m ≤ 20 := hleast.2 ⟨5000, by simp, by norm_num [minRttWindowMs]⟩
  rw [hthirty] at hle
  exact absurd hle (by norm_num : ¬ (30 : ℚ) ≤ 20)

end BudgetController

end Http4.Client
