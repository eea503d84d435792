import Http4.Client.Budget

/-!
# Quiet periods

`client/src/budget.ts` says that samples of intervals in which the budget was not
the limit "only count if they raise the max, so a quiet period doesn't shrink the
estimate". Its window counts rounds: a sample leaves it `rateWindowRounds` rounds
after its own, and quiet rounds count.

Main results:

* `onDelivered_cases`: a delivery completes a round or leaves the samples alone;
  a round sets the maximum to the greater of its own rate and what the window keeps.
* `quiet_period_iff`: in a series of deliveries `maxRate` never decreases exactly
  if each round comes before the last sample that holds it leaves the window, or
  delivers at that rate itself.
-/

namespace Http4.Client

namespace BudgetController

/-! ## Runs of a controller -/

/-- The calls of a controller's methods. A round trip takes no negative time. -/
inductive Call
  | onRttSample (rttMs : ℚ≥0) (now : ℚ)
  | noteLimited
  | onDelivered (bytes now : ℚ)
  | onLoss (now : ℚ)
  deriving DecidableEq

/-- One call. -/
def call (c : BudgetController) : Call → Option BudgetController
  | .onRttSample rttMs now => some (c.onRttSample rttMs now)
  | .noteLimited => some c.noteLimited
  | .onDelivered bytes now => some (c.onDelivered bytes now)
  | .onLoss now => some (c.onLoss now)

/-- The arguments of an `onDelivered` call. -/
structure Delivery where
  bytes : ℚ
  now : ℚ
  deriving DecidableEq

/-- The controller after a series of `onDelivered` calls. -/
def deliver (c : BudgetController) (ds : List Delivery) : BudgetController :=
  ds.foldl (fun c d => c.onDelivered d.bytes d.now) c

/-! ## The maximum -/

/-- `maxRate` of a controller with these samples. -/
def peak (samples : List RateSample) : ℚ := samples.foldl (fun m s => max m s.rate) 0

theorem foldl_max_le_iff (samples : List RateSample) (m q : ℚ) :
    samples.foldl (fun m s => max m s.rate) m ≤ q ↔ m ≤ q ∧ ∀ s ∈ samples, s.rate ≤ q := by
  induction samples generalizing m with
  | nil => simp
  | cons s samples ih => rw [List.foldl_cons, ih, max_le_iff, List.forall_mem_cons, and_assoc]

theorem peak_le_iff {samples : List RateSample} {q : ℚ} :
    peak samples ≤ q ↔ 0 ≤ q ∧ ∀ s ∈ samples, s.rate ≤ q :=
  foldl_max_le_iff samples 0 q

theorem peak_nonneg (samples : List RateSample) : 0 ≤ peak samples := (peak_le_iff.mp le_rfl).1

theorem rate_le_peak {samples : List RateSample} {s : RateSample} (hs : s ∈ samples) :
    s.rate ≤ peak samples :=
  (peak_le_iff.mp le_rfl).2 s hs

theorem peak_lt_iff {samples : List RateSample} {q : ℚ} :
    peak samples < q ↔ 0 < q ∧ ∀ s ∈ samples, s.rate < q := by
  constructor
  · intro h
    exact ⟨(peak_nonneg samples).trans_lt h, fun s hs => (rate_le_peak hs).trans_lt h⟩
  · unfold peak
    rintro ⟨hpos, hrates⟩
    generalize (0 : ℚ) = m at hpos
    induction samples generalizing m with
    | nil => exact hpos
    | cons s samples ih =>
      obtain ⟨hs, hrates⟩ := List.forall_mem_cons.mp hrates
      exact ih hrates (max m s.rate) (max_lt hpos hs)

theorem peak_concat (samples : List RateSample) (s : RateSample) :
    peak (samples ++ [s]) = max (peak samples) s.rate := by
  unfold peak
  rw [List.foldl_append, List.foldl_cons, List.foldl_nil]

/-! ## What a delivery changes -/

variable {c : BudgetController}

/-- The samples that one more round leaves in the window. -/
def keptSamples (c : BudgetController) : List RateSample :=
  c.samples.filter fun s => decide (c.round + 1 - s.round < rateWindowRounds)

/-- A delivery completes a round or leaves the samples alone. -/
theorem onDelivered_cases (c : BudgetController) (bytes now : ℚ) :
    (c.onDelivered bytes now).minRtt = c.minRtt ∧
    ((∀ start ∈ c.intervalStart, now - start < max minIntervalMs (c.minRtt.getD 0)) ∧
        (c.onDelivered bytes now).maxRate = c.maxRate ∨
      ∃ start ∈ c.intervalStart, max minIntervalMs (c.minRtt.getD 0) ≤ now - start ∧
        (c.onDelivered bytes now).maxRate =
          max (peak c.keptSamples) ((c.intervalBytes + bytes) / (now - start))) := by
  unfold onDelivered
  cases hstart : c.intervalStart with
  | none => exact ⟨rfl, .inl ⟨by simp, rfl⟩⟩
  | some start =>
    dsimp only
    split_ifs with hshort hpush
    · exact ⟨rfl, .inl ⟨by simpa using hshort, rfl⟩⟩
    -- a sample is pushed
    · refine ⟨rfl, .inr ⟨start, rfl, not_lt.mp hshort, ?_⟩⟩
      exact peak_concat c.keptSamples ⟨c.round + 1, (c.intervalBytes + bytes) / (now - start)⟩
    · refine ⟨rfl, .inr ⟨start, rfl, not_lt.mp hshort, ?_⟩⟩
      have hle : (c.intervalBytes + bytes) / (now - start) ≤ peak c.keptSamples :=
        not_lt.mp fun h => hpush (.inr h)
      exact (max_eq_left hle).symm

/-- If the call completes a round, a sample that holds the maximum stays in the
    window, or the round reaches that rate itself. -/
def Outlasts (c : BudgetController) (d : Delivery) : Prop :=
  ∀ start ∈ c.intervalStart, max minIntervalMs (c.minRtt.getD 0) ≤ d.now - start →
    c.maxRate = 0 ∨ (∃ s ∈ c.samples, s.rate = c.maxRate ∧ c.round + 1 - s.round < rateWindowRounds) ∨
      c.maxRate ≤ (c.intervalBytes + d.bytes) / (d.now - start)

instance (d : Delivery) : Decidable (c.Outlasts d) :=
  inferInstanceAs (Decidable (∀ start ∈ c.intervalStart, _ → _))

theorem maxRate_le_kept_iff : c.maxRate ≤ peak c.keptSamples ↔
    c.maxRate = 0 ∨ ∃ s ∈ c.samples, s.rate = c.maxRate ∧ c.round + 1 - s.round < rateWindowRounds := by
  constructor
  · intro h
    by_contra hnone
    push Not at hnone
    obtain ⟨hne, hgone⟩ := hnone
    apply absurd h
    rw [not_le, peak_lt_iff]
    refine ⟨lt_of_le_of_ne (peak_nonneg c.samples) hne.symm, fun s hs => ?_⟩
    obtain ⟨hs, hkept⟩ := List.mem_filter.mp hs
    apply lt_of_le_of_ne (rate_le_peak hs)
    intro heq
    exact absurd (of_decide_eq_true hkept) (not_lt.mpr (hgone s hs heq))
  · rintro (h | ⟨s, hs, heq, hkept⟩)
    · rw [h]
      exact peak_nonneg c.keptSamples
    · rw [← heq]
      exact rate_le_peak (List.mem_filter.mpr ⟨hs, decide_eq_true hkept⟩)

/-- One delivery lowers the maximum exactly if it completes a slower round after
    the last sample that holds the maximum. -/
theorem maxRate_le_onDelivered_iff (c : BudgetController) (d : Delivery) :
    c.maxRate ≤ (c.onDelivered d.bytes d.now).maxRate ↔ c.Outlasts d := by
  obtain ⟨-, ⟨hnone, hsame⟩ | ⟨start, hstart, hlong, heq⟩⟩ := onDelivered_cases c d.bytes d.now
  · rw [hsame]
    exact ⟨fun _ start hstart hlong => absurd hlong (not_le.mpr (hnone start hstart)), fun _ => le_rfl⟩
  · rw [heq, le_max_iff, maxRate_le_kept_iff, or_assoc]
    constructor
    · intro h start' hstart' _
      obtain rfl := Option.some.inj (hstart.symm.trans hstart')
      exact h
    · intro h
      exact h start hstart hlong

/-! ## Series of deliveries -/

theorem deliver_take_succ (c : BudgetController) {ds : List Delivery} {n : ℕ} (hn : n < ds.length) :
    c.deliver (ds.take (n + 1)) = (c.deliver (ds.take n)).onDelivered ds[n].bytes ds[n].now := by
  rw [List.take_succ_eq_append_getElem hn, deliver, List.foldl_append]
  rfl

theorem minRtt_deliver (c : BudgetController) (ds : List Delivery) : (c.deliver ds).minRtt = c.minRtt := by
  unfold deliver
  induction ds generalizing c with
  | nil => rfl
  | cons d ds ih =>
    rw [List.foldl_cons, ih]
    exact (onDelivered_cases c d.bytes d.now).1

/-- No round trip that the controller has seen took negative time. -/
theorem minRtt_nonneg {floor cap : ℚ} {k lossFactor : Option ℚ}
    (h : Machine.Reachable call (new floor cap k lossFactor) c) : 0 ≤ c.minRtt.getD 0 := by
  obtain ⟨calls, hrun⟩ := h
  refine Machine.run_invariant (P := fun c => 0 ≤ c.minRtt.getD 0) ?_ (le_refl (0 : ℚ)) hrun
  intro c a c' hc hcall
  cases a with
  | onRttSample rttMs now =>
    obtain rfl := Option.some.inj hcall
    unfold onRttSample
    cases hrtt : c.minRtt with
    | none => exact rttMs.coe_nonneg
    | some rtt =>
      dsimp only
      split_ifs
      · exact rttMs.coe_nonneg
      · exact hc
  | noteLimited | onLoss =>
    obtain rfl := Option.some.inj hcall
    exact hc
  | onDelivered bytes now =>
    obtain rfl := Option.some.inj hcall
    rw [(onDelivered_cases c bytes now).1]
    exact hc

theorem bdp_eq (c : BudgetController) : c.bdp = c.maxRate * c.minRtt.getD 0 := by
  unfold bdp
  cases c.minRtt with
  | none => exact (mul_zero _).symm
  | some rtt => rfl

/-- **Quiet periods.** From any state of a controller, a series of deliveries never
    lowers `maxRate`, and so not the bandwidth-delay product, exactly if no round
    of it comes after every sample that holds the maximum has left the window and
    delivers at a lower rate. -/
theorem quiet_period_iff {floor cap : ℚ} {k lossFactor : Option ℚ}
    (h : Machine.Reachable call (new floor cap k lossFactor) c) (ds : List Delivery) :
    (Monotone (fun n => (c.deliver (ds.take n)).maxRate) ∧ Monotone fun n => (c.deliver (ds.take n)).bdp) ↔
      ∀ n (hn : n < ds.length), (c.deliver (ds.take n)).Outlasts ds[n] := by
  constructor
  · rintro ⟨hmono, -⟩ n hn
    rw [← maxRate_le_onDelivered_iff, ← deliver_take_succ c hn]
    exact hmono (Nat.le_succ n)
  · intro hall
    have hmono : Monotone fun n => (c.deliver (ds.take n)).maxRate := by
      apply monotone_nat_of_le_succ
      intro n
      by_cases hn : n < ds.length
      · rw [deliver_take_succ c hn]
        exact (maxRate_le_onDelivered_iff _ _).mpr (hall n hn)
      · rw [List.take_of_length_le (by omega), List.take_of_length_le (by omega)]
    refine ⟨hmono, fun m n hmn => ?_⟩
    simp only [bdp_eq, minRtt_deliver]
    exact mul_le_mul_of_nonneg_right (hmono hmn) (minRtt_nonneg h)

/-- Forty thousand bytes in the first four milliseconds, with the budget as the limit. -/
def warmCalls : List Call := [.onRttSample 4 0, .onDelivered 0 0, .noteLimited, .onDelivered 40000 4]

/-- The controller after these calls. -/
def warm : BudgetController :=
  (Machine.run call (new 131072 16777216 none none) warmCalls).getD (new 131072 16777216 none none)

theorem reachable_warm : Machine.Reachable call (new 131072 16777216 none none) warm :=
  ⟨warmCalls, by decide +kernel⟩

/-- Rounds of four milliseconds in which four bytes arrive. -/
def quietRounds (n : ℕ) : List Delivery := (List.range n).map fun i => ⟨4, 8 + 4 * i⟩

/-- Nine quiet rounds leave the estimate as it is. -/
theorem quiet_period_nine :
    (Monotone fun n => (warm.deliver ((quietRounds 9).take n)).maxRate) ∧
      Monotone fun n => (warm.deliver ((quietRounds 9).take n)).bdp :=
  (quiet_period_iff reachable_warm (quietRounds 9)).mpr (by decide +kernel)

/-- The tenth lowers it from ten thousand bytes per millisecond to one. -/
theorem quiet_period_shrinks : ¬ ∀ floor cap k lossFactor c,
    Machine.Reachable call (new floor cap k lossFactor) c → c.intervalLimited = false →
    ∀ ds : List Delivery, (ds.map Delivery.now).Pairwise (· ≤ ·) →
      Monotone fun n => (c.deliver (ds.take n)).maxRate := by
  intro h
  have hle := h _ _ _ _ warm reachable_warm (by decide +kernel) (quietRounds 10) (by decide +kernel)
    (show 9 ≤ 10 by omega)
  exact absurd hle (by decide +kernel)

end BudgetController

end Http4.Client
