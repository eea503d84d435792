import Http4.Client.Scheduler
import Http4.Data.Machine

/-!
# Settings and the grant budget

Model of `tuningOptions` of `client/src/index.ts`, of `client/src/budget.ts`, and
of the scheduler together with the controller that gives it its budget. Numbers are
exact rationals: they agree with the doubles of the code on whole numbers below
`2 ^ 53`, and not where a rate, a smoothed round trip or a product is rounded.

Main results:

* `BudgetController.Ok`: the budget stays between the floor and the cap.
* `progress_iff`: with nothing in flight the scheduler always grants something,
  for exactly the settings whose floor is not zero.
-/

namespace Http4.Client

/-! ## Settings -/

/-- A value of a page's config, as far as `tuningOptions` tells values apart. -/
inductive JsValue
  | number (q : ℚ)
  /-- `NaN` or an infinity. -/
  | nonFinite
  | boolean (b : Bool)
  | other
  deriving DecidableEq

/-- A config object; a property that it does not have is `other`. -/
abbrev JsObject := String → JsValue

/-- `interface ClientOptions` of `transport.ts`, without the options that only
    JavaScript can set. -/
structure ClientOptions where
  budget : Option ℚ := none
  budgetFloor : Option ℚ := none
  budgetCap : Option ℚ := none
  budgetK : Option ℚ := none
  minIncrement : Option ℚ := none
  initialGrant : Option ℚ := none
  rtoFloorMs : Option ℚ := none
  maxRecoveries : Option ℚ := none
  reorderPackets : Option ℚ := none
  streamHighWaterMark : Option ℚ := none
  earlyResend : Option Bool := none
  sessionSeq : Option Bool := none
  deriving DecidableEq

/-- The test for `"number"` in `tuningOptions`. -/
def tunableNumber (v : JsValue) : Option ℚ :=
  match v with
  | .number q => if 0 ≤ q then some q else none
  | _ => none

/-- The test for `"boolean"` in `tuningOptions`. -/
def tunableBoolean (v : JsValue) : Option Bool :=
  match v with
  | .boolean b => some b
  | _ => none

/-- `tuningOptions` (lines 217–228) with the table `TUNABLE`; `raw` is `none` if
    the config has no object there. -/
def tuningOptions (raw : Option JsObject) : ClientOptions :=
  match raw with
  | none => {}
  | some o =>
    { budget := tunableNumber (o "budget")
      budgetFloor := tunableNumber (o "budgetFloor")
      budgetCap := tunableNumber (o "budgetCap")
      budgetK := tunableNumber (o "budgetK")
      minIncrement := tunableNumber (o "minIncrement")
      initialGrant := tunableNumber (o "initialGrant")
      rtoFloorMs := tunableNumber (o "rtoFloorMs")
      maxRecoveries := tunableNumber (o "maxRecoveries")
      reorderPackets := tunableNumber (o "reorderPackets")
      streamHighWaterMark := tunableNumber (o "streamHighWaterMark")
      earlyResend := tunableBoolean (o "earlyResend")
      sessionSeq := tunableBoolean (o "sessionSeq") }

/-- What `tuningOptions` lets through: no number is negative. -/
structure ClientOptions.Accepted (opts : ClientOptions) : Prop where
  budget : ∀ q, opts.budget = some q → 0 ≤ q
  budgetFloor : ∀ q, opts.budgetFloor = some q → 0 ≤ q
  budgetCap : ∀ q, opts.budgetCap = some q → 0 ≤ q
  budgetK : ∀ q, opts.budgetK = some q → 0 ≤ q
  minIncrement : ∀ q, opts.minIncrement = some q → 0 ≤ q
  initialGrant : ∀ q, opts.initialGrant = some q → 0 ≤ q
  rtoFloorMs : ∀ q, opts.rtoFloorMs = some q → 0 ≤ q
  maxRecoveries : ∀ q, opts.maxRecoveries = some q → 0 ≤ q
  reorderPackets : ∀ q, opts.reorderPackets = some q → 0 ≤ q
  streamHighWaterMark : ∀ q, opts.streamHighWaterMark = some q → 0 ≤ q

theorem nonneg_of_tunableNumber {v : JsValue} (q : ℚ) (h : tunableNumber v = some q) : 0 ≤ q := by
  cases v with
  | number p =>
    rw [tunableNumber] at h
    split_ifs at h with hp
    obtain rfl := Option.some.inj h
    exact hp
  | nonFinite | boolean | other => cases h

theorem accepted_tuningOptions (raw : Option JsObject) : (tuningOptions raw).Accepted := by
  cases raw with
  | none => constructor <;> intro q hq <;> cases hq
  | some o => constructor <;> exact nonneg_of_tunableNumber

/-! ## The controller -/

/-- `interface RateSample`. -/
structure RateSample where
  round : ℕ
  rate : ℚ
  deriving DecidableEq

/-- `class BudgetController`. -/
structure BudgetController where
  floor : ℚ
  cap : ℚ
  k : ℚ
  lossFactor : ℚ
  minRtt : Option ℚ
  minRttAt : ℚ
  samples : List RateSample
  round : ℕ
  intervalStart : Option ℚ
  intervalBytes : ℚ
  intervalLimited : Bool
  holdUntil : ℚ
  current : ℚ
  deriving DecidableEq

def defaultK : ℚ := 2
def defaultLossFactor : ℚ := 85 / 100
def rateWindowRounds : ℕ := 10
def minRttWindowMs : ℚ := 10000
def minIntervalMs : ℚ := 4

namespace BudgetController

/-- The constructor (lines 66–72). -/
def new (floor cap : ℚ) (k lossFactor : Option ℚ) : BudgetController :=
  { floor := floor, cap := max floor cap, k := k.getD defaultK,
    lossFactor := lossFactor.getD defaultLossFactor, minRtt := none, minRttAt := 0, samples := [],
    round := 0, intervalStart := none, intervalBytes := 0, intervalLimited := false, holdUntil := 0,
    current := floor }

/-- `get budget()`. -/
def budget (c : BudgetController) : ℚ := c.current

/-- `get minRttMs()`. -/
def minRttMs (c : BudgetController) : Option ℚ := c.minRtt

/-- `get maxRate()` (lines 90–94). -/
def maxRate (c : BudgetController) : ℚ := c.samples.foldl (fun m s => max m s.rate) 0

/-- `get bdp()` (lines 97–99). -/
def bdp (c : BudgetController) : ℚ :=
  match c.minRtt with
  | none => 0
  | some rtt => c.maxRate * rtt

/-- `onRttSample` (lines 101–106). -/
def onRttSample (c : BudgetController) (rttMs now : ℚ) : BudgetController :=
  match c.minRtt with
  | none => { c with minRtt := some rttMs, minRttAt := now }
  | some rtt =>
    if rttMs ≤ rtt ∨ now - c.minRttAt > minRttWindowMs then
      { c with minRtt := some rttMs, minRttAt := now }
    else c

/-- `noteLimited`. -/
def noteLimited (c : BudgetController) : BudgetController := { c with intervalLimited := true }

/-- `update` (lines 140–143). -/
def update (c : BudgetController) (now : ℚ) : BudgetController :=
  let target := min c.cap (max c.floor (⌊c.k * c.bdp⌋ : ℚ))
  { c with current := if now < c.holdUntil then min c.current target else target }

/-- `onDelivered` (lines 114–132). -/
def onDelivered (c : BudgetController) (bytes now : ℚ) : BudgetController :=
  match c.intervalStart with
  | none => { c with intervalStart := some now }
  | some start =>
    let c := { c with intervalBytes := c.intervalBytes + bytes }
    let elapsed := now - start
    if elapsed < max minIntervalMs (c.minRtt.getD 0) then c
    else
      let rate := c.intervalBytes / elapsed
      let c := { c with round := c.round + 1 }
      let c := { c with samples := c.samples.filter fun s => decide (c.round - s.round < rateWindowRounds) }
      let c := if c.intervalLimited ∨ rate > c.maxRate then
          { c with samples := c.samples ++ [{ round := c.round, rate := rate }] }
        else c
      update { c with intervalStart := some now, intervalBytes := 0, intervalLimited := false } now

/-- `onLoss` (lines 135–138). -/
def onLoss (c : BudgetController) (now : ℚ) : BudgetController :=
  { c with current := max c.floor (⌊c.current * c.lossFactor⌋ : ℚ)
           holdUntil := now + c.minRtt.getD 0 }

end BudgetController

/-! ## What a sample changes -/

namespace BudgetController

/-- With a factor of zero the budget stays at the floor. -/
structure Pinned (c : BudgetController) : Prop where
  k : c.k = 0
  floor_nonneg : 0 ≤ c.floor
  floor_le_cap : c.floor ≤ c.cap
  lossFactor_le : c.lossFactor ≤ 1
  current : c.current = c.floor

/-- The settings stay, and the budget stays or is set to a whole number of bytes
    cut off at the floor, at the cap and perhaps at what it was. -/
structure Moves (c c' : BudgetController) : Prop where
  floor : c'.floor = c.floor
  cap : c'.cap = c.cap
  current : c'.current = c.current ∨ ∃ n : ℤ, c'.current = max c.floor n ∨
    c'.current = min c.cap (max c.floor n) ∨ c'.current = min c.current (min c.cap (max c.floor n))
  pinned : c.Pinned → c'.Pinned

variable {c : BudgetController}

theorem moves_onRttSample (c : BudgetController) (rttMs now : ℚ) : c.Moves (c.onRttSample rttMs now) := by
  have hsame (minRtt : Option ℚ) (at' : ℚ) : c.Moves { c with minRtt := minRtt, minRttAt := at' } :=
    ⟨rfl, rfl, .inl rfl, fun h => ⟨h.k, h.floor_nonneg, h.floor_le_cap, h.lossFactor_le, h.current⟩⟩
  rw [onRttSample]
  cases c.minRtt with
  | none => exact hsame _ _
  | some rtt =>
    dsimp only
    split_ifs
    · exact hsame _ _
    · exact ⟨rfl, rfl, .inl rfl, id⟩

theorem moves_noteLimited (c : BudgetController) : c.Moves c.noteLimited :=
  ⟨rfl, rfl, .inl rfl, fun h => ⟨h.k, h.floor_nonneg, h.floor_le_cap, h.lossFactor_le, h.current⟩⟩

theorem moves_onLoss (c : BudgetController) (now : ℚ) : c.Moves (c.onLoss now) := by
  refine ⟨rfl, rfl, .inr ⟨_, .inl rfl⟩,
    fun h => ⟨h.k, h.floor_nonneg, h.floor_le_cap, h.lossFactor_le, max_eq_left ?_⟩⟩
  refine (Int.floor_le _).trans ?_
  rw [h.current]
  exact mul_le_of_le_one_right h.floor_nonneg h.lossFactor_le

theorem moves_update (c : BudgetController) (now : ℚ) : c.Moves (c.update now) := by
  refine ⟨rfl, rfl, .inr ⟨⌊c.k * c.bdp⌋, .inr ?_⟩,
    fun h => ⟨h.k, h.floor_nonneg, h.floor_le_cap, h.lossFactor_le, ?_⟩⟩
  · rw [update]
    by_cases h : now < c.holdUntil
    · exact .inr (if_pos h)
    · exact .inl (if_neg h)
  · have htarget : min c.cap (max c.floor (⌊c.k * c.bdp⌋ : ℚ)) = c.floor := by
      rw [h.k, zero_mul, Int.floor_zero, Int.cast_zero, max_eq_left h.floor_nonneg, min_eq_right h.floor_le_cap]
    change (if now < c.holdUntil then min c.current _ else _) = c.floor
    rw [htarget, h.current, min_self, ite_self]

theorem moves_onDelivered (c : BudgetController) (bytes now : ℚ) :
    c.Moves (c.onDelivered bytes now) := by
  rw [onDelivered]
  cases c.intervalStart with
  | none =>
    exact ⟨rfl, rfl, .inl rfl, fun h => ⟨h.k, h.floor_nonneg, h.floor_le_cap, h.lossFactor_le, h.current⟩⟩
  | some start =>
    dsimp only
    split_ifs
    · exact ⟨rfl, rfl, .inl rfl, fun h => ⟨h.k, h.floor_nonneg, h.floor_le_cap, h.lossFactor_le, h.current⟩⟩
    -- only the fields `update` does not read as bounds were set before it
    all_goals
      exact ⟨rfl, rfl, (moves_update _ now).current, fun h => (moves_update _ now).pinned
        ⟨h.k, h.floor_nonneg, h.floor_le_cap, h.lossFactor_le, h.current⟩⟩

/-- What is true of the floor and the cap, of whole numbers, and of the greater
    and the lesser of two numbers is true of the budget. -/
theorem Moves.current_of {c' : BudgetController} (h : c.Moves c') {P : ℚ → Prop} (hfloor : P c.floor)
    (hcap : P c.cap) (hcurrent : P c.current) (hint : ∀ n : ℤ, P n)
    (hmax : ∀ a b, P a → P b → P (max a b)) (hmin : ∀ a b, P a → P b → P (min a b)) :
    P c'.current := by
  rcases h.current with heq | ⟨n, heq | heq | heq⟩
  · rw [heq]; exact hcurrent
  · rw [heq]; exact hmax _ _ hfloor (hint n)
  · rw [heq]; exact hmin _ _ hcap (hmax _ _ hfloor (hint n))
  · rw [heq]; exact hmin _ _ hcurrent (hmin _ _ hcap (hmax _ _ hfloor (hint n)))

/-- The budget is no less than the floor. -/
structure Ok (c : BudgetController) : Prop where
  floor_le_cap : c.floor ≤ c.cap
  floor_le : c.floor ≤ c.current

theorem ok_new (floor cap : ℚ) (k lossFactor : Option ℚ) : (new floor cap k lossFactor).Ok :=
  ⟨le_max_left _ _, le_refl _⟩

theorem Ok.moves {c' : BudgetController} (h : c.Ok) (hmoves : c.Moves c') : c'.Ok := by
  refine ⟨by rw [hmoves.floor, hmoves.cap]; exact h.floor_le_cap, ?_⟩
  have hmax (n : ℤ) : c.floor ≤ min c.cap (max c.floor n) :=
    le_min h.floor_le_cap (le_max_left _ _)
  rw [hmoves.floor]
  rcases hmoves.current with heq | ⟨n, heq | heq | heq⟩
  · rw [heq]; exact h.floor_le
  · rw [heq]; exact le_max_left _ _
  · rw [heq]; exact hmax n
  · rw [heq]; exact le_min h.floor_le (hmax n)

end BudgetController

/-! ## The scheduler under its controller -/

def defaultBudgetFloor : ℚ := 128 * 1024
def defaultBudgetCap : ℚ := 16 * 1024 * 1024
def defaultMinIncrement : ℚ := 16 * 1024

/-- `floor` of the controller's options (`transport.ts`, line 318). -/
def ClientOptions.floor (opts : ClientOptions) : ℚ :=
  (opts.budget.or opts.budgetFloor).getD defaultBudgetFloor

/-- `cap` of the controller's options (`transport.ts`, line 319). -/
def ClientOptions.cap (opts : ClientOptions) : ℚ :=
  (opts.budget.or opts.budgetCap).getD defaultBudgetCap

theorem ClientOptions.Accepted.floor_nonneg {opts : ClientOptions} (h : opts.Accepted) :
    0 ≤ opts.floor := by
  rw [ClientOptions.floor]
  cases hb : opts.budget with
  | some q => exact h.budget q hb
  | none =>
    cases hf : opts.budgetFloor with
    | some q => exact h.budgetFloor q hf
    | none => exact (by norm_num : (0 : ℚ) ≤ 128 * 1024)

/-- The controller of a session. -/
def ClientOptions.controller (opts : ClientOptions) : BudgetController :=
  .new opts.floor opts.cap opts.budgetK none

/-- The scheduler of a session. -/
def ClientOptions.scheduler (opts : ClientOptions) : SrptScheduler :=
  .new opts.controller.budget (opts.minIncrement.getD defaultMinIncrement)

/-- A controller and the scheduler it gives its budget to. -/
structure Granter where
  controller : BudgetController
  scheduler : SrptScheduler
  deriving DecidableEq

namespace Granter

/-- The calls a session makes of the two, with any arguments and in any order. -/
inductive Call
  | add (rpcId : ℤ) (size granted received : ℚ) (cls : PriorityClass)
  | remove (rpcId : ℤ)
  | onData (rpcId : ℤ) (bytes : ℚ)
  | setPaused (rpcId : ℤ) (paused : Bool)
  | onRttSample (rttMs now : ℚ)
  | onDelivered (bytes now : ℚ)
  | onLoss (now : ℚ)
  /-- `setBudget`, `grants` and `noteLimited`, as `pumpGrants` makes them. -/
  | pump (reserved : ℚ)

/-- A session's controller and scheduler at its start. -/
def init (opts : ClientOptions) : Granter := ⟨opts.controller, opts.scheduler⟩

/-- `setBudget(budget)` and `grants(reserved)`. -/
def grants (g : Granter) (reserved : ℚ) : List GrantDecision × SrptScheduler :=
  (g.scheduler.setBudget g.controller.budget).grants reserved

/-- The pair after `pumpGrants`. -/
def pump (g : Granter) (reserved : ℚ) : Granter :=
  let s := (g.grants reserved).2
  { controller := if s.limited then g.controller.noteLimited else g.controller, scheduler := s }

/-- One call. -/
def step (g : Granter) : Call → Option Granter
  | .add rpcId size granted received cls =>
    some { g with scheduler := g.scheduler.add rpcId size granted received cls }
  | .remove rpcId => some { g with scheduler := g.scheduler.remove rpcId }
  | .onData rpcId bytes => some { g with scheduler := g.scheduler.onData rpcId bytes }
  | .setPaused rpcId paused => some { g with scheduler := g.scheduler.setPaused rpcId paused }
  | .onRttSample rttMs now => some { g with controller := g.controller.onRttSample rttMs now }
  | .onDelivered bytes now => some { g with controller := g.controller.onDelivered bytes now }
  | .onLoss now => some { g with controller := g.controller.onLoss now }
  | .pump reserved => some (g.pump reserved)

theorem step_controller {g g' : Granter} {call : Call} (h : step g call = some g') :
    g'.controller = g.controller ∨ g.controller.Moves g'.controller := by
  cases call with
  | add | remove | onData | setPaused =>
    obtain rfl := Option.some.inj h
    exact .inl rfl
  | onRttSample rttMs now =>
    obtain rfl := Option.some.inj h
    exact .inr (g.controller.moves_onRttSample rttMs now)
  | onDelivered bytes now =>
    obtain rfl := Option.some.inj h
    exact .inr (g.controller.moves_onDelivered bytes now)
  | onLoss now =>
    obtain rfl := Option.some.inj h
    exact .inr (g.controller.moves_onLoss now)
  | pump reserved =>
    obtain rfl := Option.some.inj h
    rw [pump]
    dsimp only
    split_ifs
    · exact .inr g.controller.moves_noteLimited
    · exact .inl rfl

/-- The budget in force is never below the floor of the settings. -/
theorem floor_le_budget {opts : ClientOptions} {g : Granter}
    (h : Machine.Reachable step (init opts) g) : opts.floor ≤ g.controller.budget := by
  obtain ⟨calls, hrun⟩ := h
  have hok : g.controller.Ok ∧ g.controller.floor = opts.floor := by
    refine Machine.run_invariant (P := fun g => g.controller.Ok ∧ g.controller.floor = opts.floor)
      ?_ ⟨BudgetController.ok_new _ _ _ _, rfl⟩ hrun
    intro g call g' hP hstep
    obtain ⟨hok, hfloor⟩ := hP
    rcases step_controller hstep with heq | hmoves
    · rw [heq]; exact ⟨hok, hfloor⟩
    · exact ⟨hok.moves hmoves, hmoves.floor.trans hfloor⟩
  rw [← hok.2]
  exact hok.1.floor_le

/-- Some unpaused RPC is not fully granted, while nothing is in flight. -/
def Starving (g : Granter) : Prop :=
  g.scheduler.outstanding = 0 ∧
    ∃ id e, g.scheduler.rpcs.get? id = some e ∧ e.paused = false ∧ e.granted < e.size

/-- A new session with one RPC of one byte, of which nothing is granted. -/
def oneByte (opts : ClientOptions) : Granter :=
  { init opts with scheduler := opts.scheduler.add 1 1 0 0 .normal }

theorem outstanding_oneByte (opts : ClientOptions) : (oneByte opts).scheduler.outstanding = 0 := by
  have hrpcs : (oneByte opts).scheduler.rpcs = (OrderedMap.empty.set 1
      { size := 1, granted := min 0 1, received := 0, paused := false, seq := 0, cls := .normal }) := rfl
  rw [SrptScheduler.outstanding, hrpcs]
  decide +kernel

/-- **Progress.** In every state the calls of a session can reach under a page's
    settings, a scheduler that has nothing in flight and an RPC to grant something
    to does so, if and only if the floor of the settings is not zero. -/
theorem progress_iff (raw : Option JsObject) :
    (∀ g, Machine.Reachable step (init (tuningOptions raw)) g → g.Starving → (g.grants 0).1 ≠ []) ↔
      (tuningOptions raw).floor ≠ 0 := by
  constructor
  · intro h hfloor
    -- one RPC of one byte, before any sample
    have hreach : Machine.Reachable step (init (tuningOptions raw)) (oneByte (tuningOptions raw)) :=
      ⟨[.add 1 1 0 0 .normal], rfl⟩
    have hnone : (oneByte (tuningOptions raw)).scheduler.outstanding = 0 := outstanding_oneByte _
    refine h _ hreach ⟨hnone, 1, _, rfl, rfl, by norm_num⟩ (SrptScheduler.grants_eq_nil ?_)
    have hbudget : (oneByte (tuningOptions raw)).controller.budget = 0 := hfloor
    change _ - 0 - (oneByte (tuningOptions raw)).scheduler.outstanding ≤ 0
    rw [hnone]
    exact (by rw [hbudget]; norm_num : (oneByte (tuningOptions raw)).controller.budget - 0 - 0 ≤ 0)
  · intro hfloor g hreach hstarving
    obtain ⟨hnone, id, e, he, hpaused, hlt⟩ := hstarving
    have hpos : 0 < (tuningOptions raw).floor :=
      lt_of_le_of_ne (accepted_tuningOptions raw).floor_nonneg hfloor.symm
    have hbudget := floor_le_budget hreach
    exact SrptScheduler.grants_ne_nil hnone (hpos.trans_le hbudget) he hpaused hlt

/-- A page's settings with a budget of zero withhold every grant. -/
theorem budget_zero_stalls : ∃ raw g, Machine.Reachable step (init (tuningOptions raw)) g ∧
    tuningOptions raw = { budget := some 0 } ∧ g.Starving ∧ (g.grants 0).1 = [] :=
  ⟨some fun key => if key = "budget" then .number 0 else .other, oneByte { budget := some 0 },
    ⟨[.add 1 1 0 0 .normal], rfl⟩, by decide +kernel,
    ⟨by decide +kernel, 1, _, rfl, rfl, by norm_num⟩, by decide +kernel⟩

end Granter

end Http4.Client
