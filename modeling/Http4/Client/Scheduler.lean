import Http4.Data.OrderedMap

/-!
# The grant scheduler

Model of `client/src/scheduler.ts` and of the classes of `client/src/priority.ts`.
Sizes, grants and budgets are the numbers of JavaScript, taken as exact
rationals: a page's settings may make them fractional. On whole numbers below
`2 ^ 53`, which sizes, grants and counts of bytes are under whole settings, sums,
differences and comparisons of doubles are exact and the two agree; where a double
would be rounded they need not. The `trace` option, which only tests set, is left out.

Main results:

* `grantLoop_cases`: one round of the loop of `grants`.
* `Granting`: what a call of `grants` does to the candidates in their order.
* `grants_order`: grant order, one grant at most for each RPC, the budget bound
  and work conservation of a call.
-/

namespace Http4.Client

/-! ## Priority classes -/

/-- `PriorityClass`. -/
inductive PriorityClass
  | critical | normal | background
  deriving DecidableEq, Repr

/-- `CLASSES`; the order is the priority order. -/
def classes : List PriorityClass := [.critical, .normal, .background]

/-- `classRank` (lines 21–23). -/
def classRank (c : PriorityClass) : ℕ := classes.idxOf c

/-! ## The class -/

/-- `interface GrantDecision`. -/
structure GrantDecision where
  rpcId : ℤ
  maxOffset : ℚ
  priority : ℕ
  deriving DecidableEq

/-- `interface Entry` (lines 40–47). -/
structure Entry where
  size : ℚ
  granted : ℚ
  received : ℚ
  paused : Bool
  seq : ℕ
  cls : PriorityClass
  deriving DecidableEq

/-- `class SrptScheduler`; of `opts` only `minIncrement` is read again. -/
structure SrptScheduler where
  rpcs : OrderedMap ℤ Entry
  seq : ℕ
  minIncrement : ℚ
  budget : ℚ
  limited : Bool
  deriving DecidableEq

/-- `MIN_INCREMENT_BUDGET_SHARE`. -/
def minIncrementBudgetShare : ℚ := 4

namespace Entry

/-- `size - received`. -/
def remaining (e : Entry) : ℚ := e.size - e.received

/-- What `outstanding` adds up (line 109). -/
def outstanding (e : Entry) : ℚ := max 0 (e.granted - e.received)

/-- What the comparison of `grants` (lines 133–136) compares, first to last. -/
def key (e : Entry) : ℕ ×ₗ ℚ ×ₗ ℕ := toLex (classRank e.cls, toLex (e.remaining, e.seq))

/-- The filter of `grants` (line 130). -/
def wants (e : Entry) : Bool := decide (e.granted < e.size) && !e.paused

end Entry

namespace SrptScheduler

/-- The constructor. -/
def new (budget minIncrement : ℚ) : SrptScheduler :=
  { rpcs := .empty, seq := 0, minIncrement := minIncrement, budget := budget, limited := false }

/-- `setBudget`. -/
def setBudget (s : SrptScheduler) (budget : ℚ) : SrptScheduler := { s with budget := budget }

/-- `add` (lines 75–77). -/
def add (s : SrptScheduler) (rpcId : ℤ) (size granted received : ℚ) (cls : PriorityClass) :
    SrptScheduler :=
  { s with rpcs := s.rpcs.set rpcId { size := size, granted := min granted size,
                                      received := received, paused := false, seq := s.seq,
                                      cls := cls }
           seq := s.seq + 1 }

/-- `remove`. -/
def remove (s : SrptScheduler) (rpcId : ℤ) : SrptScheduler :=
  { s with rpcs := s.rpcs.delete rpcId }

/-- `onData` (lines 84–87). -/
def onData (s : SrptScheduler) (rpcId : ℤ) (bytes : ℚ) : SrptScheduler :=
  { s with rpcs := s.rpcs.modify rpcId fun e => { e with received := e.received + bytes } }

/-- `setPaused` (lines 96–99). -/
def setPaused (s : SrptScheduler) (rpcId : ℤ) (paused : Bool) : SrptScheduler :=
  { s with rpcs := s.rpcs.modify rpcId fun e => { e with paused := paused } }

/-- `granted` (lines 102–104). -/
def granted (s : SrptScheduler) (rpcId : ℤ) : Option ℚ := (s.rpcs.get? rpcId).map Entry.granted

/-- `outstanding` (lines 107–111). -/
def outstanding (s : SrptScheduler) : ℚ := s.rpcs.sum Entry.outstanding

/-- `minIncrement` of `grants` (line 128). -/
def effectiveMinIncrement (s : SrptScheduler) : ℚ :=
  min s.minIncrement (max 1 (⌊s.budget / minIncrementBudgetShare⌋ : ℚ))

/-- The order of the candidates. -/
def keyLe (a b : ℤ × Entry) : Prop := a.2.key ≤ b.2.key

instance : DecidableRel keyLe := fun a b => inferInstanceAs (Decidable (a.2.key ≤ b.2.key))

/-- `candidates` (lines 129–136). -/
def candidates (s : SrptScheduler) : List (ℤ × Entry) :=
  (s.rpcs.entries.filter fun e => e.2.wants).insertionSort keyLe

/-- What the loop of `grants` leaves: the decisions, `available`, and whether it
    ended at its `break`. -/
structure LoopResult where
  out : List GrantDecision
  available : ℚ
  broke : Bool
  deriving DecidableEq

/-- `target` (line 143). -/
def target (e : Entry) (available : ℚ) : ℚ := min e.size (e.granted + available)

/-- The loop of `grants` (lines 141–172) over the candidates left, of which the
    first has position `rank`. Each round before pushed one decision, so that
    `rank` is `out.length` too. -/
def grantLoop (minIncrement outstanding : ℚ) : ℕ → ℚ → List (ℤ × Entry) → LoopResult
  | _, available, [] => { out := [], available := available, broke := false }
  | rank, available, (rpcId, e) :: rest =>
    if available ≤ 0 then { out := [], available := available, broke := false }
    else
      let inc := target e available - e.granted
      let stalled := outstanding = 0 ∧ rank = 0
      if inc < minIncrement ∧ target e available < e.size ∧ ¬ stalled then
        { out := [], available := available, broke := true }
      else
        let r := grantLoop minIncrement outstanding (rank + 1) (available - inc) rest
        { r with out := { rpcId := rpcId, maxOffset := target e available,
                          priority := min rank 7 } :: r.out }

/-- `e.granted = target`, for each decision. -/
def commit (rpcs : OrderedMap ℤ Entry) (out : List GrantDecision) : OrderedMap ℤ Entry :=
  out.foldl (fun rpcs d => rpcs.modify d.rpcId fun e => { e with granted := d.maxOffset }) rpcs

/-- `grants` (lines 118–176). -/
def grants (s : SrptScheduler) (reserved : ℚ) : List GrantDecision × SrptScheduler :=
  let outstanding := s.outstanding
  let available := s.budget - reserved - outstanding
  let minIncrement := s.effectiveMinIncrement
  let candidates := s.candidates
  let limited := decide (candidates ≠ [] ∧ available < minIncrement)
  if available ≤ 0 then ([], { s with limited := limited })
  else
    let r := grantLoop minIncrement outstanding 0 available candidates
    let rpcs := commit s.rpcs r.out
    let wanting := candidates.any fun c =>
      match rpcs.get? c.1 with
      | some e => decide (e.granted < e.size)
      | none => false
    (r.out, { s with rpcs := rpcs
                     limited := limited || r.broke || (decide (r.available ≤ 0) && wanting) })

/-! ## The loop -/

/-- What the loop does to the candidates in their order, `μ` being the effective
    minimum increment: it grants some of them whole, perhaps the next one the
    rest of what is available, and then stops. -/
inductive Spent (μ : ℚ) : ℚ → List (ℤ × Entry) → List GrantDecision → ℚ → Prop
  | stop {a : ℚ} {cs : List (ℤ × Entry)} (h : cs = [] ∨ a ≤ 0 ∨ a < μ) : Spent μ a cs [] a
  | part {a : ℚ} {id : ℤ} {e : Entry} {rest : List (ℤ × Entry)} (priority : ℕ) (ha : 0 < a)
      (h : e.granted + a < e.size) :
      Spent μ a ((id, e) :: rest)
        [{ rpcId := id, maxOffset := e.granted + a, priority := priority }] 0
  | whole {a a' : ℚ} {id : ℤ} {e : Entry} {rest : List (ℤ × Entry)} {out : List GrantDecision}
      (priority : ℕ) (ha : 0 < a) (h : e.size ≤ e.granted + a)
      (hrest : Spent μ (a - (e.size - e.granted)) rest out a') :
      Spent μ a ((id, e) :: rest)
        ({ rpcId := id, maxOffset := e.size, priority := priority } :: out) a'

theorem spent_grantLoop (μ o : ℚ) (rank : ℕ) (a : ℚ) (cs : List (ℤ × Entry)) :
    Spent μ a cs (grantLoop μ o rank a cs).out (grantLoop μ o rank a cs).available := by
  induction cs generalizing rank a with
  | nil => exact .stop (.inl rfl)
  | cons c rest ih =>
    obtain ⟨id, e⟩ := c
    rw [grantLoop]
    by_cases hle : a ≤ 0
    · rw [if_pos hle]
      exact .stop (.inr (.inl hle))
    rw [if_neg hle]
    have ha : 0 < a := not_le.mp hle
    by_cases hbreak : target e a - e.granted < μ ∧ target e a < e.size ∧ ¬ (o = 0 ∧ rank = 0)
    · have hinc := hbreak.1
      have hlt := hbreak.2.1
      have htarget : target e a = e.granted + a :=
        min_eq_right ((min_lt_iff.mp hlt).resolve_left (lt_irrefl _)).le
      rw [htarget] at hinc
      rw [if_pos hbreak]
      exact .stop (.inr (.inr (by linarith)))
    rw [if_neg hbreak]
    rcases le_or_gt e.size (e.granted + a) with hwhole | hpart
    · have htarget : target e a = e.size := min_eq_left hwhole
      rw [htarget]
      exact .whole _ ha hwhole (ih (rank + 1) (a - (e.size - e.granted)))
    · have htarget : target e a = e.granted + a := min_eq_right hpart.le
      -- nothing is left after a partial grant
      have hnone : a - (target e a - e.granted) = 0 := by rw [htarget]; ring
      have hstop : grantLoop μ o (rank + 1) 0 rest = { out := [], available := 0, broke := false } := by
        cases rest with
        | nil => rfl
        | cons c rest => exact if_pos (le_refl _)
      rw [hnone, hstop, htarget]
      exact .part _ ha hpart

namespace Spent

variable {μ a a' : ℚ} {cs : List (ℤ × Entry)} {out : List GrantDecision}

theorem available_nonneg (h : Spent μ a cs out a') (ha : 0 ≤ a) : 0 ≤ a' := by
  induction h with
  | stop _ => exact ha
  | part => exact le_refl _
  | whole _ _ hsize _ ih => exact ih (by linarith)

/-- Nothing is granted if nothing is available. -/
theorem eq_of_nonpos (h : Spent μ a cs out a') (ha : a ≤ 0) : out = [] ∧ a' = a := by
  cases h with
  | stop _ => exact ⟨rfl, rfl⟩
  | part _ hpos => exact absurd hpos ha.not_gt
  | whole _ hpos => exact absurd hpos ha.not_gt

/-- The decisions are for the first candidates, one for each. -/
theorem prefix_candidates (h : Spent μ a cs out a') : out.map GrantDecision.rpcId <+: cs.map Prod.fst := by
  induction h with
  | stop _ => exact List.nil_prefix
  | part => exact List.cons_prefix_cons.mpr ⟨rfl, List.nil_prefix⟩
  | whole _ _ _ _ ih => exact List.cons_prefix_cons.mpr ⟨rfl, ih⟩

/-- Every candidate before one that is granted something is granted whole. -/
theorem before (h : Spent μ a cs out a') (hwants : ∀ c ∈ cs, c.2.granted < c.2.size)
    {d : GrantDecision} (hd : d ∈ out) :
    ∃ front e back, cs = front ++ (d.rpcId, e) :: back ∧ e.granted < d.maxOffset ∧
      d.maxOffset ≤ e.size ∧
      ∀ c ∈ front, ∃ d' ∈ out, d'.rpcId = c.1 ∧ d'.maxOffset = c.2.size := by
  induction h with
  | stop _ => exact absurd hd List.not_mem_nil
  | part priority ha hlt =>
    obtain rfl := List.mem_singleton.mp hd
    exact ⟨[], _, _, rfl, by simp only; linarith, hlt.le, by simp⟩
  | whole priority ha hsize hrest ih =>
    obtain ⟨hfirst, hwants⟩ := List.forall_mem_cons.mp hwants
    rcases List.mem_cons.mp hd with rfl | hd
    · exact ⟨[], _, _, rfl, hfirst, le_refl _, by simp⟩
    · obtain ⟨front, e, back, rfl, hlt, hle, hfront⟩ := ih hwants hd
      refine ⟨_ :: front, e, back, rfl, hlt, hle, List.forall_mem_cons.mpr ⟨?_, ?_⟩⟩
      · exact ⟨_, List.mem_cons_self, rfl, rfl⟩
      · intro c hc
        obtain ⟨d', hd', heq⟩ := hfront c hc
        exact ⟨d', List.mem_cons_of_mem _ hd', heq⟩

/-- While more than the minimum increment is left, every candidate is granted
    whole. -/
theorem conserving (h : Spent μ a cs out a') (hpos : 0 < a') (hμ : μ ≤ a') {c : ℤ × Entry}
    (hc : c ∈ cs) : ∃ d ∈ out, d.rpcId = c.1 ∧ d.maxOffset = c.2.size := by
  induction h with
  | stop hstop =>
    rcases hstop with rfl | hle | hlt
    · exact absurd hc List.not_mem_nil
    · linarith
    · linarith
  | part => exact absurd hpos (lt_irrefl _)
  | whole priority ha hsize hrest ih =>
    rcases List.mem_cons.mp hc with rfl | hc
    · exact ⟨_, List.mem_cons_self, rfl, rfl⟩
    · obtain ⟨d, hd, heq⟩ := ih hpos hμ hc
      exact ⟨d, List.mem_cons_of_mem _ hd, heq⟩

end Spent

/-! ## Committing the decisions -/

theorem get?_commit_of_notMem {out : List GrantDecision} {id : ℤ}
    (h : id ∉ out.map GrantDecision.rpcId) (rpcs : OrderedMap ℤ Entry) :
    (commit rpcs out).get? id = rpcs.get? id := by
  induction out generalizing rpcs with
  | nil => rfl
  | cons d out ih =>
    rw [List.map_cons, List.mem_cons, not_or] at h
    rw [commit, List.foldl_cons]
    exact (ih h.2 _).trans (by rw [OrderedMap.get?_modify, if_neg h.1])

theorem get?_commit_of_mem {out : List GrantDecision} (h : (out.map GrantDecision.rpcId).Nodup)
    {d : GrantDecision} (hd : d ∈ out) (rpcs : OrderedMap ℤ Entry) :
    (commit rpcs out).get? d.rpcId =
      (rpcs.get? d.rpcId).map fun e => { e with granted := d.maxOffset } := by
  induction out generalizing rpcs with
  | nil => exact absurd hd List.not_mem_nil
  | cons d' out ih =>
    obtain ⟨hnot, hnodup⟩ := List.nodup_cons.mp h
    rw [commit, List.foldl_cons]
    rcases List.mem_cons.mp hd with rfl | hd
    · refine (get?_commit_of_notMem hnot _).trans ?_
      rw [OrderedMap.get?_modify, if_pos rfl]
    · refine (ih hnodup hd _).trans ?_
      have hne : d.rpcId ≠ d'.rpcId := fun heq => hnot (heq ▸ List.mem_map_of_mem hd)
      rw [OrderedMap.get?_modify, if_neg hne]

/-- One grant raises `outstanding` by its increment at most. -/
theorem sum_modify_granted {rpcs : OrderedMap ℤ Entry} {id : ℤ} {e : Entry} {g : ℚ}
    (hg : e.granted ≤ g) (hid : rpcs.get? id = some e) :
    (rpcs.modify id fun e => { e with granted := g }).sum Entry.outstanding ≤
        rpcs.sum Entry.outstanding + (g - e.granted) ∧
      (e.received ≤ e.granted →
        (rpcs.modify id fun e => { e with granted := g }).sum Entry.outstanding =
          rpcs.sum Entry.outstanding + (g - e.granted)) := by
  have hsum := OrderedMap.sum_modify Entry.outstanding (fun e => { e with granted := g }) hid
  have hmax : max 0 (g - e.received) ≤ max 0 (e.granted - e.received) + (g - e.granted) := by
    rcases le_total 0 (e.granted - e.received) with h0 | h0
    · rw [max_eq_right h0]
      exact max_le (by linarith) (by linarith)
    · rw [max_eq_left h0]
      exact max_le (by linarith) (by linarith)
  simp only [Entry.outstanding] at hsum ⊢
  refine ⟨by linarith, fun hrec => ?_⟩
  rw [max_eq_right (by linarith : 0 ≤ e.granted - e.received),
    max_eq_right (by linarith : 0 ≤ g - e.received)] at hsum
  linarith

/-- Committing the decisions raises `outstanding` by what was spent at most, and
    by exactly that if no candidate has received more than it was granted. -/
theorem Spent.sum_commit {μ a a' : ℚ} {cs : List (ℤ × Entry)} {out : List GrantDecision}
    (h : Spent μ a cs out a') (hnodup : (cs.map Prod.fst).Nodup)
    (hwants : ∀ c ∈ cs, c.2.granted < c.2.size) {rpcs : OrderedMap ℤ Entry}
    (hget : ∀ c ∈ cs, rpcs.get? c.1 = some c.2) :
    (commit rpcs out).sum Entry.outstanding ≤ rpcs.sum Entry.outstanding + (a - a') ∧
      ((∀ c ∈ cs, c.2.received ≤ c.2.granted) →
        (commit rpcs out).sum Entry.outstanding = rpcs.sum Entry.outstanding + (a - a')) := by
  induction h generalizing rpcs with
  | stop _ => simp [commit]
  | @part a id e rest priority ha hlt =>
    obtain ⟨hle, heq⟩ := sum_modify_granted (g := e.granted + a) (by linarith)
      (hget (id, e) List.mem_cons_self)
    refine ⟨?_, fun hrec => ?_⟩
    · exact hle.trans (by linarith)
    · exact (heq (hrec (id, e) List.mem_cons_self)).trans (by ring)
  | @whole a a' id e rest out priority ha hsize hrest ih =>
    obtain ⟨hnot, hnodup⟩ := List.nodup_cons.mp hnodup
    obtain ⟨hfirst, hwants⟩ := List.forall_mem_cons.mp hwants
    obtain ⟨hid, hget⟩ := List.forall_mem_cons.mp hget
    obtain ⟨hle, heq⟩ := sum_modify_granted hfirst.le hid
    have hget' : ∀ c ∈ rest, (rpcs.modify id fun e' => { e' with granted := e.size }).get? c.1 =
        some c.2 := by
      intro c hc
      have hne : c.1 ≠ id := fun h => hnot (List.mem_map.mpr ⟨c, hc, h⟩)
      rw [OrderedMap.get?_modify, if_neg hne]
      exact hget c hc
    obtain ⟨hle', heq'⟩ := ih hnodup hwants hget'
    refine ⟨?_, fun hrec => ?_⟩
    · exact hle'.trans (by linarith)
    · obtain ⟨hrec₁, hrec⟩ := List.forall_mem_cons.mp hrec
      refine (heq' hrec).trans ?_
      rw [heq hrec₁]
      ring

/-! ## A call of `grants` -/

theorem mem_candidates {s : SrptScheduler} {c : ℤ × Entry} :
    c ∈ s.candidates ↔ s.rpcs.get? c.1 = some c.2 ∧ c.2.granted < c.2.size ∧ c.2.paused = false := by
  rw [candidates, List.mem_insertionSort, List.mem_filter, ← OrderedMap.get?_eq_some_iff]
  simp [Entry.wants]

theorem nodup_candidates (s : SrptScheduler) : (s.candidates.map Prod.fst).Nodup := by
  have hperm := (List.perm_insertionSort keyLe (s.rpcs.entries.filter fun e => e.2.wants)).map Prod.fst
  exact hperm.nodup_iff.mpr (s.rpcs.nodup.sublist (List.filter_sublist.map Prod.fst))

theorem sorted_candidates (s : SrptScheduler) : s.candidates.Pairwise keyLe := by
  have : Std.Total keyLe := ⟨fun a b => le_total a.2.key b.2.key⟩
  have : IsTrans (ℤ × Entry) keyLe := ⟨fun a b c hab hbc => le_trans (α := ℕ ×ₗ ℚ ×ₗ ℕ) hab hbc⟩
  exact List.pairwise_insertionSort keyLe _

section Call

variable {s : SrptScheduler} {reserved : ℚ}

/-- What a call of `grants` does, whether it ends at once or runs its loop. -/
theorem spent_grants (s : SrptScheduler) (reserved : ℚ) :
    ∃ a', Spent s.effectiveMinIncrement (s.budget - reserved - s.outstanding) s.candidates
        (s.grants reserved).1 a' ∧
      (s.grants reserved).2.rpcs = commit s.rpcs (s.grants reserved).1 := by
  rw [grants]
  dsimp only
  split_ifs with hle
  · exact ⟨_, .stop (.inr (.inl hle)), rfl⟩
  · exact ⟨_, spent_grantLoop _ _ _ _ _, rfl⟩

theorem granted_lt_of_mem_candidates (s : SrptScheduler) :
    ∀ c ∈ s.candidates, c.2.granted < c.2.size := fun _ hc => (mem_candidates.mp hc).2.1

theorem nodup_grants (s : SrptScheduler) (reserved : ℚ) :
    ((s.grants reserved).1.map GrantDecision.rpcId).Nodup := by
  obtain ⟨a', hspent, -⟩ := s.spent_grants reserved
  exact s.nodup_candidates.sublist hspent.prefix_candidates.sublist

/-- The priority of a decision is a rank up to 7. -/
theorem priority_le_of_mem_grantLoop {μ o : ℚ} {rank : ℕ} {a : ℚ} {cs : List (ℤ × Entry)}
    {d : GrantDecision} (hd : d ∈ (grantLoop μ o rank a cs).out) : d.priority ≤ 7 := by
  induction cs generalizing rank a with
  | nil => exact absurd hd List.not_mem_nil
  | cons c rest ih =>
    rw [grantLoop] at hd
    dsimp only at hd
    split_ifs at hd
    · exact absurd hd List.not_mem_nil
    · exact absurd hd List.not_mem_nil
    · rcases List.mem_cons.mp hd with rfl | hd
      · exact min_le_right _ _
      · exact ih hd

theorem priority_le_of_mem_grants {d : GrantDecision} (hd : d ∈ (s.grants reserved).1) :
    d.priority ≤ 7 := by
  rw [grants] at hd
  dsimp only at hd
  split_ifs at hd
  · exact absurd hd List.not_mem_nil
  · exact priority_le_of_mem_grantLoop hd

/-- A grant is for an unpaused RPC and raises its ceiling. -/
theorem exists_of_mem_grants {d : GrantDecision} (hd : d ∈ (s.grants reserved).1) :
    ∃ e, s.rpcs.get? d.rpcId = some e ∧ e.paused = false ∧ e.granted < d.maxOffset ∧
      d.maxOffset ≤ e.size := by
  obtain ⟨a', hspent, -⟩ := s.spent_grants reserved
  obtain ⟨front, e, back, hcut, hlt, hle, -⟩ := hspent.before s.granted_lt_of_mem_candidates hd
  have hc : (d.rpcId, e) ∈ s.candidates := by
    rw [hcut]
    exact List.mem_append_right _ List.mem_cons_self
  obtain ⟨he, -, hpaused⟩ := mem_candidates.mp hc
  exact ⟨e, he, hpaused, hlt, hle⟩

theorem get?_grants_of_mem {d : GrantDecision} (hd : d ∈ (s.grants reserved).1) {e : Entry}
    (he : s.rpcs.get? d.rpcId = some e) :
    (s.grants reserved).2.rpcs.get? d.rpcId = some { e with granted := d.maxOffset } := by
  obtain ⟨a', -, hrpcs⟩ := s.spent_grants reserved
  rw [hrpcs, get?_commit_of_mem (s.nodup_grants reserved) hd, he]
  rfl

theorem get?_grants_of_notMem {id : ℤ} (h : id ∉ (s.grants reserved).1.map GrantDecision.rpcId) :
    (s.grants reserved).2.rpcs.get? id = s.rpcs.get? id := by
  obtain ⟨a', -, hrpcs⟩ := s.spent_grants reserved
  rw [hrpcs, get?_commit_of_notMem h]

/-- An RPC that was fully granted, or was granted the rest in this call, is fully
    granted afterwards. -/
theorem fully_granted_of {id : ℤ} {e : Entry} (he : s.rpcs.get? id = some e)
    (hfull : e.granted = e.size ∨ ∃ d ∈ (s.grants reserved).1, d.rpcId = id ∧ d.maxOffset = e.size) :
    ∃ e', (s.grants reserved).2.rpcs.get? id = some e' ∧ e'.granted = e'.size := by
  rcases hfull with hfull | ⟨d, hd, rfl, hmax⟩
  · have hnot : id ∉ (s.grants reserved).1.map GrantDecision.rpcId := by
      intro hid
      obtain ⟨d, hd, rfl⟩ := List.mem_map.mp hid
      obtain ⟨e₁, he₁, -, hlt, hle⟩ := exists_of_mem_grants hd
      obtain rfl := Option.some.inj (he.symm.trans he₁)
      linarith
    exact ⟨e, (get?_grants_of_notMem hnot).trans he, hfull⟩
  · exact ⟨_, get?_grants_of_mem hd he, hmax⟩

/-- The paused flag and the size of an RPC are not changed by a call. -/
theorem exists_of_get?_grants {id : ℤ} {e' : Entry}
    (he' : (s.grants reserved).2.rpcs.get? id = some e') :
    ∃ e, s.rpcs.get? id = some e ∧ e' = { e with granted := e'.granted } := by
  by_cases hid : id ∈ (s.grants reserved).1.map GrantDecision.rpcId
  · obtain ⟨d, hd, rfl⟩ := List.mem_map.mp hid
    obtain ⟨e, he, -⟩ := exists_of_mem_grants hd
    rw [get?_grants_of_mem hd he, Option.some.injEq] at he'
    exact ⟨e, he, by rw [← he']⟩
  · exact ⟨e', (get?_grants_of_notMem hid).symm.trans he', rfl⟩

/-- A call spends what is left of the budget at most. -/
theorem outstanding_grants_le (s : SrptScheduler) (reserved : ℚ) :
    (s.grants reserved).2.outstanding ≤ max s.outstanding (s.budget - reserved) := by
  obtain ⟨a', hspent, hrpcs⟩ := s.spent_grants reserved
  have hle := (hspent.sum_commit s.nodup_candidates s.granted_lt_of_mem_candidates
    fun c hc => (mem_candidates.mp hc).1).1
  rw [← hrpcs] at hle
  change (s.grants reserved).2.outstanding ≤ s.outstanding + _ at hle
  rcases le_or_gt (s.budget - reserved - s.outstanding) 0 with hneg | hpos
  · obtain ⟨-, rfl⟩ := hspent.eq_of_nonpos hneg
    exact le_max_of_le_left (by linarith)
  · have := hspent.available_nonneg hpos.le
    exact le_max_of_le_right (by linarith)

/-- Nothing is granted when the reserved and outstanding bytes take the budget. -/
theorem grants_eq_nil (h : s.budget - reserved - s.outstanding ≤ 0) : (s.grants reserved).1 = [] := by
  obtain ⟨a', hspent, -⟩ := s.spent_grants reserved
  exact (hspent.eq_of_nonpos h).1

/-- With nothing in flight and some budget, something is granted. -/
theorem grants_ne_nil (hnone : s.outstanding = 0) (hbudget : reserved < s.budget) {id : ℤ} {e : Entry}
    (he : s.rpcs.get? id = some e) (hpaused : e.paused = false) (hlt : e.granted < e.size) :
    (s.grants reserved).1 ≠ [] := by
  have hc : (id, e) ∈ s.candidates := mem_candidates.mpr ⟨he, hlt, hpaused⟩
  obtain ⟨c, rest, hcs⟩ := List.exists_cons_of_ne_nil (List.ne_nil_of_mem hc)
  have havailable : ¬ s.budget - reserved - s.outstanding ≤ 0 := by rw [hnone]; linarith
  -- the first round of the loop ends at no test: it is the one that restarts a
  -- session with nothing in flight
  rw [grants]
  dsimp only
  rw [if_neg havailable, hcs, grantLoop, if_neg havailable, if_neg (by simp [hnone])]
  exact List.cons_ne_nil _ _

end Call

/-- `a` comes before `b` in the grant order: class rank, then remaining bytes,
    then arrival number. -/
def Before (a b : Entry) : Prop :=
  classRank a.cls < classRank b.cls ∨ classRank a.cls = classRank b.cls ∧
    (a.remaining < b.remaining ∨ a.remaining = b.remaining ∧ a.seq < b.seq)

theorem before_iff_key_lt {a b : Entry} : Before a b ↔ a.key < b.key := by
  rw [Entry.key, Entry.key, Prod.Lex.toLex_lt_toLex, Prod.Lex.toLex_lt_toLex, Before]

/-- No RPC has received more than it was granted, or was granted more than its
    size. -/
def WellGranted (s : SrptScheduler) : Prop :=
  ∀ e ∈ s.rpcs.values, e.received ≤ e.granted ∧ e.granted ≤ e.size

instance (s : SrptScheduler) : Decidable s.WellGranted :=
  inferInstanceAs (Decidable (∀ e ∈ s.rpcs.values, e.received ≤ e.granted ∧ e.granted ≤ e.size))

/-- **Grant order and work conservation.** In a call of `grants`:

    * if an RPC is granted something, every unpaused RPC before it is fully
      granted afterwards;
    * each RPC gets one grant at most, which raises its ceiling, not past its
      size; a paused one gets none, and nothing else changes;
    * `outstanding` stays within what it was or the budget not reserved;
    * if afterwards more than nothing and at least the effective minimum increment
      is left of the budget, every unpaused RPC is fully granted. -/
theorem grants_order (s : SrptScheduler) (reserved : ℚ) (h : s.WellGranted) :
    let out := (s.grants reserved).1
    let s' := (s.grants reserved).2
    (∀ d ∈ out, ∀ e, s.rpcs.get? d.rpcId = some e → ∀ id b, s.rpcs.get? id = some b →
      b.paused = false → Before b e → ∃ b', s'.rpcs.get? id = some b' ∧ b'.granted = b'.size) ∧
    ((out.map GrantDecision.rpcId).Nodup ∧
      (∀ d ∈ out, ∃ e, s.rpcs.get? d.rpcId = some e ∧ e.paused = false ∧
        e.granted < d.maxOffset ∧ d.maxOffset ≤ e.size ∧
        s'.rpcs.get? d.rpcId = some { e with granted := d.maxOffset }) ∧
      ∀ id, id ∉ out.map GrantDecision.rpcId → s'.rpcs.get? id = s.rpcs.get? id) ∧
    s'.outstanding ≤ max s.outstanding (s.budget - reserved) ∧
    (0 < s.budget - reserved - s'.outstanding →
      s.effectiveMinIncrement ≤ s.budget - reserved - s'.outstanding →
      ∀ id e, s'.rpcs.get? id = some e → e.paused = false → e.granted = e.size) := by
  intro out s'
  obtain ⟨a', hspent, hrpcs⟩ := s.spent_grants reserved
  have hwhole {id : ℤ} {b : Entry} (hb : s.rpcs.get? id = some b) (hpaused : b.paused = false)
      (hcand : (id, b) ∈ s.candidates → ∃ d ∈ out, d.rpcId = id ∧ d.maxOffset = b.size) :
      ∃ b', s'.rpcs.get? id = some b' ∧ b'.granted = b'.size := by
    refine fully_granted_of hb ?_
    rcases (h b (OrderedMap.mem_values.mpr ⟨id, hb⟩)).2.eq_or_lt with hfull | hlt
    · exact .inl hfull
    · exact .inr (hcand (mem_candidates.mpr ⟨hb, hlt, hpaused⟩))
  refine ⟨?_, ⟨s.nodup_grants reserved, ?_, fun id hid => get?_grants_of_notMem hid⟩,
    s.outstanding_grants_le reserved, ?_⟩
  · intro d hd e he id b hb hpaused hbefore
    refine hwhole hb hpaused fun hcand => ?_
    obtain ⟨front, e₁, back, hcut, -, -, hfront⟩ :=
      hspent.before s.granted_lt_of_mem_candidates hd
    have hmem : (d.rpcId, e₁) ∈ s.candidates := by
      rw [hcut]
      exact List.mem_append_right _ List.mem_cons_self
    obtain rfl := Option.some.inj (he.symm.trans (mem_candidates.mp hmem).1)
    -- the candidates are sorted, so that `b` stands in front of `e`
    have hsorted := s.sorted_candidates
    rw [hcut, List.pairwise_append] at hsorted
    rw [hcut, List.mem_append, List.mem_cons] at hcand
    rw [before_iff_key_lt] at hbefore
    rcases hcand with hfr | heq | hback
    · exact hfront _ hfr
    · obtain ⟨-, rfl⟩ := Prod.ext_iff.mp heq
      exact absurd hbefore (lt_irrefl _)
    · have hle := List.rel_of_pairwise_cons hsorted.2.1 hback
      exact absurd hbefore (not_lt_of_ge hle)
  · intro d hd
    obtain ⟨e, he, hpaused, hlt, hle⟩ := exists_of_mem_grants hd
    exact ⟨e, he, hpaused, hlt, hle, get?_grants_of_mem hd he⟩
  · intro hpos hμ id e' he' hpaused
    have heq := (hspent.sum_commit s.nodup_candidates s.granted_lt_of_mem_candidates
      fun c hc => (mem_candidates.mp hc).1).2 fun c hc =>
        (h c.2 (OrderedMap.mem_values.mpr ⟨c.1, (mem_candidates.mp hc).1⟩)).1
    rw [← hrpcs] at heq
    change s'.outstanding = s.outstanding + _ at heq
    have hleft : s.budget - reserved - s'.outstanding = a' := by rw [heq]; ring
    rw [hleft] at hpos hμ
    obtain ⟨e, he, hsame⟩ := exists_of_get?_grants he'
    obtain ⟨b', hb', hfull⟩ := hwhole he (by rw [hsame] at hpaused; exact hpaused)
      fun hcand => hspent.conserving hpos hμ hcand
    obtain rfl := Option.some.inj (he'.symm.trans hb')
    exact hfull

/-- Two RPCs of 300 and 1000 bytes, and a budget of 500. -/
def twoRpcs (minIncrement : ℚ) : SrptScheduler :=
  ((new 500 minIncrement).add 1 1000 0 0 .normal).add 2 300 0 0 .normal

/-- The shorter RPC is granted whole, the longer one what is left. -/
theorem grants_order_two :
    (twoRpcs 100).WellGranted ∧
      ((twoRpcs 100).grants 0).1.map (fun d => (d.rpcId, d.maxOffset)) = [(2, 300), (1, 200)] ∧
      ((twoRpcs 100).grants 0).2.outstanding ≤ max (twoRpcs 100).outstanding (500 - 0) :=
  ⟨by decide +kernel, by decide +kernel, (grants_order (twoRpcs 100) 0 (by decide +kernel)).2.2.1⟩

/-- With a minimum increment of zero nothing is left of the budget, which is no
    less than the minimum increment, while an RPC still wants more. -/
theorem not_conserving_zero : ¬ ∀ (s : SrptScheduler) (reserved : ℚ), s.WellGranted →
    s.effectiveMinIncrement ≤ s.budget - reserved - (s.grants reserved).2.outstanding →
    ∀ id e, (s.grants reserved).2.rpcs.get? id = some e → e.paused = false → e.granted = e.size := by
  intro h
  have hget : ((twoRpcs 0).grants 0).2.rpcs.get? 1 =
      some { size := 1000, granted := 200, received := 0, paused := false, seq := 0, cls := .normal } := by
    decide +kernel
  exact absurd (h (twoRpcs 0) 0 (by decide +kernel) (by decide +kernel) 1 _ hget rfl) (by decide +kernel)

end SrptScheduler

end Http4.Client
