import Http4.Client.Invariant

/-!
# Bytes in flight

What the client has authorised and not received is counted in two places:
`reserved` as long as the size of a transfer is unknown, `outstanding` afterwards.
A transfer may take 4096 bytes that the budget does not have. `excess` is what it
counts for beyond that, and the sum of all excesses never passes the largest
budget so far.

Main results:

* `Ledger.move`: every move keeps the sum of the excesses below the peak.
* `inFlight_bound`: the bytes in flight over every run, and a call of `pumpGrants`.
-/

namespace Http4.Client

open Routine Http4Client

/-! ## Excesses -/

/-- What a scheduled transfer counts for beyond the 4096 bytes every transfer may take. -/
def Entry.excess (e : Entry) : ℚ := max 0 (e.outstanding - minInitialGrant)

/-- The same for a transfer of unknown size. -/
def Transfer.excess (t : Transfer) : ℚ := max 0 (t.reserved - minInitialGrant)

theorem Entry.outstanding_le_excess (e : Entry) : e.outstanding ≤ e.excess + minInitialGrant :=
  sub_le_iff_le_add.mp (le_max_right _ _)

theorem Entry.excess_le_outstanding (e : Entry) : e.excess ≤ e.outstanding :=
  max_le (le_max_left _ _) (sub_le_self _ (by norm_num [minInitialGrant]))

theorem Entry.excess_nonneg (e : Entry) : 0 ≤ e.excess := le_max_left _ _

/-- The excess of an entry grows with what is granted beyond what was received. -/
theorem Entry.excess_le_of {e e' : Entry} (h : e'.granted - e'.received ≤ e.granted - e.received) :
    e'.excess ≤ e.excess :=
  max_le_max le_rfl (sub_le_sub_right (max_le_max le_rfl h) _)

theorem Transfer.excess_nonneg (t : Transfer) : 0 ≤ t.excess := le_max_left _ _

theorem Transfer.reserved_le_excess (t : Transfer) :
    t.reserved ≤ t.excess + if t.live && t.asm.isNone then minInitialGrant else 0 := by
  split_ifs with h
  · exact sub_le_iff_le_add.mp (le_max_right _ _)
  · rw [Transfer.reserved, if_neg h, add_zero]
    exact t.excess_nonneg

theorem Transfer.excess_le_reserved {t : Transfer} (h : 0 ≤ t.initialGrant) : t.excess ≤ t.reserved := by
  have hreserved : 0 ≤ t.reserved := by
    rw [Transfer.reserved]
    split_ifs
    · exact h
    · exact le_rfl
  exact max_le hreserved (sub_le_self _ (by norm_num [minInitialGrant]))

/-- A transfer that reserves nothing has no excess. -/
theorem Transfer.excess_eq_zero {t : Transfer} (h : ¬ (t.live && t.asm.isNone) = true) : t.excess = 0 := by
  rw [Transfer.excess, Transfer.reserved, if_neg h]
  exact max_eq_left (by norm_num [minInitialGrant])

namespace Http4Client

/-- The sum of the excesses. -/
def excess (c : Http4Client) : ℚ := c.scheduler.rpcs.sum Entry.excess + c.objects.sum Transfer.excess

/-- The bytes authorised and not received. -/
def inFlight (c : Http4Client) : ℚ := c.scheduler.outstanding + c.reserved

end Http4Client

/-! ## The ledger -/

/-- The excesses stay within the largest budget so far. -/
structure Ledger (c : Http4Client) : Prop where
  inv : Inv c
  adaptive : c.opts.initialGrant = none
  initialGrant : ∀ id t, c.objects.get? id = some t → 0 ≤ t.initialGrant
  excess_le : c.excess ≤ c.peak

section Ledger

variable {inc : Option Wire.Ts.Packet} {c c' : Http4Client}

theorem Ledger.excess_le_inFlight (h : Ledger c) : c.excess ≤ c.inFlight := by
  refine add_le_add (OrderedMap.sum_le_sum fun e _ => e.excess_le_outstanding)
    (OrderedMap.sum_le_sum fun t ht => ?_)
  obtain ⟨id, ht⟩ := OrderedMap.mem_values.mp ht
  exact Transfer.excess_le_reserved (h.initialGrant id t ht)

/-- A change that lowers the excess of one entry. -/
theorem sum_excess_modify_le {m : OrderedMap ℤ Entry} (id : ℤ) {f : Entry → Entry}
    (hf : ∀ e, (f e).excess ≤ e.excess) : (m.modify id f).sum Entry.excess ≤ m.sum Entry.excess := by
  cases he : m.get? id with
  | none => rw [OrderedMap.modify_of_none he]
  | some e =>
    have hsum := OrderedMap.sum_modify Entry.excess f he
    linarith [hf e]

theorem sum_excess_delete_le {m : OrderedMap ℤ Entry} (id : ℤ) :
    (m.delete id).sum Entry.excess ≤ m.sum Entry.excess := by
  cases he : m.get? id with
  | none => rw [OrderedMap.delete_of_none he]
  | some e =>
    have hsum := OrderedMap.sum_delete Entry.excess he
    linarith [e.excess_nonneg]

/-- No change to a transfer raises what it counts for, in its two places together. -/
theorem excess_change_le {id : ℤ} {t t' : Transfer} {s : SrptScheduler}
    (h : Change inc c id t t' s) (hok : TransferOk t) (htied : Tied t (c.scheduler.rpcs.get? id)) :
    s.rpcs.sum Entry.excess + t'.excess ≤ c.scheduler.rpcs.sum Entry.excess + t.excess := by
  cases h with
  | progress | headers | claim | stream | settle => exact le_rfl
  | learn d hinc _ hlive hasm =>
    have hnone : c.scheduler.rpcs.get? id = none := by
      generalize c.scheduler.rpcs.get? id = o at htied
      cases htied with
      | unscheduled => rfl
      | scheduled _ hasm' => rw [hasm] at hasm'; cases hasm'
    change (c.scheduler.rpcs.set id _).sum Entry.excess + _ ≤ _
    rw [OrderedMap.sum_set _ hnone, add_assoc]
    refine add_le_add le_rfl ?_
    rw [Transfer.excess_eq_zero (by simp), add_zero, Transfer.excess, Transfer.reserved, hlive, hasm]
    refine max_le (le_max_left _ _) ?_
    simp only [Entry.outstanding, sub_zero]
    rcases le_total 0 (min t.initialGrant d.totalSize) with hpos | hneg
    · rw [max_eq_right hpos]
      exact le_max_of_le_right (sub_le_sub_right (min_le_left _ _) _)
    · rw [max_eq_left hneg]
      exact le_max_of_le_left (by norm_num [minInitialGrant])
  | store d asm asm' fresh _ _ hlive hasm _ hadd =>
    obtain ⟨-, w, hrep⟩ := hok.represents asm hasm
    obtain ⟨hfresh, -⟩ := hrep.of_add hadd
    have hexcess : ({ t with asm := some asm' } : Transfer).excess = t.excess := by
      rw [Transfer.excess_eq_zero (by simp), Transfer.excess_eq_zero (by simp [hasm])]
    rw [hexcess]
    refine add_le_add (sum_excess_modify_le id fun e => Entry.excess_le_of ?_) le_rfl
    have : (0 : ℚ) ≤ fresh := by exact_mod_cast hfresh
    change e.granted - (e.received + fresh) ≤ _
    linarith
  | pause | unpause => exact add_le_add (sum_excess_modify_le id fun e => le_rfl) le_rfl
  | remove =>
    rw [Transfer.excess_eq_zero (by simp)]
    exact add_le_add (sum_excess_delete_le id) t.excess_nonneg

theorem Http4Client.Change.initialGrant {id : ℤ} {t t' : Transfer} {s : SrptScheduler}
    (h : Change inc c id t t' s) : t'.initialGrant = t.initialGrant := by
  cases h <;> rfl

/-- A new transfer takes 4096 bytes, or what is left of the budget. -/
theorem nextInitialGrant_cases (h : c.opts.initialGrant = none) :
    c.nextInitialGrant = minInitialGrant ∨
      minInitialGrant ≤ c.nextInitialGrant ∧ c.inFlight + c.nextInitialGrant ≤ c.budget.budget := by
  rw [nextInitialGrant, h, inFlight]
  dsimp only
  rcases le_total (min (min maxInitialGrant (max minInitialGrant (⌊c.budget.bdp⌋ : ℚ)))
    (c.budget.budget - c.scheduler.outstanding - c.reserved)) minInitialGrant with hle | hle
  · exact .inl (max_eq_left hle)
  · rw [max_eq_right hle]
    have := min_le_right (min maxInitialGrant (max minInitialGrant (⌊c.budget.bdp⌋ : ℚ)))
      (c.budget.budget - c.scheduler.outstanding - c.reserved)
    exact .inr ⟨hle, by linarith⟩

theorem Ledger.register (h : Ledger c) : c.excess + max 0 (c.nextInitialGrant - minInitialGrant) ≤ c.peak := by
  rcases nextInitialGrant_cases h.adaptive with heq | ⟨hle, hfree⟩
  · rw [heq, sub_self, max_self, add_zero]
    exact h.excess_le
  · rw [max_eq_right (sub_nonneg.mpr hle)]
    have hpos : (0 : ℚ) ≤ minInitialGrant := by norm_num [minInitialGrant]
    have hpeak := h.inv.budget_le
    have hexcess := h.excess_le_inFlight
    linarith

/-- A call of `grants` spends nothing, or stays within the budget. -/
theorem Ledger.pump (h : Ledger c) :
    ((c.scheduler.setBudget c.budget.budget).grants c.reserved).2.rpcs.sum Entry.excess +
      c.objects.sum Transfer.excess ≤ c.peak := by
  rcases le_or_gt (c.budget.budget - c.reserved - c.scheduler.outstanding) 0 with hneg | hpos
  · obtain ⟨a', -, hrpcs⟩ := (c.scheduler.setBudget c.budget.budget).spent_grants c.reserved
    rw [hrpcs, SrptScheduler.grants_eq_nil hneg]
    exact h.excess_le
  · have houtstanding := (c.scheduler.setBudget c.budget.budget).outstanding_grants_le c.reserved
    rw [max_eq_right (by change c.scheduler.outstanding ≤ c.budget.budget - c.reserved; linarith)]
      at houtstanding
    have hscheduled : ((c.scheduler.setBudget c.budget.budget).grants c.reserved).2.rpcs.sum Entry.excess ≤
        c.budget.budget - c.reserved :=
      (OrderedMap.sum_le_sum fun e _ => e.excess_le_outstanding).trans houtstanding
    have hobjects : c.objects.sum Transfer.excess ≤ c.reserved := OrderedMap.sum_le_sum fun t ht => by
      obtain ⟨id, ht⟩ := OrderedMap.mem_values.mp ht
      exact Transfer.excess_le_reserved (h.initialGrant id t ht)
    have hpeak := h.inv.budget_le
    linarith

theorem Ledger.move (hdec : Decoded inc) (h : Ledger c) (hm : Move inc c c') : Ledger c' := by
  have hinv := h.inv.move hdec hm
  cases hm with
  | estimate | ticker | hand | arrive | detect | repeats =>
    exact ⟨hinv, h.adaptive, h.initialGrant, h.excess_le⟩
  | budget => exact ⟨hinv, h.adaptive, h.initialGrant, h.excess_le.trans (le_max_left _ _)⟩
  | register id assetId cls stream progress hfresh =>
    refine ⟨hinv, h.adaptive, fun id' t ht => ?_, ?_⟩
    · change (c.objects.set id _).get? id' = _ at ht
      rw [OrderedMap.get?_set] at ht
      split_ifs at ht
      · obtain rfl := Option.some.inj ht
        have hpos : (0 : ℚ) ≤ minInitialGrant := by norm_num [minInitialGrant]
        rcases nextInitialGrant_cases h.adaptive with heq | ⟨hle, -⟩
        · exact hpos.trans_eq heq.symm
        · exact hpos.trans hle
      · exact h.initialGrant id' t ht
    · change c.scheduler.rpcs.sum Entry.excess + (c.objects.set id _).sum Transfer.excess ≤ c.peak
      rw [OrderedMap.sum_set _ hfresh, ← add_assoc]
      exact h.register
  | change id t t' s ht hchange =>
    refine ⟨hinv, h.adaptive, fun id' u hu => ?_, ?_⟩
    · change (c.objects.modify id _).get? id' = _ at hu
      rw [OrderedMap.get?_modify] at hu
      split_ifs at hu with heq
      · rw [heq, ht] at hu
        obtain rfl := Option.some.inj hu
        exact hchange.initialGrant.symm ▸ h.initialGrant id t ht
      · exact h.initialGrant id' u hu
    · change s.rpcs.sum Entry.excess + (c.objects.modify id _).sum Transfer.excess ≤ c.peak
      have hchange := excess_change_le hchange (h.inv.transfer id t ht).1 (h.inv.transfer id t ht).2
      have hsum := OrderedMap.sum_modify Transfer.excess (fun _ => t') ht
      have hle := h.excess_le
      rw [excess] at hle
      linarith
  | pump => exact ⟨hinv, h.adaptive, h.initialGrant, h.pump⟩

theorem Ledger.flag (h : Ledger c) (hf : Flag c c') : Ledger c' := by
  have hinv := h.inv.flag hf
  cases hf with
  | stopReading | close | endSession => exact ⟨hinv, h.adaptive, h.initialGrant, h.excess_le⟩

theorem ledger_new {opts : ClientOptions} (hadaptive : opts.initialGrant = none) (hfloor : 0 ≤ opts.floor)
    (maxDatagramSize : ℕ) : Ledger (.new opts maxDatagramSize) :=
  ⟨inv_new opts maxDatagramSize, hadaptive, fun _ _ h => absurd h (by simp [Http4Client.new]),
    (add_zero 0).trans_le hfloor⟩

end Ledger

/-! ## The bound -/

section Bound

variable {c : Http4Client}

/-- A transfer is in the scheduler or reserved, never both. -/
theorem Inv.size_rpcs_le (h : Inv c) :
    c.scheduler.rpcs.size + (c.objects.values.filter fun t => t.live && t.asm.isNone).length ≤
      c.transfers.length := by
  have hkeys : c.scheduler.rpcs.entries.map Prod.fst ⊆
      (c.objects.entries.filter fun e => e.2.live && e.2.asm.isSome).map Prod.fst := by
    intro id hid
    obtain ⟨⟨id, e⟩, he, rfl⟩ := List.mem_map.mp hid
    have he := OrderedMap.get?_eq_some_iff.mpr he
    cases ht : c.objects.get? id with
    | none => exact absurd ((h.known id ht).symm.trans he) (by simp)
    | some t =>
      have htied := (h.transfer id t ht).2
      rw [he] at htied
      cases htied with
      | scheduled hlive hasm =>
        exact List.mem_map.mpr ⟨(id, t), List.mem_filter.mpr
          ⟨OrderedMap.get?_eq_some_iff.mp ht, by simp [hlive, hasm]⟩, rfl⟩
  have hsized := (List.subperm_of_subset c.scheduler.rpcs.nodup hkeys).length_le
  rw [List.length_map, List.length_map] at hsized
  have hunsized : (c.objects.values.filter fun t => t.live && t.asm.isNone).length =
      (c.objects.entries.filter fun e => e.2.live && e.2.asm.isNone).length := by
    rw [OrderedMap.values, List.filter_map, List.length_map]
    rfl
  rw [OrderedMap.size, hunsized, transfers, List.length_map]
  refine (Nat.add_le_add_right hsized _).trans_eq ?_
  induction c.objects.entries with
  | nil => rfl
  | cons e l ih =>
    rcases e with ⟨id, t⟩
    cases hlive : t.live <;> cases hasm : t.asm <;> simp [hlive, hasm] <;> omega

theorem Ledger.inFlight_le (h : Ledger c) : c.inFlight ≤ c.peak + 4096 * c.transfers.length := by
  have hscheduled := OrderedMap.sum_le_sum_add (w := Entry.outstanding) (u := Entry.excess)
    (m := c.scheduler.rpcs) (p := fun _ => true) (a := minInitialGrant) fun e _ => e.outstanding_le_excess
  have hreserved := OrderedMap.sum_le_sum_add (w := Transfer.reserved) (u := Transfer.excess)
    (m := c.objects) (p := fun t => t.live && t.asm.isNone) (a := minInitialGrant)
    fun t _ => t.reserved_le_excess
  rw [List.filter_true, OrderedMap.values, List.length_map, ← OrderedMap.size, nsmul_eq_mul] at hscheduled
  rw [nsmul_eq_mul] at hreserved
  have hcount : (c.scheduler.rpcs.size : ℚ) +
      (c.objects.values.filter fun t => t.live && t.asm.isNone).length ≤ c.transfers.length := by
    exact_mod_cast h.inv.size_rpcs_le
  have hexcess := h.excess_le
  rw [excess] at hexcess
  rw [inFlight, SrptScheduler.outstanding, reserved]
  norm_num only [minInitialGrant] at hscheduled hreserved
  linarith

/-- `pumpGrants` changes no transfer but for its fields only timers and samples read. -/
theorem keeps_reserved_noteGrant (g : GrantDecision) : Follows (Keeps reserved) (noteGrant g) c := by
  have hprogress (c : Http4Client) (f : Progress → Progress) :
      (c.setProgress g.rpcId f).reserved = c.reserved :=
    OrderedMap.sum_modify_of_eq Transfer.reserved g.rpcId fun _ => rfl
  refine follows_withTransfer fun t _ => ?_
  split_ifs
  · refine Follows.bind ?_ fun _ _ _ => Follows.modify (hprogress _ _)
    rw [startProbe]
    cases t.progress.probe with
    | some _ => exact Follows.pure _
    | none =>
      refine Follows.bind (Follows.get_bind (Follows.modify_bind rfl (Follows.pure _))) fun _ _ _ => ?_
      exact Follows.modify (hprogress _ _)
  · exact Follows.pure _

/-- What a call of `pumpGrants` leaves of the two counts. -/
theorem exec_pumpGrants :
    (exec pumpGrants c).2.scheduler = ((c.scheduler.setBudget c.budget.budget).grants c.reserved).2 ∧
      (exec pumpGrants c).2.reserved = c.reserved := by
  have hlimited (s : Http4Client) : s.scheduler = (if s.scheduler.limited then
      s.setBudget s.budget.noteLimited else s).scheduler ∧ s.reserved = (if s.scheduler.limited then
      s.setBudget s.budget.noteLimited else s).reserved := by
    split_ifs <;> exact ⟨rfl, rfl⟩
  rw [pumpGrants, exec_get_bind, exec_modify_bind]
  constructor
  · refine Follows.bind (R := Keeps scheduler) (Follows.forM fun g _ s => ?_) fun _ s _ =>
      Follows.modify (hlimited s).1.symm
    exact Follows.bind (keeps_noteGrant g) fun _ _ _ => keeps_send scheduler (fun _ _ => rfl) _
  · refine Follows.bind (R := Keeps reserved) (Follows.forM fun g _ s => ?_) fun _ s _ =>
      Follows.modify (hlimited s).2.symm
    exact Follows.bind (keeps_reserved_noteGrant g) fun _ _ _ => keeps_send reserved (fun _ _ => rfl) _

/-- A call of `pumpGrants` hands nothing to `send` if the budget is in flight already. -/
theorem handed_pumpGrants (h : c.budget.budget ≤ c.inFlight) : (exec pumpGrants c).2.handed = c.handed := by
  have hnil : ((c.scheduler.setBudget c.budget.budget).grants c.reserved).1 = [] := by
    refine SrptScheduler.grants_eq_nil ?_
    change c.budget.budget - c.reserved - c.scheduler.outstanding ≤ 0
    rw [inFlight] at h
    linarith
  rw [pumpGrants, exec_get_bind, exec_modify_bind, hnil, List.forM, pure_bind, exec_modify]
  dsimp only
  split_ifs <;> rfl

/-- **The bytes in flight.** Without a fixed initial grant, and with a budget floor
    that is not negative (`ClientOptions.Accepted.floor_nonneg`):

    * in every state of every run, what the client has authorised and not received
      is no more than the largest budget so far and 4096 bytes for each live transfer;
    * a call of `pumpGrants`, in any state, leaves it within what it was or the
      budget, and hands over nothing if it was the budget or more. -/
theorem inFlight_bound {opts : ClientOptions} (maxDatagramSize : ℕ) (hadaptive : opts.initialGrant = none)
    (hfloor : 0 ≤ opts.floor) :
    (∀ c, Machine.Reachable Http4Client.step (connect opts maxDatagramSize) c →
      c.scheduler.outstanding + c.reserved ≤ c.peak + 4096 * c.transfers.length) ∧
    ∀ c : Http4Client,
      (exec pumpGrants c).2.scheduler.outstanding + (exec pumpGrants c).2.reserved ≤
        max (c.scheduler.outstanding + c.reserved) c.budget.budget ∧
      (c.budget.budget ≤ c.scheduler.outstanding + c.reserved → (exec pumpGrants c).2.handed = c.handed) := by
  refine ⟨fun c hc => ?_, fun c => ⟨?_, handed_pumpGrants⟩⟩
  · have hledger : Ledger c := invariant_of_moves (ledger_new hadaptive hfloor maxDatagramSize)
      (fun _ _ _ hdec => Ledger.move hdec) (fun _ _ => Ledger.flag) hc
    exact hledger.inFlight_le
  · obtain ⟨hscheduler, hreserved⟩ := exec_pumpGrants (c := c)
    rw [hscheduler, hreserved]
    have hle := (c.scheduler.setBudget c.budget.budget).outstanding_grants_le c.reserved
    rcases le_max_iff.mp hle with hle | hle
    · exact le_max_of_le_left (add_le_add_left hle _)
    · exact le_max_of_le_right (by
        change _ ≤ c.budget.budget - c.reserved at hle
        linarith)

/-- A request, its first DATA of a transfer of 20000 bytes, and another request. -/
def twoRequests : List Step :=
  [{ event := .request 1 (Wire.Ts.jsLit "a") false .normal },
   { event := .datagram [2, 0, 0, 0, 0, 0, 0, 0, 1, 0, 0, 78, 32, 0, 0, 0, 0, 7] true },
   { event := .request 2 (Wire.Ts.jsLit "b") false .normal }]

/-- One transfer is scheduled, the other one reserved. -/
theorem inFlight_bound_two :
    ∃ c, Machine.run Http4Client.step (connect {} 1200) twoRequests = some c ∧
      c.scheduler.outstanding = 19999 ∧ c.reserved = 4096 ∧
      c.scheduler.outstanding + c.reserved ≤ c.peak + 4096 * c.transfers.length := by
  have hany : (Machine.run Http4Client.step (connect {} 1200) twoRequests).any fun c =>
      c.scheduler.outstanding = 19999 ∧ c.reserved = 4096 := by decide +kernel
  obtain ⟨c, hrun, hc⟩ := (Option.any_eq_true _ _).mp hany
  obtain ⟨houtstanding, hreserved⟩ := of_decide_eq_true hc
  exact ⟨c, hrun, houtstanding, hreserved,
    (@inFlight_bound {} 1200 rfl (by decide +kernel)).1 c ⟨_, hrun⟩⟩

end Bound

end Http4.Client
