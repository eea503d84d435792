import Http4.Client.Authority

/-!
# Clients in which everything waits

The timer leaves a transfer alone whose grant has arrived, and one that is paused. The
bytes that a paused transfer was granted count against the budget whether they are under
way or lost.

Main results:

* `grants_eq_nil_iff`: when a call of `grants` grants nothing.
* `Bounded.stalls_iff`: when nothing is granted to a client in which everything waits.
-/

namespace Http4.Client

open Http4Client

/-! ## Calls that grant nothing -/

namespace SrptScheduler

variable {s : SrptScheduler} {reserved : ℚ}

/-- The bytes granted to paused RPCs that have not arrived. -/
def withheld (s : SrptScheduler) : ℚ := s.rpcs.sum fun e => if e.paused then e.outstanding else 0

/-- Bytes granted to paused RPCs are missing, and without them the budget is too small for
    the first candidate. -/
def HeldBack (s : SrptScheduler) : Prop :=
  0 < s.withheld ∧
    ∃ c ∈ s.candidates.head?, s.budget - s.withheld < min s.effectiveMinIncrement c.2.remaining

instance : DecidablePred HeldBack := fun s => by
  unfold HeldBack
  cases s.candidates.head? with
  | none => exact decidable_of_iff False (by simp)
  | some c =>
    refine decidable_of_iff (0 < s.withheld ∧ s.budget - s.withheld < min s.effectiveMinIncrement c.2.remaining) ?_
    simp

/-- **When a call of `grants` grants nothing**: nothing is available, or something is in
    flight and the first candidate, which wants more, would get too little. -/
theorem grants_eq_nil_iff (s : SrptScheduler) (reserved : ℚ) :
    (s.grants reserved).1 = [] ↔ s.budget - reserved - s.outstanding ≤ 0 ∨
      ∀ c ∈ s.candidates.head?, s.outstanding ≠ 0 ∧
        s.budget - reserved - s.outstanding < min s.effectiveMinIncrement (c.2.size - c.2.granted) := by
  rw [grants]
  dsimp only
  split_ifs with hle
  · exact iff_of_true rfl (.inl hle)
  · rw [or_iff_right hle]
    cases hcs : s.candidates with
    | nil => exact iff_of_true rfl fun c hc => by cases hc
    | cons c rest =>
      obtain ⟨id, e⟩ := c
      have htarget : target e (s.budget - reserved - s.outstanding) < e.size ↔
          s.budget - reserved - s.outstanding < e.size - e.granted := by
        rw [target, min_lt_iff, or_iff_right (lt_irrefl _), lt_sub_iff_add_lt']
      rw [grantLoop, if_neg hle]
      dsimp only
      constructor
      · intro hnil c hc
        obtain rfl := Option.some.inj hc
        split_ifs at hnil with hbreak
        obtain ⟨hinc, hlt, hstalled⟩ := hbreak
        have hsame : target e (s.budget - reserved - s.outstanding) = e.granted + (s.budget - reserved - s.outstanding) :=
          min_eq_right (by linarith [htarget.mp hlt])
        rw [hsame, add_sub_cancel_left] at hinc
        exact ⟨fun h => hstalled ⟨h, rfl⟩, lt_min hinc (htarget.mp hlt)⟩
      · intro hall
        obtain ⟨hne, hlt⟩ := hall (id, e) rfl
        obtain ⟨hinc, hlt⟩ := lt_min_iff.mp hlt
        have hsame : target e (s.budget - reserved - s.outstanding) = e.granted + (s.budget - reserved - s.outstanding) :=
          min_eq_right (by linarith)
        rw [if_pos ⟨by rw [hsame, add_sub_cancel_left]; exact hinc, htarget.mpr hlt, fun h => hne h.1⟩]

theorem outstanding_nonneg (s : SrptScheduler) : 0 ≤ s.outstanding := by
  refine List.sum_nonneg fun x hx => ?_
  obtain ⟨e, -, rfl⟩ := List.mem_map.mp hx
  exact le_max_left _ _

/-- Where only paused RPCs have bytes in flight and no candidate has any, nothing is granted
    to a candidate exactly if they hold it back. -/
theorem heldBack_iff (hbudget : 0 < s.budget) (hincrement : 0 < s.minIncrement) (hsum : s.outstanding = s.withheld)
    (harrived : ∀ c ∈ s.candidates, c.2.received = c.2.granted) :
    s.HeldBack ↔ s.candidates ≠ [] ∧ (s.grants 0).1 = [] := by
  have hμ : 0 < s.effectiveMinIncrement := lt_min hincrement (lt_max_of_lt_left one_pos)
  have hfirst {c : ℤ × Entry} (hc : c ∈ s.candidates.head?) : c ∈ s.candidates := List.mem_of_mem_head? hc
  have hremaining {c : ℤ × Entry} (hc : c ∈ s.candidates) : c.2.remaining = c.2.size - c.2.granted := by
    rw [Entry.remaining, harrived c hc]
  rw [grants_eq_nil_iff, sub_zero, hsum]
  constructor
  · rintro ⟨hpos, c, hc, hlt⟩
    refine ⟨List.ne_nil_of_mem (hfirst hc), .inr fun c' hc' => ?_⟩
    obtain rfl := Option.some.inj (hc.symm.trans hc')
    exact ⟨hpos.ne', hremaining (hfirst hc) ▸ hlt⟩
  · rintro ⟨hne, hnone⟩
    obtain ⟨c, rest, hcs⟩ := List.exists_cons_of_ne_nil hne
    have hc : c ∈ s.candidates.head? := by rw [hcs]; rfl
    have hwants := granted_lt_of_mem_candidates s c (hfirst hc)
    rcases hnone with hle | hall
    · refine ⟨by linarith, c, hc, lt_of_le_of_lt hle (lt_min hμ ?_)⟩
      rw [hremaining (hfirst hc)]
      linarith
    · obtain ⟨hne, hlt⟩ := hall c hc
      refine ⟨lt_of_le_of_ne (hsum ▸ s.outstanding_nonneg) hne.symm, c, hc, ?_⟩
      rw [hremaining (hfirst hc)]
      exact hlt

end SrptScheduler

/-! ## Settings -/

/-- Every setting that is a number is a positive whole one. -/
def ClientOptions.PositiveWhole (opts : ClientOptions) : Prop :=
  ∀ o ∈ [opts.budget, opts.budgetFloor, opts.budgetCap, opts.budgetK, opts.minIncrement, opts.initialGrant,
    opts.rtoFloorMs, opts.maxRecoveries, opts.reorderPackets, opts.streamHighWaterMark],
    ∀ q, o = some q → ∃ n : ℕ, 0 < n ∧ q = n

section Settings

variable {opts : ClientOptions}

theorem ClientOptions.PositiveWhole.pos (h : opts.PositiveWhole) {o : Option ℚ}
    (ho : o ∈ [opts.budget, opts.budgetFloor, opts.budgetCap, opts.budgetK, opts.minIncrement, opts.initialGrant,
      opts.rtoFloorMs, opts.maxRecoveries, opts.reorderPackets, opts.streamHighWaterMark])
    {d : ℚ} (hd : 0 < d) : 0 < o.getD d := by
  cases o with
  | none => exact hd
  | some q =>
    obtain ⟨n, hn, rfl⟩ := h _ ho q rfl
    exact Nat.cast_pos.mpr hn

theorem ClientOptions.PositiveWhole.floor_pos (h : opts.PositiveWhole) : 0 < opts.floor := by
  have hdefault : 0 < defaultBudgetFloor := by norm_num [defaultBudgetFloor]
  rw [ClientOptions.floor]
  cases hb : opts.budget with
  | some q =>
    have hpos := h.pos (o := opts.budget) (by simp) hdefault
    rwa [hb] at hpos
  | none => exact h.pos (o := opts.budgetFloor) (by simp) hdefault

end Settings

namespace Http4Client

variable {c c' : Http4Client} {opts : ClientOptions} {maxDatagramSize : ℕ}

/-- What the settings set, in every state of every run. -/
structure Configured (opts : ClientOptions) (c : Http4Client) : Prop where
  minIncrement : c.scheduler.minIncrement = opts.minIncrement.getD defaultMinIncrement
  ok : c.budget.Ok
  floor : c.budget.floor = opts.floor

theorem Change.minIncrement {inc : Option Wire.Ts.Packet} {id : ℤ} {t t' : Transfer} {s : SrptScheduler}
    (h : Change inc c id t t' s) : s.minIncrement = c.scheduler.minIncrement := by
  cases h with
  | progress | learn | store | headers | claim | stream | pause | unpause | remove | settle => rfl

theorem minIncrement_grants (s : SrptScheduler) (reserved : ℚ) :
    (s.grants reserved).2.minIncrement = s.minIncrement := by
  rw [SrptScheduler.grants]
  dsimp only
  split_ifs <;> rfl

theorem configured_reachable (h : Machine.Reachable Http4Client.step (connect opts maxDatagramSize) c) :
    Configured opts c := by
  refine invariant_of_moves (P := Configured opts) ⟨rfl, BudgetController.ok_new _ _ _ _, rfl⟩
    (fun inc s s' _ hs hm => ?_) (fun s s' hs hf => ?_) h
  · obtain ⟨hincrement, hok, hfloor⟩ := hs
    cases hm with
    | estimate | ticker | hand | arrive | detect | repeats | register => exact ⟨hincrement, hok, hfloor⟩
    | budget b hmoves => exact ⟨hincrement, hok.moves hmoves, hmoves.floor.trans hfloor⟩
    | change id t t' r ht hchange => exact ⟨hchange.minIncrement.trans hincrement, hok, hfloor⟩
    | pump => exact ⟨(minIncrement_grants _ _).trans hincrement, hok, hfloor⟩
  · obtain ⟨hincrement, hok, hfloor⟩ := hs
    cases hf <;> exact ⟨hincrement, hok, hfloor⟩

/-! ## Clients -/

/-- The scheduler with the budget that it is given before each call of `grants`. -/
def budgeted (c : Http4Client) : SrptScheduler := c.scheduler.setBudget c.budget.budget

/-- The timer takes every transfer to be waiting. -/
def Waits (c : Http4Client) : Prop :=
  ∀ x ∈ c.objects.entries, x.2.live = true → x.2.waiting (c.grantedOf x.1 x.2) = true

instance : DecidablePred Waits := fun c =>
  inferInstanceAs (Decidable (∀ x ∈ c.objects.entries, x.2.live = true → x.2.waiting (c.grantedOf x.1 x.2) = true))

/-- Some unpaused transfer is incomplete. -/
def Wants (c : Http4Client) : Prop :=
  ∃ x ∈ c.objects.entries, x.2.live = true ∧ x.2.paused = false ∧ ¬ x.2.Complete

/-- A transfer that waits, and is not paused, has all that it was granted. -/
theorem Bounded.arrived (h : Bounded c) (hwaits : Waits c) {id : ℤ} {t : Transfer} {e : Entry}
    (ht : c.objects.get? id = some t) (he : c.scheduler.rpcs.get? id = some e) (hpaused : e.paused = false) :
    t.live = true ∧ t.headers.isSome ∧ ∃ asm, t.asm = some asm ∧ t.paused = false ∧ e.size = asm.size ∧
      e.received = asm.received ∧ e.received = e.granted := by
  have htied := (h.inv.transfer id t ht).2
  rw [he] at htied
  cases htied with
  | @scheduled _ asm hlive hasm size received paused granted =>
    have hwaiting := hwaits (id, t) (OrderedMap.get?_eq_some_iff.mp ht) hlive
    have hunpaused : t.stream.any StreamState.paused = false := paused.symm.trans hpaused
    have hgranted : c.grantedOf id t = e.granted := by
      rw [grantedOf, hasm, if_pos (Option.isSome_some), SrptScheduler.granted, he]
      rfl
    simp only [Transfer.waiting, hunpaused, Bool.or_false, Bool.and_eq_true, hasm, Option.any_some,
      decide_eq_true_eq, hgranted] at hwaiting
    obtain ⟨-, contents, hrep⟩ := (h.inv.transfer id t ht).1.represents asm hasm
    have hle : (asm.received : ℚ) ≤ e.granted := by
      refine le_trans ?_ ((h.entries id t e ht he).frontier asm hasm)
      exact_mod_cast hrep.received_le_frontier
    exact ⟨hlive, hwaiting.1, asm, hasm, hunpaused, size, received, received.trans (le_antisymm hle hwaiting.2)⟩

/-- Where everything waits, only paused transfers have bytes in flight. -/
theorem Bounded.outstanding_eq (h : Bounded c) (hwaits : Waits c) : c.scheduler.outstanding = c.scheduler.withheld := by
  show (c.scheduler.rpcs.values.map _).sum = (c.scheduler.rpcs.values.map _).sum
  refine congrArg List.sum (List.map_congr_left fun e he => ?_)
  obtain ⟨id, hid⟩ := OrderedMap.mem_values.mp he
  cases hpaused : e.paused with
  | true => rw [if_pos rfl]
  | false =>
    cases ht : c.objects.get? id with
    | none =>
      rw [h.inv.known id ht] at hid
      cases hid
    | some t =>
      obtain ⟨-, -, asm, -, -, -, -, harrived⟩ := h.arrived hwaits ht hid hpaused
      rw [if_neg Bool.false_ne_true, Entry.outstanding, harrived, sub_self, max_self]

/-- Where everything waits, every transfer knows its size. -/
theorem Bounded.reserved_eq (h : Bounded c) (hwaits : Waits c) : c.reserved = 0 := by
  refine List.sum_eq_zero fun x hx => ?_
  obtain ⟨t, ht, rfl⟩ := List.mem_map.mp hx
  obtain ⟨id, hid⟩ := OrderedMap.mem_values.mp ht
  rw [Transfer.reserved]
  refine if_neg fun hnone => ?_
  obtain ⟨hlive, hasm⟩ := Bool.and_eq_true_iff.mp hnone
  have hwaiting := hwaits (id, t) (OrderedMap.get?_eq_some_iff.mp hid) hlive
  have hasm := Option.isNone_iff_eq_none.mp hasm
  simp only [Transfer.waiting, hasm, Option.any_none, Bool.and_false, Bool.false_or] at hwaiting
  have hsome := (h.inv.transfer id t hid).1.paused hwaiting
  rw [hasm] at hsome
  cases hsome

/-- **When nothing is granted to a client in which everything waits**, although an unpaused
    transfer is incomplete. -/
theorem Bounded.stalls_iff (h : Bounded c) (hconfigured : Configured opts c) (hopts : opts.PositiveWhole)
    (hwaits : Waits c) : Wants c ∧ (c.budgeted.grants c.reserved).1 = [] ↔ c.budgeted.HeldBack := by
  have hentry {id : ℤ} {e : Entry} (he : c.scheduler.rpcs.get? id = some e) (hpaused : e.paused = false) :
      ∃ t asm, c.objects.get? id = some t ∧ t.live = true ∧ t.headers.isSome ∧ t.asm = some asm ∧ t.paused = false ∧
        e.size = asm.size ∧ e.received = asm.received ∧ e.received = e.granted := by
    cases ht : c.objects.get? id with
    | none =>
      rw [h.inv.known id ht] at he
      cases he
    | some t =>
      obtain ⟨hlive, hheaders, asm, hasm, hrest⟩ := h.arrived hwaits ht he hpaused
      exact ⟨t, asm, rfl, hlive, hheaders, hasm, hrest⟩
  have hbudget : 0 < c.budgeted.budget := by
    refine hopts.floor_pos.trans_le ?_
    rw [← hconfigured.floor]
    exact hconfigured.ok.floor_le
  have hincrement : 0 < c.budgeted.minIncrement := by
    show 0 < c.scheduler.minIncrement
    rw [hconfigured.minIncrement]
    exact hopts.pos (by simp) (by norm_num [defaultMinIncrement])
  rw [h.reserved_eq hwaits, SrptScheduler.heldBack_iff hbudget hincrement (h.outstanding_eq hwaits) fun x hx => ?_]
  · refine and_congr_left fun _ => ⟨?_, fun hne => ?_⟩
    · -- an incomplete transfer is a candidate
      rintro ⟨⟨id, t⟩, hmem, hlive, hpaused, hincomplete⟩
      have ht := OrderedMap.get?_eq_some_iff.mpr hmem
      have htied := (h.inv.transfer id t ht).2
      cases he : c.scheduler.rpcs.get? id with
      | none =>
        have hwaiting := hwaits (id, t) hmem hlive
        have hunpaused : t.stream.any StreamState.paused = false := hpaused
        rw [he] at htied
        cases htied with
        | unscheduled hnone =>
          have hasm := hnone.resolve_left (by rw [hlive]; exact Bool.noConfusion)
          simp only [Transfer.waiting, hunpaused, hasm, Option.any_none, Bool.and_false, Bool.or_false] at hwaiting
          cases hwaiting
      | some e =>
        rw [he] at htied
        cases htied with
        | @scheduled _ asm _ hasm size received paused granted =>
          obtain ⟨-, hheaders, -, -, -, -, -, harrived⟩ := h.arrived hwaits ht he (paused.trans hpaused)
          refine List.ne_nil_of_mem (a := (id, e)) (SrptScheduler.mem_candidates.mpr ⟨he, ?_, paused.trans hpaused⟩)
          refine lt_of_le_of_ne granted fun hall => hincomplete ⟨⟨asm, hasm, ?_⟩, hheaders⟩
          rw [Reassembly.complete, beq_iff_eq]
          rw [harrived, hall, size] at received
          exact_mod_cast received.symm
    · obtain ⟨⟨id, e⟩, hx⟩ := List.exists_mem_of_ne_nil _ hne
      obtain ⟨he, hlt, hpaused⟩ := SrptScheduler.mem_candidates.mp hx
      obtain ⟨t, asm, ht, hlive, -, hasm, hunpaused, hsize, hreceived, harrived⟩ := hentry he hpaused
      refine ⟨(id, t), OrderedMap.get?_eq_some_iff.mp ht, hlive, hunpaused, ?_⟩
      rintro ⟨⟨asm', hasm', hcomplete⟩, -⟩
      obtain rfl := Option.some.inj (hasm.symm.trans hasm')
      rw [Reassembly.complete, beq_iff_eq] at hcomplete
      change e.granted < e.size at hlt
      rw [← harrived, hreceived, hsize, hcomplete] at hlt
      exact absurd hlt (lt_irrefl _)
  · obtain ⟨he, -, hpaused⟩ := SrptScheduler.mem_candidates.mp hx
    obtain ⟨t, asm, -, -, -, -, -, -, -, harrived⟩ := hentry he hpaused
    exact harrived

end Http4Client

end Http4.Client
