import Http4.Client.Code

/-!
# The invariant of the client

`Inv` ties the objects of the transfers to the scheduler: an entry is there for
exactly the transfers that are live and whose size is known, with the size, the
bytes received and the paused flag of the transfer.

Main results:

* `Inv.move`: every move keeps it.
* `inv_reachable`: it holds in every state of every run.
-/

namespace Http4.Client

open Http4Client

/-! ## Reassembly and scheduler -/

namespace Reassembly

theorem received_of_add {s s' : Reassembly} {offset fresh : ℤ} {payload : Bytes}
    (hadd : s.add offset payload = .ok (fresh, s')) : s'.received = s.received + fresh := by
  rw [Reassembly.add] at hadd
  split_ifs at hadd
  · cases hadd
    exact (add_zero _).symm
  · cases hadd
    rfl

/-- What `add` changes when it returns. -/
theorem Represents.of_add {s s' : Reassembly} {w : Contents} (h : Represents s w) {offset fresh : ℤ}
    {payload : Bytes} (hadd : s.add offset payload = .ok (fresh, s')) :
    0 ≤ fresh ∧ s'.size = s.size ∧ s'.received = s.received + fresh ∧
      Contents.Fits s.size offset payload ∧ Represents s' (w.put offset.toNat payload) := by
  by_cases hfits : Contents.Fits s.size offset payload
  · obtain ⟨s₁, hs₁, hsize, hrep⟩ := h.add hfits
    have heq := Except.ok.inj (hadd.symm.trans hs₁)
    rw [Prod.mk.injEq] at heq
    obtain ⟨rfl, rfl⟩ := heq
    exact ⟨Int.natCast_nonneg _, hsize, received_of_add hadd, hfits, hrep⟩
  · rw [add_eq_error hfits] at hadd
    cases hadd

end Reassembly

/-- `t.stream?.paused === true`. -/
def Transfer.paused (t : Transfer) : Bool := t.stream.any StreamState.paused

/-- What a change to one transfer leaves of the scheduler. -/
theorem Http4Client.Change.get?_of_ne {inc : Option Wire.Ts.Packet} {c : Http4Client} {id id' : ℤ}
    {t t' : Transfer} {s : SrptScheduler} (h : Change inc c id t t' s) (hne : id' ≠ id) :
    s.rpcs.get? id' = c.scheduler.rpcs.get? id' := by
  cases h with
  | progress | headers | claim | stream | settle => rfl
  | learn => exact (OrderedMap.get?_set _ _ _ _).trans (if_neg hne)
  | store | pause | unpause => exact (OrderedMap.get?_modify _ _ _ _).trans (if_neg hne)
  | remove => exact (OrderedMap.get?_delete _ _ _).trans (if_neg hne)

/-! ## The invariant -/

/-- A transfer and its entry in the scheduler. -/
inductive Tied (t : Transfer) : Option Entry → Prop
  | unscheduled (h : t.live = false ∨ t.asm = none) : Tied t none
  | scheduled {e : Entry} {asm : Reassembly} (hlive : t.live = true) (hasm : t.asm = some asm)
      (size : e.size = asm.size) (received : e.received = asm.received) (paused : e.paused = t.paused)
      (granted : e.granted ≤ e.size) : Tied t (some e)

/-- What holds of one transfer. -/
structure TransferOk (t : Transfer) : Prop where
  represents : ∀ asm, t.asm = some asm → asm.size < 2 ^ 32 ∧ ∃ w, Reassembly.Represents asm w
  repair : t.repair.isSome = t.asm.isSome
  paused : t.paused = true → t.asm.isSome

/-- The invariant. -/
structure Inv (c : Http4Client) : Prop where
  transfer : ∀ id t, c.objects.get? id = some t → TransferOk t ∧ Tied t (c.scheduler.rpcs.get? id)
  known : ∀ id, c.objects.get? id = none → c.scheduler.rpcs.get? id = none
  budget_le : c.budget.budget ≤ c.peak

section Move

variable {inc : Option Wire.Ts.Packet} {c c' : Http4Client}

theorem Tied.congr {t t' : Transfer} {o : Option Entry} (h : Tied t o) (hlive : t'.live = t.live)
    (hasm : t'.asm = t.asm) (hpaused : t'.paused = t.paused) : Tied t' o := by
  cases h with
  | unscheduled h => exact .unscheduled (by rw [hlive, hasm]; exact h)
  | scheduled hlive' hasm' size received paused granted =>
    exact .scheduled (hlive.trans hlive') (hasm.trans hasm') size received (paused.trans hpaused.symm) granted

/-- Setting the flag on both sides. -/
theorem Tied.setPaused {t : Transfer} {o : Option Entry} (h : Tied t o) {st : StreamState} (b : Bool) :
    Tied { t with stream := some { st with paused := b } } (o.map fun e => { e with paused := b }) := by
  cases h with
  | unscheduled h => exact .unscheduled h
  | scheduled hlive hasm size received _ granted => exact .scheduled hlive hasm size received rfl granted

theorem Http4Client.StreamChange.paused {t : Transfer} {st st' : StreamState} (h : StreamChange c t st st') :
    st'.paused = st.paused := by
  cases h with
  | body h => exact h.paused
  | pullFailed | pullRejected | enqueue | skip | close | error | drop | cancel => rfl

theorem Inv.change (hdec : Decoded inc) {id : ℤ} {t t' : Transfer} {s : SrptScheduler}
    (h : Change inc c id t t' s) (hok : TransferOk t) (htied : Tied t (c.scheduler.rpcs.get? id)) :
    TransferOk t' ∧ Tied t' (s.rpcs.get? id) := by
  have hmodify (f : Entry → Entry) :
      (c.scheduler.rpcs.modify id f).get? id = (c.scheduler.rpcs.get? id).map f :=
    (OrderedMap.get?_modify _ _ _ _).trans (if_pos rfl)
  cases h with
  | progress | headers | settle =>
    exact ⟨⟨hok.represents, hok.repair, hok.paused⟩, htied.congr rfl rfl rfl⟩
  | claim asm repair before gaps now delayMs hasm hrepair =>
    refine ⟨⟨hok.represents, ?_, hok.paused⟩, htied.congr rfl rfl rfl⟩
    change true = t.asm.isSome
    rw [hasm]
    rfl
  | learn d hinc _ hlive hasm =>
    obtain ⟨h0, hlt, -⟩ := hdec.data hinc
    refine ⟨⟨fun asm h => ?_, rfl, fun _ => rfl⟩, ?_⟩
    · obtain rfl := Option.some.inj h
      refine ⟨?_, _, Reassembly.represents_new _⟩
      change d.totalSize.toNat < 2 ^ 32
      omega
    · change Tied _ ((c.scheduler.rpcs.set id _).get? id)
      rw [OrderedMap.get?_set, if_pos rfl]
      have hpaused : t.paused = false := by
        by_contra hp
        have := hok.paused (Bool.eq_true_of_not_eq_false hp)
        rw [hasm] at this
        cases this
      refine .scheduled hlive rfl ?_ rfl hpaused.symm (min_le_right _ _)
      change (d.totalSize : ℚ) = ((d.totalSize.toNat : ℕ) : ℚ)
      rw [← Int.cast_natCast, Int.toNat_of_nonneg h0]
  | store d asm asm' fresh _ _ hlive hasm _ hadd =>
    obtain ⟨hsize, w, hrep⟩ := hok.represents asm hasm
    obtain ⟨-, hsize', hreceived, -, hrep'⟩ := hrep.of_add hadd
    refine ⟨⟨fun a h => ?_, ?_, fun _ => rfl⟩, ?_⟩
    · obtain rfl := Option.some.inj h
      exact ⟨hsize' ▸ hsize, _, hrep'⟩
    · rw [hok.repair, hasm]
      rfl
    · change Tied _ ((c.scheduler.rpcs.modify id _).get? id)
      rw [hmodify]
      generalize c.scheduler.rpcs.get? id = o at htied
      cases htied with
      | unscheduled h =>
        rw [hlive, hasm] at h
        rcases h with h | h <;> cases h
      | scheduled _ hasm₁ size received paused granted =>
        obtain rfl := Option.some.inj (hasm.symm.trans hasm₁)
        refine .scheduled hlive rfl (size.trans (by rw [hsize'])) ?_ paused granted
        change _ + (fresh : ℚ) = _
        rw [received, hreceived]
        push_cast
        rfl
  | stream st st' hst h =>
    have hpaused : ({ t with stream := some st' } : Transfer).paused = t.paused := by
      rw [Transfer.paused, Transfer.paused, hst]
      exact h.paused
    refine ⟨⟨hok.represents, hok.repair, fun h => hok.paused (hpaused ▸ h)⟩, htied.congr rfl rfl hpaused⟩
  | pause asm st hasm hst =>
    refine ⟨⟨hok.represents, hok.repair, fun _ => ?_⟩, ?_⟩
    · change t.asm.isSome
      rw [hasm]
      rfl
    · change Tied _ ((c.scheduler.rpcs.modify id _).get? id)
      rw [hmodify]
      exact htied.setPaused true
  | unpause st hst =>
    refine ⟨⟨hok.represents, hok.repair, fun h => by cases h⟩, ?_⟩
    change Tied _ ((c.scheduler.rpcs.modify id _).get? id)
    rw [hmodify]
    exact htied.setPaused false
  | remove =>
    refine ⟨⟨hok.represents, hok.repair, hok.paused⟩, ?_⟩
    change Tied _ ((c.scheduler.rpcs.delete id).get? id)
    rw [OrderedMap.get?_delete, if_pos rfl]
    exact .unscheduled (.inl rfl)

/-- A call of `grants` keeps every entry but what is granted, up to its size. -/
theorem Tied.grants {t : Transfer} {id : ℤ} {s : SrptScheduler} {reserved : ℚ}
    (h : Tied t (s.rpcs.get? id)) : Tied t ((s.grants reserved).2.rpcs.get? id) := by
  by_cases hid : id ∈ (s.grants reserved).1.map GrantDecision.rpcId
  · obtain ⟨d, hd, rfl⟩ := List.mem_map.mp hid
    obtain ⟨e, he, -, -, hle⟩ := SrptScheduler.exists_of_mem_grants hd
    rw [SrptScheduler.get?_grants_of_mem hd he]
    rw [he] at h
    cases h with
    | scheduled hlive hasm size received paused granted => exact .scheduled hlive hasm size received paused hle
  · rwa [SrptScheduler.get?_grants_of_notMem hid]

theorem Inv.move (hdec : Decoded inc) (h : Inv c) (hm : Move inc c c') : Inv c' := by
  cases hm with
  | estimate | ticker | hand | arrive | detect | repeats => exact ⟨h.transfer, h.known, h.budget_le⟩
  | budget b => exact ⟨h.transfer, h.known, le_max_right _ _⟩
  | register id assetId cls stream progress hfresh _ _ hstream =>
    refine ⟨fun id' t ht => ?_, fun id' hnone => ?_, h.budget_le⟩
    · change (c.objects.set id _).get? id' = _ at ht
      rw [OrderedMap.get?_set] at ht
      split_ifs at ht with heq
      · obtain rfl := Option.some.inj ht
        refine ⟨⟨fun asm h => absurd h (by simp), rfl, fun hp => ?_⟩, ?_⟩
        · obtain ⟨st, hst, hp⟩ := (Option.any_eq_true _ _).mp hp
          obtain ⟨m, rfl⟩ := hstream st hst
          cases hp
        · rw [heq]
          change Tied _ (c.scheduler.rpcs.get? id)
          rw [h.known id hfresh]
          exact .unscheduled (.inr rfl)
      · exact h.transfer id' t ht
    · change (c.objects.set id _).get? id' = _ at hnone
      rw [OrderedMap.get?_set] at hnone
      split_ifs at hnone
      exact h.known id' hnone
  | change id t t' s ht hchange =>
    have hget (id' : ℤ) : (c.objects.modify id fun _ => t').get? id' =
        if id' = id then some t' else c.objects.get? id' := by
      rw [OrderedMap.get?_modify]
      split_ifs with heq
      · rw [heq, ht]
        rfl
      · rfl
    refine ⟨fun id' u hu => ?_, fun id' hnone => ?_, h.budget_le⟩
    · change (c.objects.modify id _).get? id' = _ at hu
      rw [hget] at hu
      split_ifs at hu with heq
      · obtain rfl := Option.some.inj hu
        rw [heq]
        exact Inv.change hdec hchange (h.transfer id t ht).1 (h.transfer id t ht).2
      · change TransferOk u ∧ Tied u (s.rpcs.get? id')
        rw [hchange.get?_of_ne heq]
        exact h.transfer id' u hu
    · change (c.objects.modify id _).get? id' = _ at hnone
      rw [hget] at hnone
      split_ifs at hnone with heq
      change s.rpcs.get? id' = none
      rw [hchange.get?_of_ne heq]
      exact h.known id' hnone
  | pump =>
    refine ⟨fun id t ht => ⟨(h.transfer id t ht).1, Tied.grants (h.transfer id t ht).2⟩, fun id hnone => ?_,
      h.budget_le⟩
    have hold := h.known id hnone
    cases hnew : ((c.scheduler.setBudget c.budget.budget).grants c.reserved).2.rpcs.get? id with
    | none => rfl
    | some e =>
      obtain ⟨e', he', -⟩ := SrptScheduler.exists_of_get?_grants hnew
      exact absurd (hold.symm.trans he') (by simp)

theorem Inv.flag (h : Inv c) (hf : Flag c c') : Inv c' := by
  cases hf with
  | stopReading | close | endSession => exact ⟨h.transfer, h.known, h.budget_le⟩

theorem inv_new (opts : ClientOptions) (maxDatagramSize : ℕ) : Inv (.new opts maxDatagramSize) :=
  ⟨fun _ _ h => absurd h (by simp [Http4Client.new]), fun _ _ => rfl, le_rfl⟩

/-- **The invariant holds in every state of every run.** -/
theorem inv_reachable {opts : ClientOptions} {maxDatagramSize : ℕ}
    (h : Machine.Reachable Http4Client.step (connect opts maxDatagramSize) c) : Inv c :=
  invariant_of_moves (inv_new opts maxDatagramSize) (fun _ _ _ hdec => Inv.move hdec) (fun _ _ => Inv.flag) h

end Move

end Http4.Client
