import Http4.Client.Encodable
import Http4.Client.InFlight
import Http4.Client.RttSamples

/-!
# Bytes arrive within their grants

`scheduler.ts` counts the bytes in flight as what is granted and has not arrived. That
number is right only if nothing arrives that was not granted. `Bounded` says so of a
client whose DATA packets all end within an offset that it has authorised.

Main results:

* `Bounded.move`: every move on such a packet keeps it.
* `Bounded.step`: so does every step.
-/

namespace Http4.Client

open Http4Client

namespace Reassembly

/-- What `add` does to the frontier. -/
theorem Represents.frontier_le_of_add {s s' : Reassembly} {w : Contents} (h : Represents s w) {offset fresh : ℤ}
    {payload : Bytes} (hadd : s.add offset payload = .ok (fresh, s')) :
    s'.frontier ≤ max s.frontier (offset + payload.length).toNat := by
  obtain ⟨-, -, -, ⟨hpos, -⟩, h'⟩ := h.of_add hadd
  refine h'.frontier.2 fun k hk => ?_
  show k < _
  rw [Contents.dom_put] at hk
  rcases hk with hk | ⟨-, hk⟩
  · exact lt_max_of_lt_left (h.frontier.1 hk)
  · refine lt_max_of_lt_right ?_
    omega

/-- No more bytes have arrived than lie below the frontier. -/
theorem Represents.received_le_frontier {s : Reassembly} {w : Contents} (h : Represents s w) :
    s.received ≤ s.frontier := by
  have hle := Set.ncard_le_ncard h.frontier.1 (Set.finite_Iio s.frontier)
  rw [Set.ncard_eq_toFinset_card' (Set.Iio s.frontier), Set.toFinset_Iio, Nat.card_Iio] at hle
  rw [h.received]
  exact_mod_cast hle

end Reassembly

namespace SrptScheduler

variable {s : SrptScheduler}

theorem granted_modify (id : ℤ) {f : Entry → Entry} (hf : ∀ e, (f e).granted = e.granted) (id' : ℤ) :
    ((s.rpcs.modify id f).get? id').map Entry.granted = s.granted id' := by
  rw [OrderedMap.get?_modify]
  split_ifs with heq
  · rw [heq, Option.map_map]
    exact congrArg (Option.map · _) (funext hf)
  · rfl

/-- `grants` takes no grant back. -/
theorem granted_le_grants (s : SrptScheduler) (reserved : ℚ) (id : ℤ) :
    (s.granted id).getD 0 ≤ ((s.grants reserved).2.granted id).getD 0 := by
  by_cases hid : id ∈ (s.grants reserved).1.map GrantDecision.rpcId
  · obtain ⟨d, hd, rfl⟩ := List.mem_map.mp hid
    obtain ⟨e, he, -, hlt, -⟩ := exists_of_mem_grants hd
    rw [granted, granted, get?_grants_of_mem hd he, he]
    exact hlt.le
  · rw [granted, granted, get?_grants_of_notMem hid]

end SrptScheduler

/-- A transfer whose size is not known has no entry. -/
theorem Inv.get?_of_asm_none {c : Http4Client} {id : ℤ} (h : Inv c) {t : Transfer} (ht : c.objects.get? id = some t) (hasm : t.asm = none) :
    c.scheduler.rpcs.get? id = none := by
  have htied := (h.transfer id t ht).2
  generalize c.scheduler.rpcs.get? id = o at htied
  cases htied with
  | unscheduled => rfl
  | scheduled _ hasm' => rw [hasm] at hasm'; cases hasm'

/-- The entry of a transfer has its size. -/
theorem Inv.size_of_get? {c : Http4Client} {id : ℤ} (h : Inv c) {t : Transfer} {asm : Reassembly} {e : Entry}
    (ht : c.objects.get? id = some t) (hasm : t.asm = some asm) (he : c.scheduler.rpcs.get? id = some e) :
    e.size = asm.size ∧ e.received = asm.received ∧ e.granted ≤ e.size := by
  have htied := (h.transfer id t ht).2
  rw [he] at htied
  cases htied with
  | scheduled _ hasm' size received paused granted =>
    obtain rfl := Option.some.inj (hasm.symm.trans hasm')
    exact ⟨size, received, granted⟩

namespace Http4Client

variable {inc : Option Wire.Ts.Packet} {c c' : Http4Client} {id : ℤ}

/-! ## What has been authorised -/

/-- The offset up to which the client has authorised bytes of a transfer. -/
def allowance (c : Http4Client) (id : ℤ) (t : Transfer) : ℚ := max t.initialGrant ((c.scheduler.granted id).getD 0)

/-- The packet handled brings bytes that a packet handed over had authorised. -/
def Authorised (c : Http4Client) (inc : Option Wire.Ts.Packet) : Prop :=
  ∀ d, Carried inc d → ∃ p ∈ c.handed, ∃ g, p.authority d.rpcId = some g ∧ ((d.offset + d.payload.length : ℤ) : ℚ) ≤ g

/-- An entry of the scheduler is granted what its REQ was, and all that has arrived. -/
structure Covers (e : Entry) (t : Transfer) : Prop where
  first : min t.initialGrant e.size ≤ e.granted
  frontier : ∀ asm, t.asm = some asm → (asm.frontier : ℚ) ≤ e.granted

/-- Nothing has arrived that was not granted. -/
structure Bounded (c : Http4Client) : Prop where
  inv : Inv c
  nonneg : ∀ id t, c.objects.get? id = some t → 0 ≤ t.initialGrant
  authority : ∀ p ∈ c.handed, ∀ id g, p.authority id = some g →
    ∃ t, c.objects.get? id = some t ∧ (t.live = true → g ≤ c.allowance id t)
  entries : ∀ id t e, c.objects.get? id = some t → c.scheduler.rpcs.get? id = some e → Covers e t

theorem Authorised.move (h : Authorised c inc) (hm : Move inc c c') : Authorised c' inc := by
  intro d hd
  obtain ⟨p, hp, hg⟩ := h d hd
  refine ⟨p, ?_, hg⟩
  cases hm with
  | hand => exact List.mem_append_left _ hp
  | estimate | ticker | budget | arrive | detect | repeats | register | change | pump => exact hp

/-- Bytes that were authorised are granted. -/
theorem Bounded.stop_le (h : Bounded c) {t : Transfer} {asm : Reassembly} {e : Entry} {d : Wire.Ts.Data}
    (ht : c.objects.get? d.rpcId = some t) (hlive : t.live = true) (hasm : t.asm = some asm)
    (he : c.scheduler.rpcs.get? d.rpcId = some e) (hfits : d.offset + d.payload.length ≤ asm.size)
    (hauth : Authorised c inc) (hd : Carried inc d) : ((d.offset + d.payload.length : ℤ) : ℚ) ≤ e.granted := by
  obtain ⟨p, hp, g, hg, hle⟩ := hauth d hd
  obtain ⟨t', ht', hallow⟩ := h.authority p hp d.rpcId g hg
  obtain rfl := Option.some.inj (ht.symm.trans ht')
  have hmax := hle.trans (hallow hlive)
  have hgranted : (c.scheduler.granted d.rpcId).getD 0 = e.granted := by
    rw [SrptScheduler.granted, he]
    rfl
  rw [allowance, hgranted] at hmax
  rcases le_max_iff.mp hmax with hfirst | hlater
  · refine le_trans (le_min hfirst ?_) (h.entries d.rpcId t e ht he).first
    rw [(h.inv.size_of_get? ht hasm he).1]
    exact_mod_cast hfits
  · exact hlater

/-! ## Moves -/

/-- What a change leaves of the entry and of what was authorised. -/
theorem Bounded.change (hdec : Decoded inc) (h : Bounded c) (hauth : Authorised c inc) {t t' : Transfer} {s : SrptScheduler}
    (ht : c.objects.get? id = some t) (hchange : Change inc c id t t' s) :
    (t'.live = true → t.live = true ∧ c.allowance id t ≤ max t'.initialGrant ((s.granted id).getD 0)) ∧
      ∀ e, s.rpcs.get? id = some e → Covers e t' := by
  have hmodify (f : Entry → Entry) : (c.scheduler.rpcs.modify id f).get? id = (c.scheduler.rpcs.get? id).map f :=
    (OrderedMap.get?_modify _ _ _ _).trans (if_pos rfl)
  have hpaused (st : StreamState) (b : Bool) :
      (t.live = true → t.live = true ∧ c.allowance id t ≤
        max t.initialGrant (((c.scheduler.setPaused id b).granted id).getD 0)) ∧
      ∀ e, (c.scheduler.setPaused id b).rpcs.get? id = some e → Covers e { t with stream := some st } := by
    refine ⟨fun hlive => ⟨hlive, ?_⟩, fun e he => ?_⟩
    · have hsame : (c.scheduler.setPaused id b).granted id = c.scheduler.granted id :=
        SrptScheduler.granted_modify id (f := fun e => { e with paused := b }) (fun _ => rfl) id
      rw [hsame]
      exact le_rfl
    · obtain ⟨e₀, he₀, rfl⟩ := Option.map_eq_some_iff.mp ((hmodify _).symm.trans he)
      obtain ⟨hfirst, hfrontier⟩ := h.entries id t e₀ ht he₀
      exact ⟨hfirst, hfrontier⟩
  cases hchange with
  | progress | headers | claim | stream | settle =>
    refine ⟨fun hlive => ⟨hlive, le_rfl⟩, fun e he => ?_⟩
    obtain ⟨hfirst, hfrontier⟩ := h.entries id t e ht he
    exact ⟨hfirst, hfrontier⟩
  | learn d hinc hid hlive hasm =>
    have hnone := h.inv.get?_of_asm_none ht hasm
    refine ⟨fun _ => ⟨hlive, ?_⟩, fun e he => ?_⟩
    · rw [allowance, SrptScheduler.granted, hnone]
      show max t.initialGrant 0 ≤ _
      rw [max_eq_left (h.nonneg id t ht)]
      exact le_max_left _ _
    · change (c.scheduler.rpcs.set id _).get? id = some e at he
      rw [OrderedMap.get?_set, if_pos rfl] at he
      obtain rfl := Option.some.inj he
      refine ⟨le_rfl, fun asm hasm' => ?_⟩
      obtain rfl := Option.some.inj hasm'
      show ((0 : ℕ) : ℚ) ≤ min t.initialGrant d.totalSize
      rw [Nat.cast_zero]
      exact le_min (h.nonneg id t ht) (Int.cast_nonneg (hdec.data hinc).1)
  | store d asm asm' fresh hinc hid hlive hasm hsize hadd =>
    refine ⟨fun _ => ⟨hlive, ?_⟩, fun e he => ?_⟩
    · have hsame : (c.scheduler.onData id fresh).granted id = c.scheduler.granted id :=
        SrptScheduler.granted_modify id (f := fun e => { e with received := e.received + fresh }) (fun _ => rfl) id
      rw [hsame]
      exact le_rfl
    · obtain ⟨e₀, he₀, rfl⟩ := Option.map_eq_some_iff.mp ((hmodify _).symm.trans he)
      obtain ⟨hfirst, hfrontier⟩ := h.entries id t e₀ ht he₀
      refine ⟨hfirst, fun asm₁ hasm₁ => ?_⟩
      obtain rfl := Option.some.inj hasm₁
      subst hid
      obtain ⟨-, w, hrep⟩ := (h.inv.transfer d.rpcId t ht).1.represents asm hasm
      obtain ⟨-, -, -, ⟨hpos, hfits⟩, -⟩ := hrep.of_add hadd
      have hstop := h.stop_le ht hlive hasm he₀ hfits hauth hinc
      have hgranted : (0 : ℚ) ≤ e₀.granted := le_trans (Nat.cast_nonneg _) (hfrontier asm hasm)
      have hle : (asm'.frontier : ℚ) ≤ max (asm.frontier : ℚ) ((d.offset + d.payload.length).toNat : ℕ) := by
        exact_mod_cast hrep.frontier_le_of_add hadd
      refine hle.trans (max_le (hfrontier asm hasm) ?_)
      show ((d.offset + d.payload.length).toNat : ℚ) ≤ e₀.granted
      have hcast : (((d.offset + d.payload.length).toNat : ℕ) : ℤ) = d.offset + d.payload.length :=
        Int.toNat_of_nonneg (by omega)
      rw [← Int.cast_natCast, hcast]
      exact hstop
  | pause asm st hasm hst => exact hpaused { st with paused := true } true
  | unpause st hst => exact hpaused { st with paused := false } false
  | remove =>
    refine ⟨fun hlive => absurd hlive (by simp), fun e he => ?_⟩
    change (c.scheduler.rpcs.delete id).get? id = some e at he
    rw [OrderedMap.get?_delete, if_pos rfl] at he
    cases he

/-- What may be handed over authorises what the allowance has. -/
theorem Bounded.le_allowance (h : Bounded c) {p : Outgoing} (hp : Allowed c p) {g : ℚ} (hg : p.authority id = some g) :
    ∃ t, c.objects.get? id = some t ∧ g ≤ c.allowance id t := by
  cases hp with
  | hello | resend | resendSeq => cases hg
  | @req id' t ht =>
    rw [Outgoing.authority] at hg
    split_ifs at hg with heq
    subst heq
    exact ⟨t, ht, Option.some.inj hg ▸ le_max_left _ _⟩
  | @grant id' g' priority hg' hknown =>
    rw [Outgoing.authority] at hg
    split_ifs at hg with heq
    subst heq
    obtain ⟨t, ht⟩ : ∃ t, c.objects.get? id' = some t := by
      rcases hknown with hknown | hknown
      · by_contra hnone
        rw [SrptScheduler.granted, h.inv.known id' (Option.eq_none_iff_forall_ne_some.mpr fun t ht =>
          hnone ⟨t, ht⟩)] at hknown
        cases hknown
      · exact Option.isSome_iff_exists.mp hknown
    refine ⟨t, ht, ?_⟩
    rw [← Option.some.inj hg, ← hg']
    exact le_max_right _ _

/-- A new transfer. -/
theorem Bounded.register (h : Bounded c) {t' : Transfer} (hfresh : c.objects.get? id = none)
    (hnonneg : 0 ≤ t'.initialGrant) (hinv : Inv { c with objects := c.objects.set id t' }) :
    Bounded { c with objects := c.objects.set id t' } := by
  have hget (id' : ℤ) {t : Transfer} (ht : c.objects.get? id' = some t) : (c.objects.set id t').get? id' = some t := by
    have hne : id' ≠ id := fun heq => by rw [heq, hfresh] at ht; cases ht
    rw [OrderedMap.get?_set, if_neg hne, ht]
  refine ⟨hinv, fun id' t ht => ?_, fun p hp id' g hg => ?_, fun id' t e ht he => ?_⟩
  · change (c.objects.set id t').get? id' = _ at ht
    rw [OrderedMap.get?_set] at ht
    split_ifs at ht
    · exact Option.some.inj ht ▸ hnonneg
    · exact h.nonneg id' t ht
  · obtain ⟨t, ht, hle⟩ := h.authority p hp id' g hg
    exact ⟨t, hget id' ht, hle⟩
  · change c.scheduler.rpcs.get? id' = some e at he
    cases ht₀ : c.objects.get? id' with
    | none =>
      rw [h.inv.known id' ht₀] at he
      cases he
    | some t₀ =>
      obtain rfl := Option.some.inj (ht.symm.trans (hget id' ht₀))
      exact h.entries id' t e ht₀ he

/-- A change to one transfer. -/
theorem Bounded.put (hdec : Decoded inc) (h : Bounded c) (hauth : Authorised c inc) {t t' : Transfer} {s : SrptScheduler}
    (ht : c.objects.get? id = some t) (hchange : Change inc c id t t' s)
    (hinv : Inv { c.setTransfer id fun _ => t' with scheduler := s }) :
    Bounded { c.setTransfer id fun _ => t' with scheduler := s } := by
  obtain ⟨hallow, hentries⟩ := h.change hdec hauth ht hchange
  have hget (id' : ℤ) : (c.objects.modify id fun _ => t').get? id' =
      if id' = id then some t' else c.objects.get? id' := by
    rw [OrderedMap.get?_modify]
    split_ifs with heq
    · rw [heq, ht]
      rfl
    · rfl
  refine ⟨hinv, fun id' u hu => ?_, fun p hp id' g hg => ?_, fun id' u e hu he => ?_⟩
  · change (c.objects.modify id _).get? id' = _ at hu
    rw [hget] at hu
    split_ifs at hu
    · obtain rfl := Option.some.inj hu
      rw [Http4Client.Change.initialGrant hchange]
      exact h.nonneg id t ht
    · exact h.nonneg id' u hu
  · obtain ⟨u, hu, hle⟩ := h.authority p hp id' g hg
    by_cases heq : id' = id
    · subst heq
      obtain rfl := Option.some.inj (ht.symm.trans hu)
      refine ⟨t', (hget id').trans (if_pos rfl), fun hlive => ?_⟩
      obtain ⟨hlive', hmax⟩ := hallow hlive
      exact (hle hlive').trans hmax
    · refine ⟨u, (hget id').trans ((if_neg heq).trans hu), fun hlive => ?_⟩
      show g ≤ max u.initialGrant (((s.rpcs.get? id').map Entry.granted).getD 0)
      rw [hchange.get?_of_ne heq]
      exact hle hlive
  · change (c.objects.modify id _).get? id' = _ at hu
    rw [hget] at hu
    split_ifs at hu with heq
    · subst heq
      obtain rfl := Option.some.inj hu
      exact hentries e he
    · change s.rpcs.get? id' = some e at he
      rw [hchange.get?_of_ne heq] at he
      exact h.entries id' u e hu he

/-- Grants only grow. -/
theorem Bounded.pump (h : Bounded c)
    (hinv : Inv { c with scheduler := ((c.scheduler.setBudget c.budget.budget).grants c.reserved).2 }) :
    Bounded { c with scheduler := ((c.scheduler.setBudget c.budget.budget).grants c.reserved).2 } := by
  refine ⟨hinv, h.nonneg, fun p hp id g hg => ?_, fun id t e ht he => ?_⟩
  · obtain ⟨t, ht, hle⟩ := h.authority p hp id g hg
    refine ⟨t, ht, fun hlive => (hle hlive).trans (max_le_max le_rfl ?_)⟩
    exact (c.scheduler.setBudget c.budget.budget).granted_le_grants c.reserved id
  · obtain ⟨e₀, he₀, heq⟩ := SrptScheduler.exists_of_get?_grants he
    have hle := (c.scheduler.setBudget c.budget.budget).granted_le_grants c.reserved id
    rw [SrptScheduler.granted, SrptScheduler.granted, he₀, show _ = some e from he] at hle
    change e₀.granted ≤ e.granted at hle
    obtain ⟨hfirst, hfrontier⟩ := h.entries id t e₀ ht he₀
    have hsize : e.size = e₀.size := by rw [heq]
    exact ⟨hsize ▸ hfirst.trans hle, fun asm hasm => (hfrontier asm hasm).trans hle⟩

/-- **Every move on authorised bytes keeps the bound.** -/
theorem Bounded.move (hdec : Decoded inc) (h : Bounded c) (hauth : Authorised c inc) (hm : Move inc c c') :
    Bounded c' := by
  have hinv := h.inv.move hdec hm
  cases hm with
  | estimate | ticker | budget | arrive | detect | repeats =>
    exact ⟨hinv, h.nonneg, h.authority, h.entries⟩
  | hand p hp =>
    refine ⟨hinv, h.nonneg, List.forall_mem_append.mpr ⟨h.authority, ?_⟩, h.entries⟩
    rw [List.forall_mem_singleton]
    intro id g hg
    obtain ⟨t, ht, hle⟩ := h.le_allowance hp hg
    exact ⟨t, ht, fun _ => hle⟩
  | register id assetId cls stream progress hfresh hopen hencode hstream =>
    refine h.register hfresh ?_ hinv
    obtain ⟨-, n, -, hn⟩ := Outgoing.range_of_req hencode
    show 0 ≤ c.nextInitialGrant
    rw [← hn]
    exact Nat.cast_nonneg n
  | change id t t' s ht hchange => exact h.put hdec hauth ht hchange hinv
  | pump => exact h.pump hinv

/-! ## Steps -/

theorem Bounded.flag (h : Bounded c) (hf : Flag c c') : Bounded c' := by
  have hinv := h.inv.flag hf
  cases hf with
  | stopReading | close | endSession => exact ⟨hinv, h.nonneg, h.authority, h.entries⟩

theorem Authorised.flag (h : Authorised c inc) (hf : Flag c c') : Authorised c' inc := by
  cases hf with
  | stopReading | close | endSession => exact h

theorem authorised_none : Authorised c none := by
  rintro d (hd | ⟨s, hs, -⟩)
  · cases hd
  · cases hs

/-- **A step on authorised bytes keeps the bound.** -/
theorem Bounded.step {a : Step} (h : Bounded c) (hauth : Authorised c a.event.packet) (hstep : c.step a = some c') :
    Bounded c' := by
  let P (c : Http4Client) : Prop := Bounded c ∧ Authorised c a.event.packet
  have hP : P c' := by
    refine Walk.preserves (P := P) (fun s s' ⟨hs, hauth⟩ hm => ?_) (fun s s' ⟨hs, hauth⟩ hf => ?_)
      (step_walk hstep) ⟨h, hauth⟩
    · exact ⟨hs.move a.event.decoded_packet hauth hm, hauth.move hm⟩
    · exact ⟨hs.flag hf, hauth.flag hf⟩
  exact hP.1

theorem bounded_connect (opts : ClientOptions) (maxDatagramSize : ℕ) : Bounded (connect opts maxDatagramSize) := by
  refine Reaches.preserves (P := Bounded) (fun s s' hs hm => ?_) (connect_reaches opts maxDatagramSize) ?_
  · refine hs.move (fun p hp => ?_) authorised_none hm
    cases hp
  · refine ⟨inv_new opts maxDatagramSize, ?_, ?_, ?_⟩
    · intro id t ht
      cases ht
    · intro p hp
      cases hp
    · intro id t e ht
      cases ht

end Http4Client

end Http4.Client
