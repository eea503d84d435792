import Http4.Client.Invariant

/-!
# What the client sends can be encoded

A packet is rejected by `encode` if a number of it is not an integer in range. The
settings of a page need not be integers, so that a budget, and with it a grant, need
not be one, and neither a limit below which early detection looks for gaps.

Main results:

* `Sound.move`: what every move keeps, if the settings are whole where it matters.
* `handed_encodable`: then every packet handed to `send` is one that `encode` accepts.
* `half_budget_grants_half`: with a budget of half a byte a GRANT is not.
-/

namespace Http4.Client

open Routine Http4Client
open Wire.Ts (JsString)

/-! ## Whole numbers -/

/-- The integers among the numbers of JavaScript. -/
def whole : AddSubgroup ℚ := (Int.castAddHom ℚ).range

theorem mem_whole {q : ℚ} : q ∈ whole ↔ ∃ n : ℤ, (n : ℚ) = q := Iff.rfl

theorem intCast_mem_whole (n : ℤ) : (n : ℚ) ∈ whole := ⟨n, rfl⟩

theorem natCast_mem_whole (n : ℕ) : (n : ℚ) ∈ whole := ⟨n, Int.cast_natCast n⟩

theorem max_mem_whole {a b : ℚ} (ha : a ∈ whole) (hb : b ∈ whole) : max a b ∈ whole := by
  rcases max_choice a b with h | h <;> rw [h] <;> assumption

theorem min_mem_whole {a b : ℚ} (ha : a ∈ whole) (hb : b ∈ whole) : min a b ∈ whole := by
  rcases min_choice a b with h | h <;> rw [h] <;> assumption

theorem sum_mem_whole {κ α : Type*} {m : OrderedMap κ α} {w : α → ℚ} (h : ∀ v ∈ m.values, w v ∈ whole) :
    m.sum w ∈ whole :=
  whole.list_sum_mem fun _ hq => by
    obtain ⟨v, hv, rfl⟩ := List.mem_map.mp hq
    exact h v hv

/-- The offsets in an asset of `size` bytes, its end included. -/
def offsets (size : ℕ) : Set ℚ := {x | ∃ n : ℕ, n ≤ size ∧ (n : ℚ) = x}

theorem mem_offsets {size : ℕ} {x : ℚ} (hwhole : x ∈ whole) (hpos : 0 ≤ x) (hle : x ≤ size) : x ∈ offsets size := by
  obtain ⟨n, rfl⟩ := mem_whole.mp hwhole
  have hn : 0 ≤ n := by exact_mod_cast hpos
  refine ⟨n.toNat, ?_, by rw [← Int.cast_natCast, Int.toNat_of_nonneg hn]⟩
  have : n ≤ size := by exact_mod_cast hle
  omega

theorem whole_of_offsets {size : ℕ} {x : ℚ} (h : x ∈ offsets size) : x ∈ whole := by
  obtain ⟨n, -, rfl⟩ := h
  exact natCast_mem_whole n

/-- What `checkU32` accepts. -/
def IsUint32 (q : ℚ) : Prop := ∃ n : ℕ, n < 2 ^ 32 ∧ (n : ℚ) = q

theorem isUint32_of_offsets {size : ℕ} (hsize : size < 2 ^ 32) {x : ℚ} (h : x ∈ offsets size) : IsUint32 x := by
  obtain ⟨n, hle, rfl⟩ := h
  exact ⟨n, hle.trans_lt hsize, rfl⟩

/-! ## Packets -/

namespace Outgoing

/-- The numbers of a packet are in range, and its range is not empty. -/
def InRange : Outgoing → Prop
  | .req _ initialGrant _ => IsUint32 initialGrant
  | .grant _ maxOffset _ => IsUint32 maxOffset
  | .resend _ range => IsUint32 range.start ∧ IsUint32 range.stop ∧ range.start < range.stop
  | .hello _ _ => True
  | .resendSeq _ range => 0 ≤ range.start ∧ range.start < range.stop ∧ range.stop < 2 ^ 32

/-- `encode` accepts the packet. -/
def Encodable (p : Outgoing) : Prop := p.encode.isSome ∧ p.InRange

theorem asInteger_natCast (n : ℕ) : asInteger n = some (n : ℤ) := by
  simp [asInteger]

theorem eq_of_asInteger {q : ℚ} {n : ℤ} (h : asInteger q = some n) : (n : ℚ) = q := by
  rw [asInteger] at h
  split_ifs at h with hden
  rw [← Option.some.inj h]
  exact Rat.coe_int_num_of_den_eq_one hden

/-- A packet with the same field values as a Go packet that is well-formed. -/
theorem isSome_encode {p : Outgoing} {q : Wire.Ts.Packet} {g : Wire.Packet} (hp : p.packet = some q)
    (hsame : Wire.Ts.Same g q) (hwf : g.WellFormed) : p.encode.isSome := by
  have hok := (Wire.Ts.encode_eq_ok_iff hsame).mpr ⟨hwf, rfl⟩
  rw [encode, hp, Option.bind_eq_bind, Option.bind_some, hok]
  rfl

/-- An rpc_id of 64 bits. -/
def IsUint64 (id : ℤ) : Prop := 0 ≤ id ∧ id < 2 ^ 64

theorem toNat_ofNat64 {id : ℤ} (h : IsUint64 id) : ((UInt64.ofNat id.toNat).toNat : ℤ) = id := by
  obtain ⟨hpos, hlt⟩ := h
  rw [UInt64.toNat_ofNat', Nat.mod_eq_of_lt (by omega), Int.toNat_of_nonneg hpos]

theorem encodable_grant {id : ℤ} {g : ℚ} {priority : ℕ} (hid : IsUint64 id) (hg : IsUint32 g)
    (hpriority : priority ≤ 7) : (Outgoing.grant id g priority).Encodable := by
  refine ⟨?_, hg⟩
  obtain ⟨n, hn, rfl⟩ := hg
  have hp : (Outgoing.grant id n priority).packet =
      some (.grant { rpcId := id, maxOffset := n, priority := priority }) := by
    rw [packet, asInteger_natCast]
    rfl
  refine isSome_encode (g := .grant { rpcId := .ofNat id.toNat, maxOffset := .ofNat n, priority := .ofNat priority })
    hp ⟨(toNat_ofNat64 hid).symm, ?_, ?_⟩ trivial
  · rw [UInt32.toNat_ofNat_of_lt' hn]
  · rw [UInt8.toNat_ofNat', Nat.mod_eq_of_lt (by omega)]

theorem encodable_resend {id : ℤ} {r : Range ℚ} (hid : IsUint64 id) (hstart : IsUint32 r.start)
    (hstop : IsUint32 r.stop) (hlt : r.start < r.stop) : (Outgoing.resend id r).Encodable := by
  refine ⟨?_, hstart, hstop, hlt⟩
  obtain ⟨start, stop⟩ := r
  obtain ⟨m, hm, rfl⟩ := hstart
  obtain ⟨n, hn, rfl⟩ := hstop
  have hp : (Outgoing.resend id { start := m, stop := n }).packet =
      some (.resend { rpcId := id, start := m, stop := n }) := by
    rw [packet, asInteger_natCast, asInteger_natCast]
    rfl
  refine isSome_encode (g := .resend { rpcId := .ofNat id.toNat, start := .ofNat m, stop := .ofNat n })
    hp ⟨(toNat_ofNat64 hid).symm, ?_, ?_⟩ ?_
  · rw [UInt32.toNat_ofNat_of_lt' hm]
  · rw [UInt32.toNat_ofNat_of_lt' hn]
  · change UInt32.ofNat m < UInt32.ofNat n
    rw [UInt32.lt_iff_toNat_lt, UInt32.toNat_ofNat_of_lt' hm, UInt32.toNat_ofNat_of_lt' hn]
    exact Nat.cast_lt.mp hlt

theorem encodable_resendSeq {r : Range ℤ} (hpos : 0 ≤ r.start) (hlt : r.start < r.stop)
    (hstop : r.stop < 2 ^ 32) : (Outgoing.resendSeq 0 r).Encodable := by
  refine ⟨?_, hpos, hlt, hstop⟩
  refine isSome_encode
    (g := .resendSeq { rpcId := 0, start := .ofNat r.start.toNat, stop := .ofNat r.stop.toNat })
    rfl ⟨rfl, ?_, ?_⟩ ?_
  · rw [UInt32.toNat_ofNat_of_lt' (by change _ < 2 ^ 32; omega), Int.toNat_of_nonneg hpos]
  · rw [UInt32.toNat_ofNat_of_lt' (by change _ < 2 ^ 32; omega), Int.toNat_of_nonneg (by omega)]
  · change UInt32.ofNat r.start.toNat < UInt32.ofNat r.stop.toNat
    rw [UInt32.lt_iff_toNat_lt, UInt32.toNat_ofNat_of_lt' (by change _ < 2 ^ 32; omega),
      UInt32.toNat_ofNat_of_lt' (by change _ < 2 ^ 32; omega)]
    omega

theorem encodable_hello : (Outgoing.hello 0 1).Encodable := ⟨by decide +kernel, trivial⟩

theorem range_of_checkUint {bits : ℕ} {n : ℤ} (h : Wire.Ts.checkUint bits n = .ok ()) : 0 ≤ n ∧ n < 2 ^ bits := by
  rw [Wire.Ts.checkUint] at h
  split_ifs at h with hout
  · cases h
  · omega

/-- A REQ that is encoded names a 64-bit rpc_id and a 32-bit grant. -/
theorem range_of_req {id : ℤ} {initialGrant : ℚ} {assetId : JsString}
    (h : (Outgoing.req id initialGrant assetId).encode.isSome) : IsUint64 id ∧ IsUint32 initialGrant := by
  obtain ⟨b, hb⟩ := Option.isSome_iff_exists.mp h
  rw [encode, Option.bind_eq_bind, Option.bind_eq_some_iff] at hb
  obtain ⟨q, hq, hb⟩ := hb
  rw [packet, Option.bind_eq_bind, Option.bind_eq_some_iff] at hq
  obtain ⟨n, hn, hq⟩ := hq
  obtain rfl := Option.some.inj hq
  have hok : Wire.Ts.encode (.req { rpcId := id, initialGrant := n, assetId := assetId }) = .ok b := by
    cases hencode : Wire.Ts.encode (.req { rpcId := id, initialGrant := n, assetId := assetId }) with
    | error e => rw [hencode] at hb; cases hb
    | ok b' => rw [hencode] at hb; rw [Option.some.inj hb]
  unfold Wire.Ts.encode at hok
  obtain ⟨hid, hok⟩ := Wire.Ts.check_bind_eq_ok_iff.mp hok
  obtain ⟨hgrant, -⟩ := Wire.Ts.check_bind_eq_ok_iff.mp hok
  obtain ⟨hpos, hlt⟩ : 0 ≤ n ∧ n < 2 ^ 32 := range_of_checkUint hgrant
  refine ⟨range_of_checkUint hid, n.toNat, by omega, ?_⟩
  rw [← Int.cast_natCast, Int.toNat_of_nonneg hpos, eq_of_asInteger hn]

end Outgoing

/-! ## Gaps and RESENDs -/

namespace Reassembly

variable {asm : Reassembly} {w : Contents} (h : Represents asm w)
include h

/-- The gaps below a limit that is an offset, or not positive. -/
theorem Represents.within_gaps {limit : ℚ} (hlimit : limit ≤ 0 ∨ limit ∈ offsets asm.size) :
    ∀ g ∈ asm.gaps limit, Ranges.Within (offsets asm.size) g := by
  rcases hlimit with hneg | ⟨n, hn, rfl⟩
  · have hnil : asm.gaps limit = [] := by
      rw [Reassembly.gaps]
      cases asm.ranges.map castRange with
      | nil => exact if_neg (not_lt.mpr hneg)
      | cons r l => exact if_pos hneg
    simp [hnil]
  · have hmissing := asm.gaps_intCast n
    rw [Int.cast_natCast] at hmissing
    rw [hmissing]
    intro _ hmem
    obtain ⟨g, hg, rfl⟩ := List.mem_map.mp hmem
    obtain ⟨hcanonical, hset⟩ := h.missing n
    have hlt := hcanonical.nonempty g hg
    have hlast : g.stop - 1 ∈ Ranges.toSet (asm.missing n) := ⟨g, hg, Nat.le_sub_one_of_lt hlt, Nat.sub_one_lt_of_lt hlt⟩
    rw [hset] at hlast
    have hstop : ((g.stop - 1 : ℕ) : ℤ) < n := hlast.1
    exact ⟨⟨g.start, by omega, rfl⟩, ⟨g.stop, by omega, rfl⟩, Nat.cast_lt.mpr hlt⟩

theorem Represents.frontier_mem : (asm.frontier : ℚ) ∈ offsets asm.size := ⟨_, h.frontier_le_size, rfl⟩

/-- The limit of early detection. -/
theorem Represents.lossLimit {granted reorderPackets : ℚ} {payloadSeen : ℕ} (hsize : asm.size < 2 ^ 32)
    (hgranted : granted ≤ asm.size) (hpos : 0 ≤ reorderPackets)
    (hreorder : reorderPackets ∈ whole ∨ 2 ^ 32 - 2 ≤ reorderPackets) :
    lossLimit asm granted reorderPackets payloadSeen ≤ 0 ∨
      lossLimit asm granted reorderPackets payloadSeen ∈ offsets asm.size := by
  have hp : (1 : ℚ) ≤ payloadSize payloadSeen := by exact_mod_cast Repairs.payloadSize_pos payloadSeen
  rw [Client.lossLimit]
  split_ifs with hlt
  · rcases le_or_gt ((asm.frontier : ℚ) - reorderPackets * payloadSize payloadSeen) 0 with hneg | hlimit
    · exact .inl hneg
    rcases hreorder with hwhole | hlarge
    · refine .inr (mem_offsets ?_ hlimit.le ?_)
      · refine whole.sub_mem (natCast_mem_whole _) ?_
        rw [mul_comm, ← nsmul_eq_mul]
        exact whole.nsmul_mem hwhole _
      · have := mul_nonneg hpos (zero_le_one.trans hp)
        have : (asm.frontier : ℚ) ≤ asm.size := by exact_mod_cast h.frontier_le_size
        linarith
    · -- the frontier of a transfer that is not fully granted is below 2^32 - 1
      have hfront : asm.frontier < asm.size := by exact_mod_cast hlt.trans_le hgranted
      have hfront' : (asm.frontier : ℚ) ≤ 2 ^ 32 - 2 := by
        have : asm.frontier + 2 ≤ 2 ^ 32 := by omega
        have : ((asm.frontier + 2 : ℕ) : ℚ) ≤ ((2 ^ 32 : ℕ) : ℚ) := by exact_mod_cast this
        push_cast at this
        linarith
      have := le_mul_of_one_le_right hpos hp
      linarith
  · exact .inr h.frontier_mem

end Reassembly

namespace RepairTracker

variable {S : Set ℚ} {repair : RepairTracker}

/-- What is pending after a claim names bounds that were pending or asked about. -/
theorem within_claim (hpending : ∀ p ∈ repair.pending, Ranges.Within S p.range) (asm : Reassembly)
    {gaps : List (Range ℚ)} (hgaps : ∀ g ∈ gaps, Ranges.Within S g) (now delayMs : ℚ) :
    ∀ p ∈ (repair.claim asm gaps now delayMs).2.pending, Ranges.Within S p.range := by
  have hlive : ∀ p ∈ repair.live asm now, Ranges.Within S p.range := fun p hp =>
    hpending p (List.filter_sublist.subset ((Ranges.meeting_sublist _ _ _).subset hp))
  intro p hp
  rcases List.mem_append.mp (List.mem_mergeSort.mp hp) with hp | hp
  · exact hlive p hp
  · obtain ⟨g, hg, rfl⟩ := List.mem_map.mp hp
    refine Ranges.within_subtract hgaps (fun q hq => ?_) g hg
    obtain ⟨p, hp, rfl⟩ := List.mem_map.mp hq
    exact hlive p hp

end RepairTracker

/-- What the callers ask about. -/
theorem within_recoverGaps {asm : Reassembly} {w : Contents} (h : Reassembly.Represents asm w) {granted : ℚ}
    (hgranted : granted ∈ offsets asm.size) (payloadSeen : ℕ) :
    ∀ g ∈ recoverGaps asm granted payloadSeen, Ranges.Within (offsets asm.size) g := by
  have hp : (0 : ℚ) < payloadSize payloadSeen := Nat.cast_pos.mpr (Repairs.payloadSize_pos _)
  have hpwhole := natCast_mem_whole (payloadSize payloadSeen)
  have hgwhole := whole_of_offsets hgranted
  have hfwhole := natCast_mem_whole asm.frontier
  have hgsize : granted ≤ asm.size := by
    obtain ⟨n, hn, rfl⟩ := hgranted
    exact_mod_cast hn
  have hfpos : (0 : ℚ) ≤ asm.frontier := Nat.cast_nonneg _
  have htake : ∀ g ∈ (asm.gaps (min asm.frontier granted)).take maxResendRanges,
      Ranges.Within (offsets asm.size) g := fun g hg => by
    refine h.within_gaps (.inr ?_) g ((List.take_sublist _ _).subset hg)
    rcases min_choice (asm.frontier : ℚ) granted with heq | heq <;> rw [heq]
    · exact h.frontier_mem
    · exact hgranted
  -- the first and the last packet of the tail
  have hfirst (hfront : (asm.frontier : ℚ) < granted) : Ranges.Within (offsets asm.size)
      { start := (asm.frontier : ℚ), stop := min granted (asm.frontier + payloadSize payloadSeen) } := by
    have hlt := lt_min hfront (lt_add_of_pos_right (asm.frontier : ℚ) hp)
    refine ⟨h.frontier_mem, mem_offsets ?_ (hfpos.trans hlt.le) ((min_le_left _ _).trans hgsize), hlt⟩
    exact min_mem_whole hgwhole (whole.add_mem hfwhole hpwhole)
  rw [recoverGaps]
  dsimp only
  split_ifs with hfront hlast
  · refine List.forall_mem_append.mpr ⟨List.forall_mem_append.mpr ⟨htake,
      List.forall_mem_singleton.mpr (hfirst hfront)⟩, List.forall_mem_singleton.mpr ⟨?_, hgranted, hlast⟩⟩
    have hstop := whole_of_offsets (hfirst hfront).stop_mem
    refine mem_offsets (max_mem_whole hstop (whole.sub_mem hgwhole hpwhole)) ?_ (hlast.le.trans hgsize)
    exact hfpos.trans ((hfirst hfront).nonempty.le.trans (le_max_left _ _))
  · exact List.forall_mem_append.mpr ⟨List.forall_mem_append.mpr ⟨htake,
      List.forall_mem_singleton.mpr (hfirst hfront)⟩, by simp⟩
  · exact htake

theorem within_tailRange {asm : Reassembly} {granted : ℚ}
    (hgranted : granted ∈ offsets asm.size) (hfront : asm.frontier < granted) (payloadSeen : ℕ) :
    Ranges.Within (offsets asm.size) (tailRange asm granted payloadSeen) := by
  have hp : (0 : ℚ) < payloadSize payloadSeen := Nat.cast_pos.mpr (Repairs.payloadSize_pos _)
  have hgwhole := whole_of_offsets hgranted
  have hlt : max (asm.frontier : ℚ) (granted - payloadSize payloadSeen) < granted :=
    max_lt hfront (sub_lt_self _ hp)
  have hgsize : granted ≤ asm.size := by
    obtain ⟨n, hn, rfl⟩ := hgranted
    exact_mod_cast hn
  refine ⟨mem_offsets (max_mem_whole (natCast_mem_whole _) (whole.sub_mem hgwhole (natCast_mem_whole _)))
    ?_ (hlt.le.trans hgsize), hgranted, hlt⟩
  exact (Nat.cast_nonneg _).trans (le_max_left _ _)

/-! ## Settings -/

namespace ClientOptions

variable (opts : ClientOptions)

/-- The fixed initial grant is one that no REQ can carry. -/
def NeverRequests : Prop := ∃ g, opts.initialGrant = some g ∧ ¬ IsUint32 g

/-- The fixed initial grant leaves nothing of any asset to be granted. -/
def NeverGrants : Prop := ∃ g, opts.initialGrant = some g ∧ (IsUint32 g → g = 2 ^ 32 - 1)

/-- The budget is a whole number of bytes at all times. -/
def WholeBudget : Prop :=
  opts.floor ∈ whole ∧ (max opts.floor opts.cap ∈ whole ∨ opts.budgetK = some 0)

/-- Early detection looks for gaps below whole offsets only. -/
def WholeLimit : Prop :=
  opts.resendsEarly = false ∨ opts.reorderLimit ∈ whole ∨ 2 ^ 32 - 2 ≤ opts.reorderLimit

/-- The settings under which every packet can be encoded. -/
def SendsWhole : Prop :=
  opts.NeverRequests ∨ (opts.NeverGrants ∨ opts.WholeBudget) ∧ opts.WholeLimit

end ClientOptions

/-- The budget is whole, and stays so. -/
structure WholeController (b : BudgetController) : Prop where
  floor : b.floor ∈ whole
  current : b.current ∈ whole
  cap : b.cap ∈ whole ∨ b.Pinned

theorem WholeController.moves {b b' : BudgetController} (h : WholeController b) (hm : b.Moves b') :
    WholeController b' := by
  rcases h.cap with hcap | hpinned
  · refine ⟨hm.floor ▸ h.floor, ?_, .inl (hm.cap ▸ hcap)⟩
    exact hm.current_of h.floor hcap h.current intCast_mem_whole (fun _ _ => max_mem_whole) fun _ _ => min_mem_whole
  · refine ⟨hm.floor ▸ h.floor, ?_, .inr (hm.pinned hpinned)⟩
    rw [(hm.pinned hpinned).current, hm.floor]
    exact h.floor

theorem wholeController_new {opts : ClientOptions} (hopts : opts.Accepted) (h : opts.WholeBudget) :
    WholeController opts.controller := by
  refine ⟨h.1, h.1, h.2.imp id fun hk => ?_⟩
  refine ⟨?_, hopts.floor_nonneg, le_max_left _ _, ?_, rfl⟩
  · change opts.budgetK.getD defaultK = 0
    rw [hk]
    rfl
  · norm_num [ClientOptions.controller, BudgetController.new, defaultLossFactor]

theorem ClientOptions.Accepted.reorderLimit_nonneg {opts : ClientOptions} (h : opts.Accepted) :
    0 ≤ opts.reorderLimit := by
  rw [ClientOptions.reorderLimit]
  cases hr : opts.reorderPackets with
  | none => norm_num [defaultReorderPackets]
  | some q => exact h.reorderPackets q hr

/-! ## The invariant -/

/-- What makes the packets of one transfer encodable. -/
structure SoundTransfer (opts : ClientOptions) (id : ℤ) (t : Transfer) : Prop where
  req : (Outgoing.req id t.initialGrant t.assetId).encode.isSome
  fixed : ∀ g, opts.initialGrant = some g → t.initialGrant = g
  pending : ∀ asm repair, t.asm = some asm → t.repair = some repair →
    ∀ p ∈ repair.pending, Ranges.Within (offsets asm.size) p.range

/-- What makes a grant encodable. -/
structure SoundEntry (opts : ClientOptions) (e : Entry) : Prop where
  granted : e.granted ∈ whole
  size : e.size ∈ whole
  received : e.received ∈ whole
  nonneg : 0 ≤ e.granted
  full : opts.NeverGrants → e.granted = e.size

/-- The invariant. -/
structure Sound (c : Http4Client) : Prop where
  inv : Inv c
  accepted : c.opts.Accepted
  settings : c.opts.SendsWhole
  budget : c.opts.NeverGrants ∨ WholeController c.budget
  transfer : ∀ id t, c.objects.get? id = some t → SoundTransfer c.opts id t
  entry : ∀ id e, c.scheduler.rpcs.get? id = some e → SoundEntry c.opts e
  seq : c.seq.Bounded
  highest : c.seq.highest < 2 ^ 32
  handed : ∀ p ∈ c.handed, p.Encodable

section Sound

variable {inc : Option Wire.Ts.Packet} {c c' : Http4Client}

/-- With a transfer the settings are those of a session that sends requests. -/
theorem Sound.wholeLimit (h : Sound c) {id : ℤ} {t : Transfer} (ht : c.objects.get? id = some t) :
    c.opts.WholeLimit := by
  rcases h.settings with ⟨g, hg, hnot⟩ | ⟨-, hlimit⟩
  · have hreq := (Outgoing.range_of_req (h.transfer id t ht).req).2
    rw [(h.transfer id t ht).fixed g hg] at hreq
    exact absurd hreq hnot
  · exact hlimit

theorem Sound.exists_transfer (h : Sound c) {id : ℤ} {e : Entry} (he : c.scheduler.rpcs.get? id = some e) :
    ∃ t asm, c.objects.get? id = some t ∧ t.asm = some asm ∧ asm.size < 2 ^ 32 ∧ e.size = asm.size ∧
      e.granted ≤ e.size := by
  cases ht : c.objects.get? id with
  | none => exact absurd ((h.inv.known id ht).symm.trans he) (by simp)
  | some t =>
    obtain ⟨hok, htied⟩ := h.inv.transfer id t ht
    rw [he] at htied
    cases htied with
    | scheduled hlive hasm size received paused granted =>
      exact ⟨t, _, rfl, hasm, (hok.represents _ hasm).1, size, granted⟩

/-- A grant is an offset. -/
theorem Sound.granted_mem (h : Sound c) {id : ℤ} {t : Transfer} {asm : Reassembly}
    (ht : c.objects.get? id = some t) (hasm : t.asm = some asm) {d : ℚ} (hd : d ∈ offsets asm.size) :
    (c.scheduler.granted id).getD d ∈ offsets asm.size := by
  rw [SrptScheduler.granted]
  cases he : c.scheduler.rpcs.get? id with
  | none => exact hd
  | some e =>
    obtain ⟨t', asm', ht', hasm', -, hsize, hle⟩ := h.exists_transfer he
    obtain rfl := Option.some.inj (ht.symm.trans ht')
    obtain rfl := Option.some.inj (hasm.symm.trans hasm')
    exact mem_offsets (h.entry id e he).granted (h.entry id e he).nonneg (hle.trans_eq hsize)

/-- What a repair tracker is asked about has its bounds in the asset. -/
theorem Sound.within_asked (h : Sound c) {id : ℤ} {t : Transfer} {asm : Reassembly}
    (ht : c.objects.get? id = some t) (hasm : t.asm = some asm) {gaps : List (Range ℚ)}
    (hgaps : Asked c id asm gaps) : ∀ g ∈ gaps, Ranges.Within (offsets asm.size) g := by
  obtain ⟨hsize, w, hrep⟩ := (h.inv.transfer id t ht).1.represents asm hasm
  have hgranted := h.granted_mem ht hasm (d := 0) ⟨0, Nat.zero_le _, Nat.cast_zero⟩
  cases hgaps with
  | early gaps hsub hearly =>
    have hreorder : c.opts.reorderLimit ∈ whole ∨ 2 ^ 32 - 2 ≤ c.opts.reorderLimit :=
      (h.wholeLimit ht).resolve_left (by rw [hearly]; exact Bool.noConfusion)
    obtain ⟨n, hn, heq⟩ := h.granted_mem ht hasm (d := asm.size) ⟨asm.size, le_rfl, rfl⟩
    have hle : (c.scheduler.granted id).getD asm.size ≤ asm.size := by
      rw [← heq]
      exact_mod_cast hn
    intro g hg
    exact hrep.within_gaps (hrep.lossLimit hsize hle h.accepted.reorderLimit_nonneg hreorder) g (hsub.subset hg)
  | probe hfront => exact List.forall_mem_singleton.mpr (within_tailRange hgranted hfront _)
  | stall => exact within_recoverGaps hrep hgranted _

/-- What may be sent can be encoded. -/
theorem Sound.allowed (h : Sound c) {p : Outgoing} (hp : Allowed c p) : p.Encodable := by
  have hid {id : ℤ} {t : Transfer} (ht : c.objects.get? id = some t) : Outgoing.IsUint64 id :=
    (Outgoing.range_of_req (h.transfer id t ht).req).1
  cases hp with
  | hello => exact Outgoing.encodable_hello
  | req ht => exact ⟨(h.transfer _ _ ht).req, (Outgoing.range_of_req (h.transfer _ _ ht).req).2⟩
  | @grant id g priority hg hknown hpriority =>
    subst hg
    rw [SrptScheduler.granted] at hknown ⊢
    cases he : c.scheduler.rpcs.get? id with
    | none =>
      rw [he] at hknown
      obtain ⟨t, ht⟩ := Option.isSome_iff_exists.mp (hknown.resolve_left (by simp))
      exact Outgoing.encodable_grant (hid ht) ⟨0, by norm_num, Nat.cast_zero⟩ hpriority
    | some e =>
      obtain ⟨t, asm, ht, -, hsize, hesize, hle⟩ := h.exists_transfer he
      refine Outgoing.encodable_grant (hid ht) (isUint32_of_offsets hsize ?_) hpriority
      exact mem_offsets (h.entry id e he).granted (h.entry id e he).nonneg (hle.trans_eq hesize)
  | @resend id t repair p ht hrepair hp =>
    have hok := (h.inv.transfer id t ht).1
    obtain ⟨asm, hasm⟩ := Option.isSome_iff_exists.mp (hok.repair ▸ (by rw [hrepair]; rfl) : t.asm.isSome)
    have hsize := (hok.represents asm hasm).1
    obtain ⟨hstart, hstop, hlt⟩ := (h.transfer id t ht).pending asm repair hasm hrepair p hp
    exact Outgoing.encodable_resend (hid ht) (isUint32_of_offsets hsize hstart) (isUint32_of_offsets hsize hstop) hlt
  | @resendSeq r hr hnumbers =>
    have hfirst := h.seq.below r.start (.inr (hnumbers _ (mem_numbers.mpr ⟨le_rfl, hr⟩)))
    have hlast := h.seq.below (r.stop - 1) (.inr (hnumbers _ (mem_numbers.mpr ⟨by omega, by omega⟩)))
    have hhighest := h.highest
    exact Outgoing.encodable_resendSeq hfirst.1 hr (by omega)

/-- A new entry. -/
theorem SoundTransfer.entry_new {opts : ClientOptions} {id : ℤ} {t : Transfer} (h : SoundTransfer opts id t)
    {totalSize : ℤ} (hpos : 0 ≤ totalSize) (hlt : totalSize < 2 ^ 32) (seq : ℕ) :
    SoundEntry opts { size := totalSize, granted := min t.initialGrant totalSize, received := 0, paused := false,
                      seq := seq, cls := t.cls } := by
  obtain ⟨n, hn, hgrant⟩ := (Outgoing.range_of_req h.req).2
  have hsize : (0 : ℚ) ≤ totalSize := by exact_mod_cast hpos
  refine ⟨min_mem_whole (hgrant ▸ natCast_mem_whole n) (intCast_mem_whole _), intCast_mem_whole _,
    whole.zero_mem, le_min (hgrant ▸ Nat.cast_nonneg n) hsize, ?_⟩
  rintro ⟨g, hg, hmax⟩
  have heq := hmax (h.fixed g hg ▸ (Outgoing.range_of_req h.req).2)
  rw [h.fixed g hg, heq]
  refine min_eq_right ?_
  have : (totalSize : ℚ) + 1 ≤ 2 ^ 32 := by exact_mod_cast hlt
  linarith

theorem Sound.change (hdec : Decoded inc) (h : Sound c) {id : ℤ} {t t' : Transfer} {s : SrptScheduler}
    (ht : c.objects.get? id = some t) (hc : Change inc c id t t' s) :
    SoundTransfer c.opts id t' ∧ ∀ id' e, s.rpcs.get? id' = some e → SoundEntry c.opts e := by
  obtain ⟨hreq, hfixed, hpending⟩ := h.transfer id t ht
  -- a change of an entry that leaves its grant
  have hmodify {f : Entry → Entry} (hf : ∀ e, SoundEntry c.opts e → SoundEntry c.opts (f e)) (id' : ℤ) (e : Entry)
      (he : (c.scheduler.rpcs.modify id f).get? id' = some e) : SoundEntry c.opts e := by
    rw [OrderedMap.get?_modify] at he
    split_ifs at he
    · obtain ⟨e₀, he₀, rfl⟩ := Option.map_eq_some_iff.mp he
      exact hf e₀ (h.entry id' e₀ he₀)
    · exact h.entry id' e he
  cases hc with
  | progress | headers | stream | settle => exact ⟨⟨hreq, hfixed, hpending⟩, h.entry⟩
  | learn d hinc =>
    obtain ⟨hpos, hlt, -⟩ := hdec.data hinc
    refine ⟨⟨hreq, hfixed, fun asm repair _ hrepair => ?_⟩, fun id' e he => ?_⟩
    · obtain rfl := Option.some.inj hrepair
      exact fun p hp => absurd hp List.not_mem_nil
    · change (c.scheduler.rpcs.set id _).get? id' = some e at he
      rw [OrderedMap.get?_set] at he
      split_ifs at he
      · obtain rfl := Option.some.inj he
        exact (h.transfer id t ht).entry_new hpos hlt _
      · exact h.entry id' e he
  | store d asm asm' fresh _ _ hlive hasm _ hadd =>
    obtain ⟨-, w, hrep⟩ := (h.inv.transfer id t ht).1.represents asm hasm
    obtain ⟨-, hsize, -⟩ := hrep.of_add hadd
    refine ⟨⟨hreq, hfixed, fun a repair ha hrepair => ?_⟩, hmodify fun e he => ?_⟩
    · obtain rfl := Option.some.inj ha
      rw [hsize]
      exact hpending asm repair hasm hrepair
    · exact ⟨he.granted, he.size, whole.add_mem he.received (intCast_mem_whole _), he.nonneg, he.full⟩
  | claim asm repair before gaps now delayMs hasm hrepair hbefore hgaps =>
    refine ⟨⟨hreq, hfixed, fun a r ha hr => ?_⟩, h.entry⟩
    obtain rfl := Option.some.inj (hasm.symm.trans ha)
    obtain rfl := Option.some.inj hr
    refine RepairTracker.within_claim ?_ asm (h.within_asked ht hasm hgaps) now delayMs
    rw [hbefore]
    exact hpending asm repair hasm hrepair
  | pause | unpause =>
    exact ⟨⟨hreq, hfixed, hpending⟩, hmodify fun e he => ⟨he.granted, he.size, he.received, he.nonneg, he.full⟩⟩
  | remove =>
    refine ⟨⟨hreq, hfixed, hpending⟩, fun id' e he => ?_⟩
    change (c.scheduler.rpcs.delete id).get? id' = some e at he
    rw [OrderedMap.get?_delete] at he
    split_ifs at he
    exact h.entry id' e he

/-- What is granted stays in a group that holds what is available and the sizes. -/
theorem SrptScheduler.Spent.mem_of {G : AddSubgroup ℚ} {μ a a' : ℚ} {cs : List (ℤ × Entry)}
    {out : List GrantDecision} (h : SrptScheduler.Spent μ a cs out a') (ha : a ∈ G)
    (hcs : ∀ c ∈ cs, c.2.granted ∈ G ∧ c.2.size ∈ G) : ∀ d ∈ out, d.maxOffset ∈ G := by
  induction h with
  | stop => simp
  | part => exact List.forall_mem_singleton.mpr (G.add_mem (hcs _ List.mem_cons_self).1 ha)
  | whole _ _ _ _ ih =>
    obtain ⟨⟨hgranted, hsize⟩, hcs⟩ := List.forall_mem_cons.mp hcs
    exact List.forall_mem_cons.mpr ⟨hsize, ih (G.sub_mem ha (G.sub_mem hsize hgranted)) hcs⟩

/-- A call of `grants` grants offsets, unless nothing is ever left to be granted. -/
theorem Sound.pump (h : Sound c) {d : GrantDecision}
    (hd : d ∈ ((c.scheduler.setBudget c.budget.budget).grants c.reserved).1) :
    d.maxOffset ∈ whole ∧ ¬ c.opts.NeverGrants := by
  obtain ⟨e, he, -, hlt, hle⟩ := SrptScheduler.exists_of_mem_grants hd
  have hnot : ¬ c.opts.NeverGrants := fun hnever => by
    have := (h.entry _ e he).full hnever
    linarith
  refine ⟨?_, hnot⟩
  obtain ⟨a', hspent, -⟩ := (c.scheduler.setBudget c.budget.budget).spent_grants c.reserved
  have hbudget := (h.budget.resolve_left hnot).current
  refine hspent.mem_of (whole.sub_mem (whole.sub_mem hbudget ?_) ?_) (fun k hk => ?_) d hd
  · refine sum_mem_whole fun t ht => ?_
    obtain ⟨id, ht⟩ := OrderedMap.mem_values.mp ht
    obtain ⟨n, -, hn⟩ := (Outgoing.range_of_req (h.transfer id t ht).req).2
    rw [Transfer.reserved]
    split_ifs
    · exact hn ▸ natCast_mem_whole n
    · exact whole.zero_mem
  · refine sum_mem_whole fun e he => ?_
    obtain ⟨id, he⟩ := OrderedMap.mem_values.mp he
    have hentry := h.entry id e he
    exact max_mem_whole whole.zero_mem (whole.sub_mem hentry.granted hentry.received)
  · have hentry := h.entry k.1 k.2 (SrptScheduler.mem_candidates.mp hk).1
    exact ⟨hentry.granted, hentry.size⟩

theorem Sound.move (hdec : Decoded inc) (h : Sound c) (hm : Move inc c c') : Sound c' := by
  have hinv := h.inv.move hdec hm
  obtain ⟨-, haccepted, hsettings, hbudget, htransfer, hentry, hseq, hhighest, hhanded⟩ := id h
  cases hm with
  | estimate | ticker =>
    exact ⟨hinv, haccepted, hsettings, hbudget, htransfer, hentry, hseq, hhighest, hhanded⟩
  | budget b hb =>
    exact ⟨hinv, haccepted, hsettings, hbudget.imp_right fun hwhole => hwhole.moves hb, htransfer, hentry, hseq,
      hhighest, hhanded⟩
  | hand p hp =>
    exact ⟨hinv, haccepted, hsettings, hbudget, htransfer, hentry, hseq, hhighest,
      List.forall_mem_append.mpr ⟨hhanded, List.forall_mem_singleton.mpr (h.allowed hp)⟩⟩
  | arrive p now loc hinc =>
    refine ⟨hinv, haccepted, hsettings, hbudget, htransfer, hentry, hseq.arrive _ _ _, ?_, hhanded⟩
    have hlt := (hdec.seq hinc).2
    change (c.seq.arrive p.seq now loc).2.highest < 2 ^ 32
    rcases le_or_gt p.seq c.seq.highest with hold | hnew
    · rw [(SeqTracker.arrive_old c.seq now loc (not_lt.mpr hold)).1]
      exact hhighest
    · rw [(SeqTracker.arrive_new c.seq now loc hnew).1]
      exact hlt
  | detect now allowance windowMs tailWindowMs =>
    refine ⟨hinv, haccepted, hsettings, hbudget, htransfer, hentry, hseq.detect _ _ _ _ seqMaxRange, ?_,
      hhanded⟩
    exact (SeqTracker.detect_cases c.seq now allowance windowMs tailWindowMs seqMaxRange).1.trans_lt hhighest
  | repeats now delayMs repaired =>
    refine ⟨hinv, haccepted, hsettings, hbudget, htransfer, hentry, hseq.repeats _ _ _ _ seqMaxRange, ?_,
      hhanded⟩
    exact (SeqTracker.repeats_cases c.seq now delayMs seqResendTries repaired seqMaxRange).1.trans_lt hhighest
  | register id assetId cls stream progress _ _ hencode =>
    refine ⟨hinv, haccepted, hsettings, hbudget, fun id' t ht => ?_, hentry, hseq, hhighest, hhanded⟩
    change (c.objects.set id _).get? id' = some t at ht
    rw [OrderedMap.get?_set] at ht
    split_ifs at ht with heq
    · obtain rfl := Option.some.inj ht
      refine ⟨heq ▸ hencode, fun g hg => ?_, fun asm _ hasm => by cases hasm⟩
      change c.nextInitialGrant = g
      rw [nextInitialGrant, hg]
    · exact htransfer id' t ht
  | change id t t' s ht hchange =>
    obtain ⟨hsound, hentries⟩ := h.change hdec ht hchange
    refine ⟨hinv, haccepted, hsettings, hbudget, fun id' u hu => ?_, hentries, hseq, hhighest, hhanded⟩
    change (c.objects.modify id _).get? id' = some u at hu
    rw [OrderedMap.get?_modify] at hu
    split_ifs at hu with heq
    · rw [heq, ht] at hu
      obtain rfl := Option.some.inj hu
      rw [heq]
      exact hsound
    · exact htransfer id' u hu
  | pump =>
    refine ⟨hinv, haccepted, hsettings, hbudget, htransfer, fun id e' he' => ?_, hseq, hhighest, hhanded⟩
    change ((c.scheduler.setBudget c.budget.budget).grants c.reserved).2.rpcs.get? id = some e' at he'
    by_cases hid : id ∈ ((c.scheduler.setBudget c.budget.budget).grants c.reserved).1.map GrantDecision.rpcId
    · obtain ⟨d, hd, rfl⟩ := List.mem_map.mp hid
      obtain ⟨hwhole, hnot⟩ := h.pump hd
      obtain ⟨e, he, -, hlt, -⟩ := SrptScheduler.exists_of_mem_grants hd
      rw [SrptScheduler.get?_grants_of_mem hd he] at he'
      obtain rfl := Option.some.inj he'
      have hold := hentry _ e he
      exact ⟨hwhole, hold.size, hold.received, hold.nonneg.trans hlt.le, fun hnever => absurd hnever hnot⟩
    · rw [SrptScheduler.get?_grants_of_notMem hid] at he'
      exact hentry id e' he'

theorem Sound.flag (h : Sound c) (hf : Flag c c') : Sound c' := by
  have hinv := h.inv.flag hf
  obtain ⟨-, haccepted, hsettings, hbudget, htransfer, hentry, hseq, hhighest, hhanded⟩ := h
  cases hf with
  | stopReading | close | endSession =>
    exact ⟨hinv, haccepted, hsettings, hbudget, htransfer, hentry, hseq, hhighest, hhanded⟩

theorem sound_new {opts : ClientOptions} (hopts : opts.Accepted) (h : opts.SendsWhole) (maxDatagramSize : ℕ) :
    Sound (.new opts maxDatagramSize) := by
  refine ⟨inv_new opts maxDatagramSize, hopts, h, ?_, fun _ _ ht => absurd ht (by simp [Http4Client.new]),
    (fun _ _ he => by cases he), SeqTracker.bounded_new, (by decide : (-1 : ℤ) < 2 ^ 32), fun _ hp => absurd hp List.not_mem_nil⟩
  rcases h with ⟨g, hg, hnot⟩ | ⟨hnever | hbudget, -⟩
  · exact .inl ⟨g, hg, fun hin => absurd hin hnot⟩
  · exact .inl hnever
  · exact .inr (wholeController_new hopts hbudget)

theorem sound_reachable {opts : ClientOptions} (hopts : opts.Accepted) (h : opts.SendsWhole) {maxDatagramSize : ℕ}
    (hc : Machine.Reachable Http4Client.step (connect opts maxDatagramSize) c) : Sound c :=
  invariant_of_moves (sound_new hopts h maxDatagramSize) (fun _ _ _ hdec => Sound.move hdec) (fun _ _ => Sound.flag) hc

/-- **Every packet handed to `send` can be encoded**, in every run under a page's
    settings that meet `SendsWhole`. -/
theorem handed_encodable (raw : Option JsObject) (maxDatagramSize : ℕ) (h : (tuningOptions raw).SendsWhole)
    (hc : Machine.Reachable Http4Client.step (connect (tuningOptions raw) maxDatagramSize) c) :
    ∀ p ∈ c.handed, p.Encodable :=
  (sound_reachable (accepted_tuningOptions raw) h hc).handed

/-- A request and its first DATA, of a transfer of three bytes. -/
def threeBytes : List Step :=
  [{ event := .request 1 (Wire.Ts.jsLit "a") false .normal },
   { event := .datagram [2, 0, 0, 0, 0, 0, 0, 0, 1, 0, 0, 0, 3, 0, 0, 0, 0, 7] true }]

/-- A config with the two properties. -/
def withBudget (budget initialGrant : ℚ) : JsObject := fun key =>
  if key = "budget" then .number budget else if key = "initialGrant" then .number initialGrant else .other

/-- A budget of one byte: a GRANT of the second one. -/
theorem handed_encodable_one :
    ∃ c, Machine.run Http4Client.step (connect (tuningOptions (some (withBudget 1 1))) 1200) threeBytes = some c ∧
      Outgoing.grant 1 2 0 ∈ c.handed ∧ (Outgoing.grant 1 2 0).Encodable := by
  have hany : (Machine.run Http4Client.step (connect (tuningOptions (some (withBudget 1 1))) 1200) threeBytes).any
      fun c => Outgoing.grant 1 2 0 ∈ c.handed := by decide +kernel
  obtain ⟨c, hrun, hmem⟩ := (Option.any_eq_true _ _).mp hany
  have hmem := of_decide_eq_true hmem
  have hwhole : (tuningOptions (some (withBudget 1 1))).SendsWhole :=
    .inr ⟨.inr ⟨⟨1, by decide +kernel⟩, .inl ⟨1, by decide +kernel⟩⟩, .inr (.inl ⟨3, by decide +kernel⟩)⟩
  exact ⟨c, hrun, hmem, handed_encodable _ 1200 hwhole ⟨_, hrun⟩ _ hmem⟩

/-- A budget of half a byte: a GRANT of half of the second one. -/
theorem half_budget_grants_half : ¬ ∀ raw maxDatagramSize c,
    Machine.Reachable Http4Client.step (connect (tuningOptions raw) maxDatagramSize) c →
      ∀ p ∈ c.handed, p.Encodable := by
  intro h
  have hany : (Machine.run Http4Client.step (connect (tuningOptions (some (withBudget (1 / 2) 1))) 1200)
      threeBytes).any fun c => Outgoing.grant 1 (3 / 2) 0 ∈ c.handed := by decide +kernel
  obtain ⟨c, hrun, hmem⟩ := (Option.any_eq_true _ _).mp hany
  have hencode := (h _ _ c ⟨_, hrun⟩ _ (of_decide_eq_true hmem)).1
  exact absurd hencode (by decide +kernel)

end Sound

end Http4.Client
