import Http4.Sender.Effect

/-!
# Grant discipline (G2)

The grant of an RPC never exceeds what the client has granted for its identifier
so far, in REQ or GRANT packets, and what is picked never exceeds the grant of
its RPC. The second is part of `WorkOk`; this module proves the first and puts
the two together.

Main results:

* `granted_le_highestGrant`: the grant of every RPC was made by the client.
* `grant_discipline`: no DATA or DATA_SEQ handed over goes past the asset or past
  the highest grant, and `UngrantedSent` stays 0.
-/

namespace Http4.Sender

open Wire (Packet)

/-! ## What the client granted -/

/-- The grant a packet makes for `id`; 0 if it makes none. -/
def grantIn (id : UInt64) : Packet → ℕ
  | .req q => if q.rpcId = id then q.initialGrant.toNat else 0
  | .grant q => if q.rpcId = id then q.maxOffset.toNat else 0
  | _ => 0

/-- The grant a datagram of the client makes for `id`. -/
def grantOf (id : UInt64) (b : Bytes) : ℕ := match Wire.Go.decode b with
  | .ok pkt => grantIn id pkt
  | .error _ => 0

/-- The highest `initial_grant` or `max_offset` for `id` in the datagrams sent. -/
def highestGrant (id : UInt64) (offered : List Bytes) : ℕ :=
  (offered.map (grantOf id)).foldr max 0

theorem le_highestGrant {id : UInt64} {b : Bytes} {offered : List Bytes} (h : b ∈ offered) :
    grantOf id b ≤ highestGrant id offered := by
  induction h with
  | head => exact le_max_left _ _
  | tail _ _ ih => exact ih.trans (le_max_right _ _)

theorem highestGrant_append (id : UInt64) (offered more : List Bytes) :
    highestGrant id offered ≤ highestGrant id (offered ++ more) := by
  induction offered with
  | nil => exact Nat.zero_le _
  | cons b offered ih => exact max_le_max_left _ ih

/-- A packet raises the grant of an RPC at most to the grant it makes. -/
theorem Touch.granted_le {pkt : Packet} {now : ℤ} {r r' : Rpc} (h : Touch pkt now r r') :
    r'.granted ≤ max r.granted (grantIn r.id pkt) := by
  induction h with
  | none => exact le_max_left _ _
  | request q hpkt hid =>
    rw [hpkt, grantIn, if_pos hid.symm]
    exact max_le_max_left _ (min_le_left _ _)
  | grant q hpkt hid =>
    rw [hpkt, grantIn, if_pos hid.symm]
    exact max_le_max_left _ (min_le_left _ _)
  | resend q hpkt hid => exact le_max_left _ _
  | resendSeq r' off n _ ih => exact ih

/-! ## Every grant was made -/

/-- The grants of all RPCs were made by the client. -/
def GrantsMade (s : Sys) : Prop :=
  ∀ (p : ℕ) (r : Rpc), s.session.heap[p]? = some r → r.granted ≤ highestGrant r.id s.offered

theorem GrantsMade.step {cfg : Config} {s s' : Sys} {a : Act} (hinv : Inv cfg s.session)
    (h : GrantsMade s) (heff : Effect cfg s a s') : GrantsMade s' := by
  cases heff with
  | offer b => exact fun p r hr => (h p r hr).trans (highestGrant_append r.id s.offered [b])
  | packet b now got pkt m hb hdecode hm =>
    have hgrant (id : UInt64) : grantIn id pkt ≤ highestGrant id s.offered := by
      have hle : grantOf id b ≤ highestGrant id s.offered := le_highestGrant hb
      rwa [grantOf, hdecode] at hle
    have hmap : MapOk { s.session with metrics := m } := ⟨hinv.map.mem, hinv.map.nodup⟩
    intro p r' hr'
    rcases heap_handle hmap hr' with ⟨r, hr, ht⟩ | ⟨-, q, a, rfl, -, -, rfl⟩
    · rw [ht.id]
      exact ht.granted_le.trans (max_le (h p r hr) (hgrant r.id))
    · -- a new RPC has only the grant of the REQ that made it
      have hreq := hgrant q.rpcId
      rw [grantIn, if_pos rfl] at hreq
      exact max_le (Nat.zero_le _) ((min_le_left _ _).trans hreq)
  | record w seq p r r' m hphase hp hr hw hrec hseq hm =>
    intro q t ht
    rcases heap_set_of ht with ⟨-, rfl⟩ | ht
    · rw [hrec.granted, hrec.id]
      exact h p r hr
    · exact h q t ht
  | malformed | nothing | pick | hold | check | sent | refused | ended | recordReply
  | evictIdle => exact h

theorem granted_le_highestGrant {cfg : Config} {s : Sys}
    (h : Machine.Reachable (Sys.step cfg) (Sys.init cfg) s) : GrantsMade s :=
  reachable_induction (by simp [GrantsMade, Sys.init, Session.init])
    (fun _ _ _ hinv hmade heff => hmade.step hinv heff) h

/-! ## G2 -/

/-- The DATA in a packet, numbered or not. -/
def dataIn : Packet → Option Wire.Data
  | .data d => some d
  | .dataSeq d => some d.toData
  | _ => none

/-- What leaves for the work in hand has the data of the work, if any. -/
theorem Inv.dataIn_out {cfg : Config} {s : Sys} (hinv : Inv cfg s.session) {w : Work}
    (hdoing : Doing s.session w) : dataIn (s.session.out w) = w.data? := by
  have hnone : w.data? = none → dataIn w.pkt = none := by
    intro hnone
    cases hdoing with
    | reply rest hpending hr hkind hseq =>
      obtain ⟨e, he⟩ := hinv.pending w.pkt (by rw [hpending]; exact List.mem_cons_self)
      rw [he]
      rfl
    | data p r hp hr hw hseq =>
      cases hw with
      | metaData hkind hpkt hlo hhi => rw [hpkt]; rfl
      | packet0 d _ _ hpkt | resend d _ _ _ _ hpkt | new d _ _ hpkt | tailDup d _ _ _ hpkt =>
        rw [data?_of_pkt hpkt] at hnone
        cases hnone
  unfold Session.out
  split
  next d hd =>
    rw [hd]
    split_ifs
    · rfl
    · rw [pkt_of_data? hd]
      rfl
  next hd => rw [hd, hnone hd]

/-- **Grant discipline.** In every run, whatever DATA or DATA_SEQ the send loop hands
    to the connection carries the bytes `[offset, offset + n)` of the asset of an
    RPC of that identifier, with `offset + n` at most the asset's size and at
    most the highest grant the client has sent for the identifier by then; and
    `UngrantedSent` stays 0. -/
theorem grant_discipline (cfg : Config) (acts : List Act) (s : Sys)
    (hrun : Machine.run (Sys.step cfg) (Sys.init cfg) acts = some s) :
    s.session.metrics.ungrantedSent = 0 ∧
    ∀ w d, s.session.phase = .checked w → dataIn (s.session.out w) = some d →
      (∃ (p : ℕ) (r : Rpc), w.r = some p ∧ s.session.heap[p]? = some r ∧ r.id = d.rpcId ∧
        d.payload = Bytes.sub r.asset d.offset.toNat (d.offset.toNat + d.payload.length) ∧
        d.offset.toNat + d.payload.length ≤ r.asset.length) ∧
      d.offset.toNat + d.payload.length ≤ highestGrant d.rpcId s.offered := by
  have hreach : Machine.Reachable (Sys.step cfg) (Sys.init cfg) s := ⟨acts, hrun⟩
  have hinv := inv_reachable hreach
  refine ⟨hinv.ungranted, fun w d hphase hd => ?_⟩
  have hbusy : s.session.busy = some w := by rw [Session.busy, hphase]
  have hdoing := hinv.work w hbusy
  rw [hinv.dataIn_out hdoing] at hd
  cases hdoing with
  | reply rest hpending hr hkind hseq =>
    rw [data?_eq_none_of_pending hinv hpending] at hd
    cases hd
  | data p r hp hr hw hseq =>
    have hok := hinv.rpc p r hr
    obtain ⟨hc, hle⟩ := hw.carries hok hd
    have hsize := hok.size_le
    have hgranted := hok.granted_le
    have hmade := granted_le_highestGrant hreach p r hr
    rw [hc.offset, hc.length, hc.rpcId]
    exact ⟨⟨p, r, hp, hr, rfl, hc.payload, by omega⟩, by omega⟩

/-- The packet checked carries data. -/
def Session.checksData (s : Session) : Bool := match s.phase with
  | .checked w => (dataIn (s.out w)).isSome
  | _ => false

/-- A REQ that grants three of five bytes: packet 0 carries at most these. -/
theorem grant_discipline_small :
    ∃ s w d, Machine.run (Sys.step smallConfig) (Sys.init smallConfig)
        (clientSends (smallReq 3) 0 ++ serverSends [0] ++ [.pick [0], .check]) = some s ∧
      s.session.phase = .checked w ∧ dataIn (s.session.out w) = some d ∧
      d.offset.toNat + d.payload.length ≤ highestGrant d.rpcId s.offered := by
  obtain ⟨s, hrun, hP⟩ := exists_run_of_any smallConfig
    (clientSends (smallReq 3) 0 ++ serverSends [0] ++ [.pick [0], .check])
    (P := fun s => s.session.checksData) (by decide +kernel)
  unfold Session.checksData at hP
  split at hP
  next w hphase =>
    obtain ⟨d, hd⟩ := Option.isSome_iff_exists.mp hP
    exact ⟨s, w, d, hrun, hphase, hd, ((grant_discipline _ _ s hrun).2 w d hphase hd).2⟩
  · cases hP

end Http4.Sender
