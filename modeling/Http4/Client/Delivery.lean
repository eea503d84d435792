import Http4.Client.Streams

/-!
# What DATA does to a stream

Every flush of a live transfer belongs to a DATA packet. `Delivers` says what the
code that handles one leads to: the reassembly takes the payload, the stream is
flushed, and what follows is turns that flush no live transfer.

Main results:

* `delivers_handle`: what the code makes of DATA and DATA_SEQ.
* `Http4Client.step_delivers`: a step flushes one stream at most.
-/

namespace Http4.Client

open Routine Http4Client

/-- The reassembly after a DATA packet, if the transfer takes it. -/
def Held.stored (x : Held) (d : Wire.Ts.Data) : Option Reassembly :=
  match x.asm with
  | none => ((Reassembly.new d.totalSize.toNat).add d.offset d.payload).toOption.map Prod.snd
  | some asm =>
    if d.totalSize = asm.size then (asm.add d.offset d.payload).toOption.map Prod.snd else none

namespace Http4Client

/-- Turns that pause no transfer. -/
abbrev Calm := Turns fun _ => .calm

/-- Nothing is flushed but the stream of a live transfer, which has `asm`. -/
inductive FlushesTo (id : ℤ) (asm : Reassembly) (c m : Http4Client) : Prop
  | mk (x : Held) (st : StreamState) (failed : Bool) (hx : c.held.2 id = some x) (hlive : x.live = true)
      (hst : x.stream = some st) (hopen : st.closed = false) (hbody : st.Flushes asm → st.body.canEnqueue = true)
      (hm : m.held = (c.held.1, Function.update c.held.2 id
        (some { x with asm := some asm, stream := some (st.flush failed asm) })))

/-- What the code leads to that handles DATA; `o` is the reassembly if the transfer
    takes the packet. -/
inductive Delivers (id : ℤ) (o : Option Reassembly) (c : Http4Client) : Except Thrown Unit × Http4Client → Prop
  | calm {r : Except Thrown Unit} {s : Http4Client} (h : Calm c s)
      (hok : r = .ok () → ∀ st, c.streamOf id = some (true, st) → st.closed = false → o = none ∧ Closed id s) :
      Delivers id o c (r, s)
  | flushed {r : Except Thrown Unit} {s m : Http4Client} {asm : Reassembly} (hflush : FlushesTo id asm c m)
      (ho : o = some asm) (h : Calm m s)
      (hok : r = .ok () → s.held = m.held ∨ asm.complete = true ∧ Closed id s) : Delivers id o c (r, s)

variable {inc : Option Wire.Ts.Packet} {c c' : Http4Client} {id : ℤ}

theorem not_brings_none : ¬ Brings none id := by
  rintro ⟨d, hd | ⟨s, hs, -⟩, -⟩
  · cases hd
  · cases hs

theorem FlushesTo.of_held {asm : Reassembly} {s m : Http4Client} (h : FlushesTo id asm s m)
    (hs : s.held = c.held) : FlushesTo id asm c m := by
  obtain ⟨x, st, failed, hx, hlive, hst, hopen, hbody, hm⟩ := h
  rw [hs] at hx hm
  exact ⟨x, st, failed, hx, hlive, hst, hopen, hbody, hm⟩

/-- What a flush makes of the streams. -/
theorem FlushesTo.streamOf {asm : Reassembly} {m : Http4Client} (h : FlushesTo id asm c m) :
    ∃ st failed, c.streamOf id = some (true, st) ∧ st.closed = false ∧ m.opts = c.opts ∧
      ∀ id', m.streamOf id' = if id' = id then some (true, st.flush failed asm) else c.streamOf id' := by
  obtain ⟨x, st, failed, hx, hlive, hst, hopen, -, hm⟩ := h
  refine ⟨st, failed, ?_, hopen, congrArg Prod.fst hm, fun id' => ?_⟩
  · rw [Http4Client.streamOf, hx, Option.bind_some, hst, hlive]
    rfl
  · rw [Http4Client.streamOf, hm]
    dsimp only
    rw [Function.update_apply]
    split_ifs
    · rw [← hlive]
      rfl
    · rfl

/-- What comes before the packet is stored does not matter. -/
theorem Delivers.of_held {o : Option Reassembly} {s : Http4Client} {p : Except Thrown Unit × Http4Client}
    (h : Delivers id o s p) (hs : s.held = c.held) : Delivers id o c p := by
  cases h with
  | calm h hok =>
    refine .calm (trans_of _ (.of_held hs) h) fun hr st hst => hok hr st ?_
    rw [streamOf_congr hs]
    exact hst
  | flushed hflush ho h hok => exact .flushed (hflush.of_held hs) ho h hok

/-- Nor does the reassembly before it. -/
theorem Delivers.of_setAsm {o : Option Reassembly} {s : Http4Client} {asm : Reassembly}
    {p : Except Thrown Unit × Http4Client} (h : Delivers id o s p)
    (hs : s.held = (c.held.1, Function.update c.held.2 id ((c.held.2 id).map (Held.setAsm asm)))) :
    Delivers id o c p := by
  have hstream : s.streamOf id = c.streamOf id := by
    rw [streamOf, streamOf, hs]
    dsimp only
    rw [Function.update_self]
    cases c.held.2 id <;> rfl
  cases h with
  | calm h hok =>
    exact .calm (trans_of _ (turns_setAsm id _ hs) h) fun hr st hst => hok hr st (hstream ▸ hst)
  | flushed hflush ho h hok =>
    obtain ⟨x, st, failed, hx, hlive, hst, hopen, hbody, hm⟩ := hflush
    rw [hs] at hx hm
    dsimp only at hx hm
    rw [Function.update_self] at hx
    rw [Function.update_idem] at hm
    obtain ⟨y, hy, rfl⟩ := Option.map_eq_some_iff.mp hx
    exact .flushed ⟨y, st, failed, hy, hlive, hst, hopen, hbody, hm⟩ ho h hok

end Http4Client

/-! ## The functions -/

section Functions

variable {c : Http4Client} {id : ℤ}

/-- A routine that only times and sends, before the packet is stored. -/
theorem delivers_bind {α : Type} {m : Js α} {k : α → Js Unit} {o : Option Reassembly}
    (hm : Follows (Keeps held) m c)
    (hk : ∀ a s, exec m c = (.ok a, s) → s.held = c.held → Delivers id o s (exec (k a) s)) :
    Delivers id o c (exec (m >>= k) c) := by
  rw [Follows] at hm
  rw [exec_bind]
  rcases hexec : exec m c with ⟨r, s⟩
  rw [hexec] at hm
  cases r with
  | error e => exact .calm (.of_held hm) fun h => by cases h
  | ok a => exact (hk a s hexec hm).of_held hm

/-- A transfer that has been finished has a closed stream. -/
theorem closed_finish {err : Option Failure} {a : Unit} {s : Http4Client}
    (h : exec (finish id err) c = (.ok a, s)) : Closed id s := by
  obtain ⟨_, s₁, -, h⟩ := exec_bind_eq_ok_iff.mp h
  obtain ⟨_, s₂, -, h⟩ := exec_bind_eq_ok_iff.mp h
  obtain ⟨_, s₃, hend, h⟩ := exec_bind_eq_ok_iff.mp h
  have hclosed : Closed id (exec (endStream id err) s₂).2 := closed_endStream err
  rw [hend] at hclosed
  have hkeep : Follows (Keeps held) (do settle id err; pumpGrants) s₃ := keeps_held_afterEnd err
  rw [Follows, h] at hkeep
  exact hclosed.of_held hkeep

/-- A packet that ends its transfer with an error. -/
theorem delivers_finish (e : Failure) : Delivers id none c (exec (finish id (some e)) c) := by
  rcases hexec : exec (finish id (some e)) c with ⟨r, s⟩
  have hturns : Follows (Calm) (finish id (some e)) c := turns_finish (some e)
  rw [Follows, hexec] at hturns
  refine .calm hturns fun hr st _ _ => ⟨rfl, ?_⟩
  subst hr
  exact closed_finish hexec

/-- The end of `afterData`. -/
theorem exec_afterFlush {x : Held} {asm : Reassembly} (hx : c.held.2 id = some x) (hasm : x.asm = some asm)
    {r : Except Thrown Unit} {s : Http4Client}
    (hexec : exec (withTransfer id fun t =>
      if t.asm.any Reassembly.complete ∧ t.headers.isSome then finish id none
      else do
        let now ← performanceNow
        if elapsed t.progress.lastDetect now detectIntervalMs then detectLoss id now else pure ()) c = (r, s)) :
    Calm c s ∧ (r = .ok () → s.held = c.held ∨ asm.complete = true ∧ Closed id s) := by
  obtain ⟨t, ht, rfl⟩ := held_eq_some_iff.mp hx
  rw [exec_withTransfer ht] at hexec
  by_cases hdone : t.asm.any Reassembly.complete ∧ t.headers.isSome
  · rw [if_pos hdone] at hexec
    have hturns : Follows (Calm) (finish id none) c := turns_finish none
    rw [Follows, hexec] at hturns
    refine ⟨hturns, fun hr => .inr ⟨?_, ?_⟩⟩
    · have hcomplete := hdone.1
      change t.asm = some asm at hasm
      rw [hasm] at hcomplete
      exact hcomplete
    · subst hr
      exact closed_finish hexec
  · rw [if_neg hdone] at hexec
    have hkeep : Follows (Keeps held) (do
        let now ← performanceNow
        if elapsed t.progress.lastDetect now detectIntervalMs then detectLoss id now else pure () : Js Unit) c :=
      Follows.bind keeps_held_performanceNow fun _ _ _ =>
        Follows.ite (fun _ => keeps_held_detectLoss) fun _ => Follows.pure _
    rw [Follows, hexec] at hkeep
    exact ⟨.of_held hkeep, fun _ => .inl hkeep⟩

theorem delivers_afterData {x : Held} {asm : Reassembly} (hx : c.held.2 id = some x) (hlive : x.live = true)
    (hasm : x.asm = some asm) :
    Delivers id (some asm) c (exec (afterData id) c) := by
  refine delivers_bind keeps_held_maybeStart fun _ s _ hs => ?_
  rw [← hs] at hx
  clear hs
  obtain ⟨t, ht, rfl⟩ := held_eq_some_iff.mp hx
  rw [exec_bind]
  by_cases hopen : ∃ st, t.stream = some st ∧ st.closed = false
  · obtain ⟨st, hst, hopen⟩ := hopen
    obtain ⟨-, hbody, hexec⟩ | ⟨hbody, failed, m, hexec, hheld⟩ := exec_flushStream ht hst hasm hopen
    · rw [hexec]
      refine .calm (.of_setStream rfl fun t' st' ht' hst' => ?_) fun h => by cases h
      obtain ⟨rfl, rfl⟩ := eq_of_stream ht hst ht' hst'
      exact .skipped _ hbody
    · rw [hexec]
      obtain ⟨t', ht', -, hasm', -, -⟩ := exists_of_setStream hheld ht hst
      obtain ⟨hturns, hok⟩ := exec_afterFlush (held_of_get? ht') (hasm'.trans hasm) rfl
      refine .flushed ⟨_, st, failed, hx, hlive, hst, hopen, hbody, ?_⟩ rfl hturns hok
      rw [hheld, held_setStream, hx, Option.map_some]
      refine congrArg (fun y => (s.held.1, Function.update s.held.2 id (some y))) ?_
      change ({ live := t.live, asm := t.asm, headers := t.headers, stream := t.stream.map _ } : Held) = _
      change t.asm = some asm at hasm
      rw [hst, hasm]
      rfl
  · rw [exec_flushStream_of_closed fun t' st asm' ht' hst _ => ?_]
    · obtain ⟨hturns, -⟩ := exec_afterFlush hx hasm rfl
      refine .calm hturns fun _ st hst hst' => absurd ?_ hopen
      obtain ⟨u, hu, -, hstream⟩ := streamOf_eq_some_iff.mp hst
      obtain rfl := Option.some.inj (ht.symm.trans hu)
      exact ⟨st, hstream, hst'⟩
    · obtain rfl := Option.some.inj (ht.symm.trans ht')
      by_contra hclosed
      exact hopen ⟨st, hst, Bool.eq_false_of_not_eq_true hclosed⟩

theorem delivers_storeData {x : Held} {asm : Reassembly} (hx : c.held.2 id = some x) (hlive : x.live = true)
    (hasm : x.asm = some asm) (d : Wire.Ts.Data) :
    Delivers id ((asm.add d.offset d.payload).toOption.map Prod.snd) c (exec (storeData id d) c) := by
  obtain ⟨t, ht, rfl⟩ := held_eq_some_iff.mp hx
  rw [storeData, exec_withTransfer ht]
  change t.asm = some asm at hasm
  rw [hasm]
  dsimp only
  cases asm.add d.offset d.payload with
  | error e => exact delivers_finish _
  | ok r =>
    obtain ⟨fresh, asm'⟩ := r
    dsimp only
    rw [exec_modify_bind]
    have hheld : (((c.store id asm' fresh d.payload.length t.repair).sampleProbe id
        (d.offset + d.payload.length) t).noteDelivered id fresh).held =
        (c.held.1, Function.update c.held.2 id ((c.held.2 id).map (Held.setAsm asm'))) := by
      rw [held_noteDelivered, held_sampleProbe, held_store]
    refine (delivers_afterData (x := t.held.setAsm asm') ?_ hlive rfl).of_setAsm hheld
    rw [hheld]
    dsimp only
    rw [Function.update_self, hx, Option.map_some]

/-- The reassembly of its transfer after a DATA packet, if the transfer takes it. -/
def Http4Client.stored (c : Http4Client) (d : Wire.Ts.Data) : Option Reassembly :=
  (c.held.2 d.rpcId).bind fun x => x.stored d

theorem delivers_handleData {d : Wire.Ts.Data} {x : Held} (hx : c.held.2 d.rpcId = some x)
    (hlive : x.live = true) (alloc : Bool) :
    Delivers d.rpcId (x.stored d) c (exec (handleData alloc d.rpcId d) c) := by
  obtain ⟨t, ht, rfl⟩ := held_eq_some_iff.mp hx
  rw [handleData, exec_withTransfer ht, Held.stored]
  change Delivers d.rpcId (match t.asm with | none => _ | some asm => _) c _
  cases hasm : t.asm with
  | none =>
    dsimp only
    cases alloc with
    | true =>
      rw [if_pos rfl, exec_modify_bind]
      have hheld := held_learnSize (c := c) d.rpcId d.totalSize t
      refine (delivers_storeData (x := t.held.setAsm (.new d.totalSize.toNat)) ?_ hlive rfl d).of_setAsm hheld
      rw [hheld]
      dsimp only
      rw [Function.update_self, hx, Option.map_some]
    | false => exact .calm (refl_of _ _) fun h => by cases h
  | some asm =>
    dsimp only
    by_cases hsize : d.totalSize = asm.size
    · rw [if_pos hsize, if_neg (not_not.mpr hsize)]
      exact delivers_storeData hx hlive hasm d
    · rw [if_neg hsize, if_pos hsize]
      exact delivers_finish _

theorem delivers_handlePacket (alloc : Bool) (d : Wire.Ts.Data) :
    Delivers d.rpcId (c.stored d) c (exec (handlePacket alloc (.data d)) c) := by
  cases ht : c.objects.get? d.rpcId with
  | none =>
    have hnone : c.objects.get? (Wire.Ts.Packet.data d).rpcId = none := ht
    rw [handlePacket, exec_withTransfer_of_none hnone]
    refine .calm (refl_of _ _) fun _ st hst => ?_
    obtain ⟨t, ht', -⟩ := streamOf_eq_some_iff.mp hst
    rw [ht] at ht'
    cases ht'
  | some t =>
    have ht' : c.objects.get? (Wire.Ts.Packet.data d).rpcId = some t := ht
    rw [handlePacket, exec_withTransfer ht']
    by_cases hlive : t.live = true
    · rw [if_neg (not_not.mpr hlive)]
      have hstored : c.stored d = t.held.stored d := by rw [Http4Client.stored, held_of_get? ht]; rfl
      rw [hstored]
      refine delivers_bind (keeps_held_noteReply t) fun _ s _ hs => delivers_handleData (x := t.held) ?_ hlive alloc
      rw [hs]
      exact held_of_get? ht
    · rw [if_pos hlive]
      refine .calm (refl_of _ _) fun _ st hst => ?_
      obtain ⟨u, hu, hlive', -⟩ := streamOf_eq_some_iff.mp hst
      obtain rfl := Option.some.inj (ht.symm.trans hu)
      exact absurd hlive' hlive

/-- **What handling DATA leads to.** -/
theorem delivers_handle {p : Wire.Ts.Packet} {d : Wire.Ts.Data} (hd : Carried (some p) d) (alloc : Bool) :
    Delivers d.rpcId (c.stored d) c (exec (handle alloc p) c) := by
  obtain hp | ⟨q, hq, rfl⟩ := hd
  · obtain rfl := Option.some.inj hp
    exact delivers_handlePacket alloc d
  · obtain rfl := Option.some.inj hq
    refine delivers_bind (keeps_held_noteSeq q) fun _ s _ hs => ?_
    have hstored : c.stored q.toData = s.stored q.toData := by rw [Http4Client.stored, Http4Client.stored, hs]
    rw [hstored]
    exact delivers_handlePacket alloc q.toData

end Functions

/-! ## Steps -/

namespace Http4Client

variable {c c' : Http4Client}

/-- What comes after the packet has been handled. -/
theorem turns_afterHandle {m : Js Unit} {r : Except Thrown Unit} {s : Http4Client} (hexec : exec m c = (r, s)) :
    Calm s (exec (tryCatch (do m; pumpGrants) readLoopCatch) c).2 := by
  have hpump : Calm s (exec pumpGrants s).2 := turns_of_keeps keeps_held_pumpGrants
  rw [exec_tryCatch, exec_bind, hexec]
  cases r with
  | error e => exact turns_readLoopCatch e
  | ok _ =>
    dsimp only
    rcases hexec' : exec pumpGrants s with ⟨r, u⟩
    rw [hexec'] at hpump
    cases r with
    | error e => exact trans_of _ hpump (turns_readLoopCatch e)
    | ok _ => exact hpump

/-- **A step flushes one live transfer at most**, and only if it brings DATA of it. -/
theorem step_delivers {a : Step} (h : c.step a = some c') :
    ∃ m, Calm m c' ∧ (m = c ∨ ∃ d asm, Carried a.event.packet d ∧ c.stored d = some asm ∧
      FlushesTo d.rpcId asm c m) := by
  rw [step] at h
  split_ifs at h with henabled
  obtain rfl := Option.some.inj h
  clear h
  let c₁ : Http4Client := { c with est := { c.est with elapse := a.elapse } }
  have helapse : Calm c c₁ := .of_held rfl
  by_cases hinc : ∃ id, Brings a.event.packet id
  · obtain ⟨_, d, hd, rfl⟩ := hinc
    cases hevent : a.event with
    | datagram b alloc =>
      rw [hevent] at hd
      change Carried (packetIn b) d at hd
      cases hb : Wire.Ts.decode b with
      | error e =>
        rw [packetIn, hb] at hd
        exact (not_brings_none ⟨d, hd, rfl⟩).elim
      | ok p =>
        rw [packetIn, hb] at hd
        have hread : readDatagram alloc b = (do handle alloc p; pumpGrants) := by rw [readDatagram, hb]
        change ∃ m, Calm m (exec (tryCatch (readDatagram alloc b) readLoopCatch) c₁).2 ∧ _
        rw [hread]
        have hdelivers := delivers_handle (c := c₁) hd alloc
        rcases hexec : exec (handle alloc p) c₁ with ⟨r, s⟩
        rw [hexec] at hdelivers
        cases hdelivers with
        | calm hturns =>
          exact ⟨c, trans_of _ helapse (trans_of _ hturns (turns_afterHandle hexec)), .inl rfl⟩
        | @flushed _ _ m asm hflush hstored hturns =>
          refine ⟨m, trans_of _ hturns (turns_afterHandle hexec), .inr ⟨d, asm, ?_, hstored, hflush.of_held rfl⟩⟩
          change Carried (packetIn b) d
          rw [packetIn, hb]
          exact hd
    | request | readDone | readRejected | tick | streamStarted | read | pullSettled | cancel | close
    | sessionEnded =>
      rw [hevent] at hd
      exact (not_brings_none ⟨d, hd, rfl⟩).elim
  · refine ⟨c, ?_, .inl rfl⟩
    exact (trans_of _ (.of_held rfl) (turns_code (enabled_elapse henabled a.elapse))).mono fun id =>
      ⟨fun hid => absurd ⟨id, hid⟩ hinc, fun _ => trivial⟩

end Http4Client

end Http4.Client
