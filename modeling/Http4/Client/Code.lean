import Http4.Client.Moves

/-!
# The client's functions as moves

Every function of `Transport.lean` is a sequence of moves. Whatever the code runs
into, a throw included, the state it leaves is reached by moves.

Main results:

* `follows_handle`, `follows_tick`, `follows_failAll`, …: one lemma for each function.
* `Http4Client.step_walk`: a step of the machine is a sequence of moves and of
  changes to the flags of the session.
* `Http4Client.invariant_of_moves`: what moves and flags preserve holds in every
  reachable state.
-/

namespace Http4.Client

open Routine Http4Client
open Wire.Ts (JsString)

/-! ## The functions -/

section Functions

variable {inc : Option Wire.Ts.Packet} {c : Http4Client} {R : Http4Client → Http4Client → Prop}

theorem follows_withTransfer [Std.Refl R] {id : ℤ} {k : Transfer → Js Unit}
    (h : ∀ t, c.objects.get? id = some t → Follows R (k t) c) : Follows R (withTransfer id k) c := by
  refine Follows.get_bind ?_
  cases ht : c.objects.get? id with
  | none => exact Follows.pure _
  | some t => exact h t ht

theorem exec_withTransfer {id : ℤ} {t : Transfer} (ht : c.objects.get? id = some t) (k : Transfer → Js Unit) :
    exec (withTransfer id k) c = exec (k t) c := by
  rw [withTransfer, exec_get_bind, ht]

theorem exec_withTransfer_of_none {id : ℤ} (hnone : c.objects.get? id = none) (k : Transfer → Js Unit) :
    exec (withTransfer id k) c = (.ok (), c) := by
  rw [withTransfer, exec_get_bind, hnone]
  rfl

theorem follows_performanceNow : Follows (Reaches inc) performanceNow c :=
  Follows.get_bind (Follows.modify_bind (Move.estimate _).reaches (Follows.pure _))

theorem follows_send {p : Outgoing} (h : Allowed c p) : Follows (Reaches inc) (send p) c := by
  refine Follows.modify_bind ((Move.hand p h).reaches.tail (.estimate _)) ?_
  cases p.encode with
  | none => exact Follows.throw _
  | some b => exact Follows.pure _

/-- `send` changes the histories only. -/
theorem keeps_send {α : Type} (f : Http4Client → α)
    (hf : ∀ (c : Http4Client) (p : Outgoing), f (c.hand p) = f c) (p : Outgoing) : Follows (Keeps f) (send p) c := by
  refine Follows.modify_bind (hf c _) ?_
  cases p.encode with
  | none => exact Follows.throw _
  | some b => exact Follows.pure _

theorem follows_sendHello : Follows (Reaches inc) sendHello c := by
  refine Follows.get_bind ?_
  split_ifs
  · exact Follows.pure _
  · exact Follows.modify_bind (Move.estimate _).reaches (follows_send .hello)

theorem follows_startProbe (id : ℤ) (t : Transfer) : Follows (Reaches inc) (startProbe id t) c := by
  rw [startProbe]
  cases t.progress.probe with
  | some _ => exact Follows.pure _
  | none => exact Follows.bind follows_performanceNow fun _ _ _ => Follows.modify (reaches_setProgress fun _ => le_rfl)

theorem follows_noteGrant (g : GrantDecision) : Follows (Reaches inc) (noteGrant g) c := by
  refine follows_withTransfer fun t _ => ?_
  split_ifs
  · exact Follows.bind (follows_startProbe _ _) fun _ _ _ => Follows.modify (reaches_setProgress fun _ => le_rfl)
  · exact Follows.pure _

theorem keeps_startProbe (id : ℤ) (t : Transfer) : Follows (Keeps scheduler) (startProbe id t) c := by
  rw [startProbe]
  cases t.progress.probe with
  | some _ => exact Follows.pure _
  | none =>
    have hnow : Follows (Keeps scheduler) performanceNow c :=
      Follows.get_bind (Follows.modify_bind rfl (Follows.pure _))
    exact Follows.bind hnow fun _ _ _ => Follows.modify rfl

theorem keeps_noteGrant (g : GrantDecision) : Follows (Keeps scheduler) (noteGrant g) c := by
  refine follows_withTransfer fun t _ => ?_
  split_ifs
  · exact Follows.bind (keeps_startProbe _ _) fun _ _ _ => Follows.modify rfl
  · exact Follows.pure _

theorem follows_sendGrant {g : GrantDecision} (hg : c.scheduler.granted g.rpcId = some g.maxOffset)
    (hpriority : g.priority ≤ 7) :
    Follows (Reaches inc) (sendGrant g) c ∧ (exec (sendGrant g) c).2.scheduler = c.scheduler := by
  constructor
  · refine Follows.bind (follows_noteGrant g) fun _ t hexec => ?_
    have hkeep : t.scheduler = c.scheduler := by
      have := keeps_noteGrant (c := c) g
      rwa [Follows, hexec] at this
    exact follows_send (.grant (by rw [hkeep, hg]; rfl) (.inl (by rw [hkeep, hg]; rfl)) hpriority)
  · exact Follows.bind (R := Keeps scheduler) (keeps_noteGrant g)
      fun _ _ _ => keeps_send scheduler (fun _ _ => rfl) _

theorem follows_pumpGrants : Follows (Reaches inc) pumpGrants c := by
  refine Follows.get_bind (Follows.modify_bind Move.pump.reaches (Follows.bind ?_ fun _ t _ => ?_))
  · -- no round of the loop changes the scheduler, so that each decision is what it has granted
    refine Follows.forM_of (I := fun s => s.scheduler =
      ((c.scheduler.setBudget c.budget.budget).grants c.reserved).2) rfl fun g hg s hs => ?_
    obtain ⟨e, he, -⟩ := SrptScheduler.exists_of_mem_grants hg
    have hgranted : s.scheduler.granted g.rpcId = some g.maxOffset := by
      rw [hs, SrptScheduler.granted, SrptScheduler.get?_grants_of_mem hg he]
      rfl
    obtain ⟨hfollows, hkeep⟩ : Follows (Reaches inc) (sendGrant g) s ∧ _ :=
      follows_sendGrant hgranted (SrptScheduler.priority_le_of_mem_grants hg)
    exact ⟨hfollows, hkeep.trans hs⟩
  · refine Follows.modify ?_
    split_ifs
    · exact (Move.budget _ t.budget.moves_noteLimited).reaches
    · exact Relation.ReflTransGen.refl

/-! ### Throws of `pumpGrants` -/

theorem blames_send {p : Outgoing} : Blames (fun _ s => s.Broken) (send p) c := by
  refine Blames.modify_bind ?_
  cases hp : p.encode with
  | none => exact Blames.throw ⟨p, List.mem_append_right _ (List.mem_singleton_self p), hp⟩
  | some b => exact Blames.pure _

theorem blames_withTransfer {E : Thrown → Http4Client → Prop} {id : ℤ} {k : Transfer → Js Unit}
    (h : ∀ t, c.objects.get? id = some t → Blames E (k t) c) : Blames E (withTransfer id k) c := by
  refine Blames.get_bind ?_
  cases ht : c.objects.get? id with
  | none => exact Blames.pure _
  | some t => exact h t ht

theorem blames_performanceNow {E : Thrown → Http4Client → Prop} : Blames E performanceNow c :=
  Blames.get_bind (Blames.modify_bind (Blames.pure _))

theorem blames_startProbe {E : Thrown → Http4Client → Prop} (id : ℤ) (t : Transfer) :
    Blames E (startProbe id t) c := by
  rw [startProbe]
  cases t.progress.probe with
  | some _ => exact Blames.pure _
  | none => exact Blames.bind blames_performanceNow fun _ _ _ => Blames.modify _

theorem blames_noteGrant {E : Thrown → Http4Client → Prop} (g : GrantDecision) :
    Blames E (noteGrant g) c := by
  refine blames_withTransfer fun t _ => ?_
  split_ifs
  · exact Blames.bind (blames_startProbe _ _) fun _ _ _ => Blames.modify _
  · exact Blames.pure _

theorem blames_sendGrant (g : GrantDecision) : Blames (fun _ s => s.Broken) (sendGrant g) c :=
  Blames.bind (blames_noteGrant g) fun _ _ _ => blames_send

theorem blames_pumpGrants : Blames (fun _ s => s.Broken) pumpGrants c :=
  Blames.get_bind (Blames.modify_bind (Blames.bind
    (Blames.forM_of (I := fun _ => True) trivial fun g _ _ _ => ⟨blames_sendGrant g, trivial⟩)
    fun _ _ _ => Blames.modify _))

/-! ### Streams -/

theorem follows_pull (id : ℤ) : Follows (Reaches inc) (pull id) c := by
  refine follows_withTransfer fun t ht => ?_
  split_ifs with hpaused
  · obtain ⟨st, hst, -⟩ := (Option.any_eq_true _ _).mp hpaused
    refine Follows.modify_bind ?_ follows_pumpGrants
    have hmove : Move inc c _ := .change id t _ _ ht (.unpause st hst)
    rw [setStream, setTransfer_of_some ht]
    simpa only [hst, Option.map_some] using hmove.reaches
  · exact Follows.pure _

theorem blames_pull (id : ℤ) : Blames (fun _ s => s.Broken) (pull id) c := by
  refine blames_withTransfer fun t _ => ?_
  split_ifs
  · exact Blames.modify_bind blames_pumpGrants
  · exact Blames.pure _

theorem follows_callPullIfNeeded (id : ℤ) : Follows (Reaches inc) (callPullIfNeeded id) c := by
  have hbody (c : Http4Client) {f : StreamState → StreamState} (h : ∀ st, SameStream st (f st)) :
      Reaches inc c (c.setStream id f) := reaches_setStream fun _ st _ _ => .body (h st)
  refine follows_withTransfer fun t _ => ?_
  cases t.stream with
  | none => exact Follows.pure _
  | some st =>
    dsimp only
    split_ifs
    · exact Follows.modify (hbody c fun _ => ⟨rfl, rfl, rfl, rfl, rfl, .inl rfl, rfl⟩)
    · refine Follows.modify_bind (hbody c fun _ => ⟨rfl, rfl, rfl, rfl, rfl, .inl rfl, rfl⟩) ?_
      refine Follows.tryCatch (follows_pull id) fun e s hexec => Follows.modify ?_
      exact reaches_setStream fun _ _ _ _ => .pullFailed (blames_pull id e s hexec)
    · exact Follows.pure _

/-- The stream that a reference read from the state points to. -/
theorem eq_of_stream {id : ℤ} {t t' : Transfer} {st st' : StreamState} (ht : c.objects.get? id = some t)
    (hst : t.stream = some st) (ht' : c.objects.get? id = some t') (hst' : t'.stream = some st') :
    t' = t ∧ st' = st := by
  obtain rfl := Option.some.inj (ht'.symm.trans ht)
  exact ⟨rfl, Option.some.inj (hst'.symm.trans hst)⟩

section Flush

variable {id : ℤ} {t : Transfer} {st : StreamState} {asm : Reassembly}

theorem follows_enqueue (ht : c.objects.get? id = some t) (hst : t.stream = some st)
    (hasm : t.asm = some asm) (hopen : st.closed = false) :
    Follows (Reaches inc) (enqueue id asm.contiguous (Bytes.sub asm.bytes st.emitted asm.contiguous) st) c := by
  rw [enqueue]
  split_ifs with hbody
  · refine Follows.modify_bind (reaches_setStream fun t' st' ht' hst' => ?_) (follows_callPullIfNeeded id)
    obtain ⟨rfl, rfl⟩ := eq_of_stream ht hst ht' hst'
    exact .enqueue asm hasm hopen hbody
  · refine Follows.modify_bind (reaches_setStream fun t' st' ht' hst' => ?_) (Follows.throw _)
    obtain ⟨rfl, rfl⟩ := eq_of_stream ht hst ht' hst'
    exact .skip _ (Bool.eq_false_of_not_eq_true hbody)

theorem follows_pauseIfBehind (h : Sized id c) : Follows (Reaches inc) (pauseIfBehind id) c := by
  obtain ⟨t₀, asm, ht₀, hasm⟩ := h
  refine follows_withTransfer fun t ht => ?_
  obtain rfl := Option.some.inj (ht.symm.trans ht₀)
  cases hst : t.stream with
  | none => exact Follows.pure _
  | some st =>
    dsimp only
    split_ifs
    · refine Follows.modify ?_
      have hmove : Move inc c _ := .change id t _ _ ht (.pause asm st hasm hst)
      rw [setStream, setTransfer_of_some ht]
      simpa only [hst, Option.map_some] using hmove.reaches
    · exact Follows.pure _

/-- A routine that moves keeps what moves keep. -/
theorem exec_preserves {α : Type} {m : Js α} {P : Http4Client → Prop}
    (hmove : ∀ c c', P c → Move inc c c' → P c') (hm : Follows (Reaches inc) m c) (hc : P c) :
    P (exec m c).2 :=
  Reaches.preserves hmove hm hc

/-- The same for its end when it returns. -/
theorem preserves_of_exec {α : Type} {m : Js α} {a : α} {s : Http4Client} {P : Http4Client → Prop}
    (hmove : ∀ c c', P c → Move inc c c' → P c') (hm : Follows (Reaches inc) m c)
    (hexec : exec m c = (.ok a, s)) (hc : P c) : P s := by
  have := exec_preserves hmove hm hc
  rwa [hexec] at this

theorem follows_flushStream : Follows (Reaches inc) (flushStream id) c := by
  refine follows_withTransfer fun t ht => ?_
  cases hst : t.stream with
  | none => exact Follows.pure _
  | some st =>
    cases hasm : t.asm with
    | none => exact Follows.pure _
    | some asm =>
      dsimp only
      split_ifs with hclosed hpending
      · exact Follows.pure _
      · have henqueue : Follows (Reaches inc) (enqueue id asm.contiguous
            (Bytes.sub asm.bytes st.emitted asm.contiguous) st) c :=
          follows_enqueue ht hst hasm (Bool.eq_false_of_not_eq_true hclosed)
        refine Follows.bind henqueue fun _ s hexec => follows_pauseIfBehind ?_
        exact preserves_of_exec (fun _ _ => Sized.move) henqueue hexec ⟨t, asm, ht, hasm⟩
      · exact Follows.bind (Follows.pure _) fun _ s hexec => by
          cases hexec
          exact follows_pauseIfBehind ⟨t, asm, ht, hasm⟩

theorem flushed_setStream (ht : c.objects.get? id = some t) (hst : t.stream = some st)
    (hlive : t.live = false) {f : StreamState → StreamState}
    (hf : ∀ asm, t.asm = some asm →
      (f st).closed = true ∨ (f st).body.canEnqueue = false ∨ asm.contiguous ≤ (f st).emitted) :
    Flushed id (c.setStream id f) := by
  refine ⟨{ t with stream := t.stream.map f }, ?_, hlive, fun st' asm hst' => ?_⟩
  · change (c.objects.modify id _).get? id = _
    rw [OrderedMap.get?_modify, if_pos rfl, ht]
    rfl
  · rw [hst] at hst'
    obtain rfl := Option.some.inj hst'
    exact hf asm

theorem flushed_enqueue (ht : c.objects.get? id = some t) (hst : t.stream = some st)
    (hlive : t.live = false) (hasm : t.asm = some asm) {chunk : Bytes} {a : Unit} {s : Http4Client}
    (hexec : exec (enqueue id asm.contiguous chunk st) c = (.ok a, s)) : Flushed id s := by
  rw [enqueue] at hexec
  split_ifs at hexec with hbody
  · -- what is enqueued ends where the gap-free prefix does
    rw [exec_modify_bind] at hexec
    refine preserves_of_exec (fun _ _ => Flushed.move) (follows_callPullIfNeeded id : Follows (Reaches none) _ _) hexec
      (flushed_setStream ht hst hlive fun asm' hasm' => ?_)
    obtain rfl := Option.some.inj (hasm.symm.trans hasm')
    exact .inr (.inr le_rfl)
  · cases hexec

/-- A transfer that has every byte has none left to hand over when `flushStream` returns. -/
theorem flushed_flushStream {a : Unit} {s : Http4Client} (h : Closing id c)
    (hexec : exec (flushStream id) c = (.ok a, s)) : Flushed id s := by
  obtain ⟨t, ht, hlive, ⟨asm, hasm, hcomplete⟩, -⟩ := h
  rw [flushStream, exec_withTransfer ht] at hexec
  have hflushed {s : Http4Client} (hs : Flushed id s) (hsized : Sized id s) {a : Unit} {u : Http4Client}
      (hpause : exec (pauseIfBehind id) s = (.ok a, u)) : Flushed id u :=
    preserves_of_exec (fun _ _ => Flushed.move) (follows_pauseIfBehind hsized : Follows (Reaches none) _ _) hpause hs
  cases hst : t.stream with
  | none =>
    rw [hst] at hexec
    cases hexec
    exact ⟨t, ht, hlive, fun st _ heq => by rw [hst] at heq; cases heq⟩
  | some st =>
    rw [hst, hasm] at hexec
    dsimp only at hexec
    have hstays (hdone : st.closed = true ∨ st.body.canEnqueue = false ∨ asm.contiguous ≤ st.emitted) :
        Flushed id c := by
      refine ⟨t, ht, hlive, fun st' asm' hst' hasm' => ?_⟩
      obtain rfl := Option.some.inj (hst.symm.trans hst')
      obtain rfl := Option.some.inj (hasm.symm.trans hasm')
      exact hdone
    split_ifs at hexec with hclosed hpending
    · cases hexec
      exact hstays (.inl hclosed)
    · obtain ⟨_, u, henqueue, hpause⟩ := exec_bind_eq_ok_iff.mp hexec
      refine hflushed (flushed_enqueue ht hst hlive hasm henqueue) ?_ hpause
      have hfollows : Follows (Reaches none) (enqueue id asm.contiguous
          (Bytes.sub asm.bytes st.emitted asm.contiguous) st) c :=
        follows_enqueue ht hst hasm (Bool.eq_false_of_not_eq_true hclosed)
      exact preserves_of_exec (fun _ _ => Sized.move) hfollows henqueue ⟨t, asm, ht, hasm⟩
    · have hle : asm.contiguous ≤ st.emitted := by
        simp only [hcomplete, or_true, and_true] at hpending
        omega
      exact hflushed (hstays (.inr (.inr hle))) ⟨t, asm, ht, hasm⟩ hexec

end Flush

/-! ### The end of a transfer -/

theorem follows_maybeStart (id : ℤ) : Follows (Reaches inc) (maybeStart id) c := by
  refine follows_withTransfer fun t ht => ?_
  cases hst : t.stream with
  | none => exact Follows.pure _
  | some st =>
    cases hasm : t.asm with
    | none => exact Follows.pure _
    | some asm =>
      cases hheaders : t.headers with
      | none => exact Follows.pure _
      | some headers =>
        dsimp only
        split_ifs with hsettled
        · exact Follows.pure _
        · refine Follows.modify (reaches_setTransfer fun t' ht' => .inr ?_)
          obtain rfl := Option.some.inj (ht.symm.trans ht')
          exact .settle _ (Bool.eq_false_of_not_eq_true hsettled) (.stream hst hasm hheaders) fun _ he => by cases he

theorem follows_remove {id : ℤ} (h : Known id c) : Follows (Reaches inc) (remove id) c := by
  obtain ⟨t, ht⟩ := h
  refine Follows.modify ?_
  rw [setTransfer_of_some ht]
  exact (Move.change id t _ _ ht .remove).reaches

theorem follows_drop {id : ℤ} (h : Known id c) : Follows (Reaches inc) (drop id) c :=
  Follows.bind (follows_remove h) fun _ _ _ => follows_pumpGrants

theorem follows_endStream {id : ℤ} {err : Option Failure}
    (h : err = none → Closing id c ∧ Flushed id c) : Follows (Reaches inc) (endStream id err) c := by
  refine follows_withTransfer fun t ht => ?_
  cases hst : t.stream with
  | none => exact Follows.pure _
  | some st =>
    dsimp only
    by_cases hclosed : st.closed = true
    · rw [if_pos hclosed]
      exact Follows.pure _
    rw [if_neg hclosed]
    cases err with
    | some e => exact Follows.modify (reaches_setStream fun _ _ _ _ => .error)
    | none =>
      obtain ⟨⟨t₁, ht₁, -, hdone⟩, t₂, ht₂, -, hall⟩ := h rfl
      obtain rfl := Option.some.inj (ht.symm.trans ht₁)
      obtain rfl := Option.some.inj (ht.symm.trans ht₂)
      obtain ⟨asm, hasm, -⟩ := hdone.1
      dsimp only
      split_ifs with hbody
      · refine Follows.modify (reaches_setStream fun t' st' ht' hst' => ?_)
        obtain ⟨rfl, rfl⟩ := eq_of_stream ht hst ht' hst'
        rcases hall st' asm hst hasm with hclosed' | hbody' | hle
        · exact absurd hclosed' hclosed
        · rw [hbody] at hbody'; cases hbody'
        · exact .close asm hdone hasm hle hbody
      · refine Follows.modify_bind (reaches_setStream fun t' st' ht' hst' => ?_) (Follows.throw _)
        obtain ⟨rfl, rfl⟩ := eq_of_stream ht hst ht' hst'
        exact .drop (Bool.eq_false_of_not_eq_true hbody)

theorem follows_settle {id : ℤ} {err : Option Failure} (h : err = none → Closing id c)
    (hdue : ∀ e, err = some e → Due id e c) : Follows (Reaches inc) (settle id err) c := by
  refine follows_withTransfer fun t ht => ?_
  split_ifs with hsettled
  · exact Follows.pure _
  have hsettle {x : Settlement} (hx : t.settlement err = some x) (hok : Settles t x)
      (hstalled : ∀ e, x = .rejected e → t.Stalled c.opts.recoveryLimit e) :
      Follows (Reaches inc) (modify fun c => c.setTransfer id fun t =>
        { t with settled := true, settlements := t.settlements ++ (t.settlement err).toList } : Js Unit) c := by
    refine Follows.modify (reaches_setTransfer fun t' ht' => .inr ?_)
    obtain rfl := Option.some.inj (ht.symm.trans ht')
    rw [hx]
    exact .settle x (Bool.eq_false_of_not_eq_true hsettled) hok hstalled
  cases err with
  | some e =>
    refine hsettle rfl (.rejected e) fun e' he' => ?_
    obtain rfl := Settlement.rejected.inj he'
    obtain ⟨t', ht', hstalled⟩ := hdue e rfl
    obtain rfl := Option.some.inj (ht.symm.trans ht')
    exact hstalled
  | none =>
    obtain ⟨t₁, ht₁, -, ⟨asm, hasm, hcomplete⟩, hheaders⟩ := h rfl
    obtain rfl := Option.some.inj (ht.symm.trans ht₁)
    obtain ⟨headers, hheaders⟩ := Option.isSome_iff_exists.mp hheaders
    cases hst : t.stream with
    | none =>
      exact hsettle (by rw [Transfer.settlement, hst, hasm, hheaders])
        (.response hst hasm hcomplete hheaders) fun _ he => by cases he
    | some st =>
      exact hsettle (by rw [Transfer.settlement, hst, hasm, hheaders]) (.stream hst hasm hheaders)
        fun _ he => by cases he

/-- Once it is removed, the transfer may be rejected with the error, if there is one. -/
def Rejectable (id : ℤ) (err : Option Failure) (c : Http4Client) : Prop :=
  ∀ e t, err = some e → c.objects.get? id = some t → { t with live := false }.Stalled c.opts.recoveryLimit e

theorem Rejectable.none {id : ℤ} : Rejectable id .none c := fun _ _ h => by cases h

theorem Rejectable.of_forall {id : ℤ} {err : Failure} (herr : ∀ limit t, Transfer.Stalled limit t err) :
    Rejectable id (some err) c :=
  fun _ _ h _ => Option.some.inj h ▸ herr _ _

theorem follows_finish {id : ℤ} {err : Option Failure} (h : Known id c)
    (hdone : err = none → ∃ t, c.objects.get? id = some t ∧ t.Complete) (hdue : Rejectable id err c) :
    Follows (Reaches inc) (finish id err) c := by
  have hremove : Follows (Reaches inc) (remove id) c := follows_remove h
  refine Follows.bind hremove fun _ s hexec => ?_
  have hdue' (e : Failure) (he : err = some e) : Due id e s := by
    obtain ⟨t, ht⟩ := h
    cases hexec
    refine ⟨{ t with live := false }, ?_, hdue e t he ht⟩
    change (c.objects.modify id _).get? id = _
    rw [OrderedMap.get?_modify, if_pos rfl, ht]
    rfl
  have hclosing : err = none → Closing id s := by
    intro herr
    obtain ⟨t, ht, hcomplete⟩ := hdone herr
    cases hexec
    refine ⟨{ t with live := false }, ?_, rfl, hcomplete⟩
    change (c.objects.modify id _).get? id = _
    rw [OrderedMap.get?_modify, if_pos rfl, ht]
    rfl
  have hflush : Follows (Reaches inc) (if err.isNone then flushStream id else pure ()) s := by
    split_ifs
    · exact follows_flushStream
    · exact Follows.pure _
  refine Follows.bind hflush fun _ u hexec' => ?_
  have hended : err = none → Closing id u ∧ Flushed id u := by
    intro herr
    refine ⟨preserves_of_exec (fun _ _ => Closing.move) hflush hexec' (hclosing herr), ?_⟩
    rw [if_pos (by rw [herr]; rfl)] at hexec'
    exact flushed_flushStream (hclosing herr) hexec'
  have hend : Follows (Reaches inc) (endStream id err) _ := follows_endStream hended
  refine Follows.bind hend fun _ v hexec'' => ?_
  refine Follows.bind (follows_settle (fun herr => ?_) fun e he => ?_) fun _ _ _ => follows_pumpGrants
  · exact preserves_of_exec (fun _ _ => Closing.move) hend hexec'' (hended herr).1
  · exact preserves_of_exec (fun _ _ => Due.move) hend hexec''
      (preserves_of_exec (fun _ _ => Due.move) hflush hexec' (hdue' e he))

theorem known_of_mem_transfers {id : ℤ} (h : id ∈ c.transfers) : Known id c := by
  obtain ⟨e, he, rfl⟩ := List.mem_map.mp h
  exact ⟨e.2, OrderedMap.get?_eq_some_iff.mpr (List.mem_of_mem_filter he)⟩

theorem follows_failAll (err : Failure) (herr : ∀ limit t, Transfer.Stalled limit t err) :
    Follows (Reaches inc) (failAll err) c := by
  refine Follows.get_bind (Follows.bind ?_ fun _ _ _ => Follows.modify (Move.ticker _).reaches)
  refine Follows.forM_of (I := fun s => ∀ id ∈ c.transfers, Known id s)
    (fun id hid => known_of_mem_transfers hid) fun id hid s hs => ?_
  have hfinish : Follows (Reaches inc) (finish id (some err)) s :=
    follows_finish (hs id hid) (fun h => by cases h) (.of_forall herr)
  exact ⟨hfinish, fun id' hid' => exec_preserves (fun _ _ => Known.move) hfinish (hs id' hid')⟩

/-! ### Loss recovery -/

theorem exists_pending_of_mem_claim {r : RepairTracker} {asm : Reassembly} {gaps : List (Range ℚ)}
    {now delayMs : ℚ} {g : Range ℚ} (hg : g ∈ (r.claim asm gaps now delayMs).1) :
    ∃ p ∈ (r.claim asm gaps now delayMs).2.pending, p.range = g :=
  ⟨{ range := g, due := now + delayMs },
    List.mem_mergeSort.mpr (List.mem_append_right _ (List.mem_map_of_mem hg)), rfl⟩

section Recovery

variable {id : ℤ} {t : Transfer} {asm : Reassembly} {repair : RepairTracker} {now g : ℚ}

/-- A part of the state that `sendResends` leaves, as it sets trackers and sends. -/
theorem keeps_sendResends {α : Type} (f : Http4Client → α)
    (hf : ∀ (c : Http4Client) (p : Outgoing), f (c.hand p) = f c)
    (hrepair : ∀ (c : Http4Client) r, f (c.setTransfer id fun t => { t with repair := some r }) = f c)
    (r : List (Range ℚ) × RepairTracker) : Follows (Keeps f) (sendResends id r) c :=
  Follows.modify_bind (hrepair c _) (Follows.forM fun _ _ _ => keeps_send f hf _)

theorem follows_sendResends {before : RepairTracker} {gaps : List (Range ℚ)} {delayMs : ℚ}
    (ht : c.objects.get? id = some t) (hasm : t.asm = some asm) (hrepair : t.repair = some repair)
    (hbefore : before.pending = repair.pending) (hgaps : Asked c id asm gaps) :
    Follows (Reaches inc) (sendResends id (before.claim asm gaps now delayMs)) c := by
  let r := before.claim asm gaps now delayMs
  refine Follows.modify_bind (reaches_setTransfer fun t' ht' => .inr ?_) ?_
  · obtain rfl := Option.some.inj (ht.symm.trans ht')
    exact .claim asm repair before gaps now delayMs hasm hrepair hbefore hgaps
  · -- what is sent is pending from now on
    refine Follows.forM_of (I := fun s => s.objects.get? id = some { t with repair := some r.2 })
      ?_ fun q hq s hs => ?_
    · change (c.objects.modify id _).get? id = _
      rw [OrderedMap.get?_modify, if_pos rfl, ht]
      rfl
    · obtain ⟨p, hp, rfl⟩ := exists_pending_of_mem_claim hq
      refine ⟨follows_send (.resend hs rfl hp), ?_⟩
      have := keeps_send (c := s) Http4Client.objects (fun _ _ => rfl) (.resend id p.range)
      rwa [← this] at hs

theorem follows_detectLoss : Follows (Reaches inc) (detectLoss id now) c := by
  refine Follows.modify_bind (reaches_setProgress fun _ => le_rfl) (Follows.get_bind (follows_withTransfer fun t ht => ?_))
  cases hasm : t.asm with
  | none => exact Follows.pure _
  | some asm =>
    cases hrepair : t.repair with
    | none => exact Follows.pure _
    | some repair =>
      dsimp only
      split_ifs with hearly hlimit
      · exact Follows.pure _
      · exact Follows.pure _
      · rw [not_or, not_not] at hearly
        exact follows_sendResends ht hasm hrepair rfl (.early _ List.filter_sublist hearly.1)

theorem follows_sendResendSeqs {rs : List (Range ℤ)} (hne : ∀ r ∈ rs, r.start < r.stop)
    (h : ∀ n ∈ rs.flatMap numbers, c.seq.claimed.has n) : Follows (Reaches inc) (sendResendSeqs rs) c := by
  refine Follows.forM_of (I := fun s => s.seq = c.seq) rfl fun r hr s hs => ⟨?_, ?_⟩
  · refine follows_send (.resendSeq (hne r hr) fun n hn => ?_)
    rw [hs]
    exact h n (List.mem_flatMap.mpr ⟨r, hr, hn⟩)
  · exact Eq.trans (keeps_send (c := s) Http4Client.seq (fun _ _ => rfl) _) hs

theorem follows_detectSeqLoss : Follows (Reaches inc) (detectSeqLoss now) c := by
  refine Follows.modify_bind (Move.estimate _).reaches (Follows.get_bind ?_)
  refine Follows.ite (fun _ => Follows.pure _) fun _ => ?_
  refine Follows.modify_bind (Move.detect _ _ _ _).reaches (Follows.bind ?_ fun _ _ _ => ?_)
  · exact follows_sendResendSeqs (ranges_nonempty _ _) fun _ hn => SeqTracker.has_claimed_of_mem_detect hn
  · refine Follows.get_bind (Follows.modify_bind (Move.repeats _ _ _).reaches ?_)
    exact follows_sendResendSeqs (ranges_nonempty _ _) fun _ hn => SeqTracker.has_claimed_of_mem_repeats hn

theorem follows_resendReq : Follows (Reaches inc) (resendReq id) c := by
  refine follows_withTransfer fun t ht => ?_
  split_ifs
  · refine Follows.modify_bind (reaches_setProgress fun _ => le_rfl) ?_
    have ht' : (c.setProgress id fun p => { p with reqRetransmitted := true }).objects.get? id =
        some { t with progress := { t.progress with reqRetransmitted := true } } := by
      change (c.objects.modify id _).get? id = _
      rw [OrderedMap.get?_modify, if_pos rfl, ht]
      rfl
    have hreq := Allowed.req ht'
    exact follows_send hreq
  · exact Follows.pure _

theorem follows_resendGrant (hg : Sized id c → (c.scheduler.granted id).getD 0 = g) :
    Follows (Reaches inc) (resendGrant id g now) c := by
  refine follows_withTransfer fun t ht => ?_
  cases hasm : t.asm with
  | none => exact Follows.pure _
  | some asm =>
    cases hrepair : t.repair with
    | none => exact Follows.pure _
    | some repair =>
      obtain rfl := hg ⟨t, asm, ht, hasm⟩
      let g := (c.scheduler.granted id).getD 0
      have hsend : Follows (Reaches inc)
          (if g > t.initialGrant then send (.grant id g 0) else pure () : Js Unit) c := by
        split_ifs
        · exact follows_send (.grant rfl (.inr (by rw [ht]; rfl)) (Nat.zero_le 7))
        · exact Follows.pure _
      have hkeep : Follows (Keeps fun c : Http4Client => (c.objects, c.scheduler))
          (if g > t.initialGrant then send (.grant id g 0) else pure () : Js Unit) c := by
        split_ifs
        · exact keeps_send _ (fun _ _ => rfl) _
        · exact Follows.pure _
      refine Follows.bind hsend fun _ s hexec => Follows.get_bind ?_
      rw [Follows, hexec] at hkeep
      obtain ⟨hobjects, hscheduler⟩ := Prod.ext_iff.mp hkeep
      change s.objects = c.objects at hobjects
      change s.scheduler = c.scheduler at hscheduler
      refine follows_sendResends (by rw [hobjects]; exact ht) hasm hrepair rfl ?_
      rw [← hscheduler]
      exact .stall

/-- What a routine that only times, sends and sets trackers leaves as it is. -/
def view (id : ℤ) (c : Http4Client) : SrptScheduler × Option (Option Reassembly) :=
  (c.scheduler, (c.objects.get? id).map Transfer.asm)

/-- The grant that `tick` has read is that of the scheduler still. -/
def GrantIs (id : ℤ) (g : ℚ) (c : Http4Client) : Prop := Sized id c → (c.scheduler.granted id).getD 0 = g

theorem GrantIs.congr {s : Http4Client} (h : GrantIs id g c) (hview : view id s = view id c) :
    GrantIs id g s := by
  obtain ⟨hscheduler, hasm⟩ := Prod.ext_iff.mp hview
  rintro ⟨t, asm, ht, hsized⟩
  change s.scheduler = c.scheduler at hscheduler
  change (s.objects.get? id).map Transfer.asm = (c.objects.get? id).map Transfer.asm at hasm
  rw [ht, Option.map_some, hsized] at hasm
  obtain ⟨t', ht', hsized'⟩ := Option.map_eq_some_iff.mp hasm.symm
  rw [hscheduler]
  exact h ⟨t', asm, ht', hsized'⟩

theorem GrantIs.of_exec {α : Type} {m : Js α} {a : α} {s : Http4Client} (h : GrantIs id g c)
    (hkeep : Follows (Keeps (view id)) m c) (hexec : exec m c = (.ok a, s)) : GrantIs id g s := by
  rw [Follows, hexec] at hkeep
  exact h.congr hkeep

/-- A change to a transfer that leaves its reassembly. -/
theorem view_setTransfer (id' : ℤ) {f : Transfer → Transfer} (hf : ∀ t, (f t).asm = t.asm) :
    view id (c.setTransfer id' f) = view id c := by
  refine Prod.ext rfl ?_
  change ((c.objects.modify id' f).get? id).map Transfer.asm = (c.objects.get? id).map Transfer.asm
  rw [OrderedMap.get?_modify]
  split_ifs
  · rw [Option.map_map]
    exact congrArg (Option.map · _) (funext hf)
  · rfl

theorem keeps_view_sendResends (r : List (Range ℚ) × RepairTracker) :
    Follows (Keeps (view id)) (sendResends id r) c :=
  keeps_sendResends (view id) (fun _ _ => rfl) (fun _ _ => view_setTransfer id fun _ => rfl) r

theorem keeps_view_resendReq : Follows (Keeps (view id)) (resendReq id) c := by
  refine follows_withTransfer fun t _ => ?_
  split_ifs
  · exact Follows.modify_bind (view_setTransfer id fun _ => rfl) (keeps_send _ (fun _ _ => rfl) _)
  · exact Follows.pure _

theorem follows_tailProbe (hg : GrantIs id g c) : Follows (Reaches inc) (tailProbe id g now) c := by
  refine follows_withTransfer fun t ht => Follows.get_bind ?_
  cases hasm : t.asm with
  | none => exact Follows.pure _
  | some asm =>
    cases hrepair : t.repair with
    | none => exact Follows.pure _
    | some repair =>
      cases c.est.srtt with
      | none => exact Follows.pure _
      | some srtt =>
        dsimp only
        split_ifs with hprobe
        · refine Follows.modify_bind (reaches_setProgress fun _ => le_rfl) ?_
          obtain rfl := hg ⟨t, asm, ht, hasm⟩
          have ht' : (c.setProgress id fun p => { p with tailProbed := true }).objects.get? id =
              some { t with progress := { t.progress with tailProbed := true } } := by
            change (c.objects.modify id _).get? id = _
            rw [OrderedMap.get?_modify, if_pos rfl, ht]
            rfl
          exact follows_sendResends ht' hasm hrepair rfl (.probe hprobe.2.2.1)
        · exact Follows.pure _

theorem keeps_view_tailProbe : Follows (Keeps (view id)) (tailProbe id g now) c := by
  refine follows_withTransfer fun t _ => Follows.get_bind ?_
  cases t.asm with
  | none => exact Follows.pure _
  | some asm =>
    cases t.repair with
    | none => exact Follows.pure _
    | some repair =>
      cases c.est.srtt with
      | none => exact Follows.pure _
      | some srtt =>
        dsimp only
        split_ifs
        · exact Follows.modify_bind (view_setTransfer id fun _ => rfl) (keeps_view_sendResends _)
        · exact Follows.pure _

theorem reaches_lossBackoff : Reaches inc c (c.lossBackoff now) := by
  rw [lossBackoff]
  split_ifs
  · exact (Move.estimate _).reaches.tail (.budget _ (c.budget.moves_onLoss now))
  · exact Relation.ReflTransGen.refl

theorem reaches_backoffInitialRto : Reaches inc c (c.backoffInitialRto now) := by
  rw [backoffInitialRto]
  split_ifs
  · exact (Move.estimate _).reaches
  · exact Relation.ReflTransGen.refl

theorem view_backoff : view id ((c.lossBackoff now).backoffInitialRto now) = view id c := by
  have hloss : view id (c.lossBackoff now) = view id c := by
    rw [lossBackoff]
    split_ifs <;> rfl
  rw [← hloss, backoffInitialRto]
  split_ifs <;> rfl

/-- Giving up comes after more attempts than the options allow. -/
theorem rejectable_recover {t : Transfer} (ht : c.objects.get? id = some t)
    (hlimit : t.progress.recoveries + 1 > c.opts.recoveryLimit) :
    Rejectable id
      (some (.noProgress t.assetId c.opts.recoveryLimit (t.asm.map fun asm => (asm.received, asm.size))))
      (c.setProgress id fun p => { p with recoveries := p.recoveries + 1 }) := by
  intro e t' he ht'
  obtain rfl := Option.some.inj he
  change (c.objects.modify id _).get? id = _ at ht'
  rw [OrderedMap.get?_modify, if_pos rfl, ht] at ht'
  obtain rfl := Option.some.inj ht'
  exact ⟨rfl, rfl, rfl, by exact_mod_cast hlimit, rfl⟩

theorem follows_recover (hg : GrantIs id g c) : Follows (Reaches inc) (recover id g now) c := by
  refine follows_withTransfer fun t ht => Follows.get_bind
    (Follows.modify_bind (reaches_setProgress fun _ => Nat.le_succ _) ?_)
  have hview (c : Http4Client) (f : Progress → Progress) : view id (c.setProgress id f) = view id c :=
    view_setTransfer id fun _ => rfl
  split_ifs with hlimit
  · refine follows_finish ?_ (fun h => by cases h) (rejectable_recover ht hlimit)
    exact Reaches.preserves (fun _ _ => Known.move)
      (reaches_setProgress fun _ => Nat.le_succ _ : Reaches inc c _) ⟨t, ht⟩
  · refine Follows.modify_bind (reaches_lossBackoff.trans reaches_backoffInitialRto)
      (Follows.modify_bind (reaches_setProgress fun _ => le_rfl) ?_)
    refine Follows.bind follows_resendReq fun _ s hexec => follows_resendGrant ?_
    exact (hg.congr ((hview _ _).trans (view_backoff.trans (hview _ _)))).of_exec keeps_view_resendReq hexec

theorem follows_recoverIfStalled (hg : GrantIs id g c) :
    Follows (Reaches inc) (recoverIfStalled id g now) c := by
  refine follows_withTransfer fun t _ => Follows.get_bind ?_
  exact Follows.ite (fun _ => follows_recover hg) fun _ => Follows.pure _

theorem follows_tickTransfer : Follows (Reaches inc) (tickTransfer now id) c := by
  refine Follows.bind (follows_withTransfer fun t _ => ?_) fun _ s _ => ?_
  · split_ifs
    · exact follows_detectLoss
    · exact Follows.pure _
  · refine follows_withTransfer fun t ht => Follows.get_bind ?_
    dsimp only
    split_ifs
    · exact Follows.modify (reaches_setProgress fun _ => le_rfl)
    · have hg : GrantIs id (s.grantedOf id t) s := by
        rintro ⟨t', asm, ht', hasm⟩
        obtain rfl := Option.some.inj (ht.symm.trans ht')
        rw [grantedOf, hasm]
        rfl
      refine Follows.bind (follows_tailProbe hg) fun _ u hexec => ?_
      exact follows_recoverIfStalled (hg.of_exec keeps_view_tailProbe hexec)

theorem follows_tick : Follows (Reaches inc) tick c := by
  refine Follows.bind follows_performanceNow fun now s _ => Follows.get_bind (Follows.bind ?_ fun _ s _ => ?_)
  · split_ifs
    · exact follows_detectSeqLoss
    · exact Follows.pure _
  · refine Follows.get_bind (Follows.bind (Follows.forM fun _ _ _ => follows_tickTransfer) fun _ s _ => ?_)
    refine Follows.modify ?_
    split_ifs
    · exact (Move.ticker _).reaches
    · exact Relation.ReflTransGen.refl

end Recovery

/-! ### Incoming packets -/

section Packets

variable {id : ℤ} {now : ℚ}

theorem reaches_noteSpurious : Reaches inc c (c.noteSpurious now) := by
  rw [noteSpurious]
  split_ifs
  · exact (Move.estimate _).reaches
  · exact Relation.ReflTransGen.refl

theorem reaches_sampleRtt (r : ℚ) : Reaches inc c (c.sampleRtt r) := by
  have hnote : Reaches inc c (c.noteSample r) := (Move.estimate _).reaches
  have hbudget : Reaches inc c (((c.noteSample r).setBudget (c.budget.onRttSample r c.now)).advance) :=
    (hnote.tail (.budget _ (c.budget.moves_onRttSample r c.now))).tail (.estimate _)
  rw [sampleRtt]
  refine hbudget.trans ?_
  generalize ((c.noteSample r).setBudget (c.budget.onRttSample r c.now)).advance = s
  cases s.est.srtt with
  | none => exact (Move.estimate _).reaches
  | some srtt => exact (Move.estimate _).reaches

theorem follows_noteSeq {p : Wire.Ts.DataSeq} (h : inc = some (.dataSeq p)) :
    Follows (Reaches inc) (noteSeq p) c := by
  refine Follows.bind follows_performanceNow fun now s _ => Follows.get_bind (Follows.modify_bind ?_ ?_)
  · exact (Move.arrive p now _ h).reaches.tail (.estimate _)
  · refine Follows.bind ?_ fun _ s _ => Follows.get_bind ?_
    · split_ifs
      · exact Follows.modify reaches_noteSpurious
      · exact Follows.pure _
    · split_ifs
      · exact follows_detectSeqLoss
      · exact Follows.pure _

theorem follows_noteReply (t : Transfer) : Follows (Reaches inc) (noteReply id t) c := by
  rw [noteReply]
  split_ifs
  · exact Follows.pure _
  · exact Follows.modify_bind (reaches_setProgress fun _ => le_rfl) (Follows.pure _)
  · exact Follows.modify_bind (reaches_setProgress fun _ => le_rfl)
      (Follows.modify ((Move.estimate _).reaches.trans (reaches_sampleRtt _)))

/-- What a reply changes leaves the parts of a transfer that the next lines test. -/
def contentView (id : ℤ) (c : Http4Client) :
    Option (Bool × Option Reassembly × Option (List (JsString × JsString))) :=
  (c.objects.get? id).map fun t => (t.live, t.asm, t.headers)

theorem contentView_sampleRtt (r : ℚ) : contentView id (c.sampleRtt r) = contentView id c := by
  have hbudget : contentView id (((c.noteSample r).setBudget (c.budget.onRttSample r c.now)).advance) = contentView id c := rfl
  rw [sampleRtt, ← hbudget]
  generalize ((c.noteSample r).setBudget (c.budget.onRttSample r c.now)).advance = s
  cases s.est.srtt <;> rfl

theorem contentView_setProgress (f : Progress → Progress) :
    contentView id (c.setProgress id f) = contentView id c := by
  change ((c.objects.modify id _).get? id).map _ = _
  rw [OrderedMap.get?_modify, if_pos rfl, Option.map_map]
  rfl

theorem keeps_noteReply (t : Transfer) : Follows (Keeps (contentView id)) (noteReply id t) c := by
  refine Follows.ite (fun _ => Follows.pure _) fun _ => ?_
  refine Follows.modify_bind (contentView_setProgress _) (Follows.ite (fun _ => Follows.pure _) fun _ => ?_)
  exact Follows.modify (contentView_sampleRtt _)

/-- The transfer that is there after `noteReply`. -/
theorem exists_of_noteReply {t t' : Transfer} {a : Unit} {s : Http4Client} (ht : c.objects.get? id = some t)
    (hexec : exec (noteReply id t) c = (.ok a, s)) (ht' : s.objects.get? id = some t') :
    t'.live = t.live ∧ t'.asm = t.asm ∧ t'.headers = t.headers := by
  have hkeep : Follows (Keeps (contentView id)) (noteReply id t) c := keeps_noteReply t
  rw [Follows, hexec] at hkeep
  change (s.objects.get? id).map _ = (c.objects.get? id).map _ at hkeep
  rw [ht, ht', Option.map_some, Option.map_some, Option.some.injEq, Prod.mk.injEq, Prod.mk.injEq] at hkeep
  exact hkeep

theorem follows_handleMeta {m : Wire.Ts.Meta} (hinc : inc = some (.metaData m)) (hid : m.rpcId = id)
    (hlive : ∀ t, c.objects.get? id = some t → t.live = true) : Follows (Reaches inc) (handleMeta id m) c := by
  refine follows_withTransfer fun t ht => ?_
  cases hheaders : t.headers with
  | some _ => exact Follows.pure _
  | none =>
    refine Follows.bind follows_performanceNow fun now s hexec => ?_
    cases hexec
    let f : Transfer → Transfer := fun t => { t with
      headers := some m.fields
      progress := { t.progress with lastProgress := c.now, recoveries := 0 } }
    have hget : (c.advance.setTransfer id f).objects.get? id = some (f t) := by
      change (c.objects.modify id f).get? id = _
      rw [OrderedMap.get?_modify, if_pos rfl, ht]
      rfl
    refine Follows.modify_bind (reaches_setTransfer fun t' ht' => .inr ?_) ?_
    · obtain rfl := Option.some.inj (ht.symm.trans ht')
      exact .headers m _ hinc hid (hlive t ht) hheaders
    · refine Follows.bind (follows_maybeStart id) fun _ u hexec => follows_withTransfer fun t' ht' => ?_
      refine Follows.ite (fun hcomplete => ?_) fun _ => Follows.pure _
      obtain ⟨t'', ht'', hheaded⟩ := preserves_of_exec (fun _ _ => Headed.move)
        (follows_maybeStart id : Follows (Reaches inc) _ _) hexec ⟨f t, hget, rfl⟩
      obtain rfl := Option.some.inj (ht'.symm.trans ht'')
      obtain ⟨asm, hasm, hcomplete⟩ := (Option.any_eq_true _ _).mp hcomplete
      exact follows_finish ⟨t', ht'⟩ (fun _ => ⟨t', ht', ⟨asm, hasm, hcomplete⟩, hheaded⟩)
        .none

theorem reaches_learnSize {t : Transfer} {d : Wire.Ts.Data} (hinc : Carried inc d) (hid : d.rpcId = id)
    (ht : c.objects.get? id = some t) (hlive : t.live = true) (hasm : t.asm = none) :
    Reaches inc c (c.learnSize id d.totalSize t) := by
  rw [learnSize, setTransfer_of_some ht]
  exact (Move.change id t _ _ ht (.learn d hinc hid hlive hasm)).reaches

theorem noteSpurious_eq : c.noteSpurious now = { c with est := (c.noteSpurious now).est } := by
  rw [noteSpurious]
  split_ifs <;> rfl

theorem store_eq {asm : Reassembly} {fresh : ℤ} {length : ℕ} {repair : Option RepairTracker} :
    c.store id asm fresh length repair =
      { c.setTransfer id fun t => { t with asm := some asm } with
        scheduler := c.scheduler.onData id fresh
        est := (c.store id asm fresh length repair).est } := by
  rw [store]
  dsimp only
  split_ifs
  · rw [noteSpurious_eq]
    rfl
  · rfl

theorem reaches_store {t : Transfer} {d : Wire.Ts.Data} {asm asm' : Reassembly} {fresh : ℤ}
    (hinc : Carried inc d) (hid : d.rpcId = id) (ht : c.objects.get? id = some t) (hlive : t.live = true)
    (hasm : t.asm = some asm) (hsize : d.totalSize = asm.size)
    (hadd : asm.add d.offset d.payload = .ok (fresh, asm')) (length : ℕ) (repair : Option RepairTracker) :
    Reaches inc c (c.store id asm' fresh length repair) := by
  have hmove : Move inc c _ := .change id t _ _ ht (.store d asm asm' fresh hinc hid hlive hasm hsize hadd)
  rw [store_eq, setTransfer_of_some ht]
  exact hmove.reaches.tail (.estimate _)

theorem reaches_sampleProbe {stop : ℤ} {t : Transfer} : Reaches inc c (c.sampleProbe id stop t) := by
  rw [sampleProbe]
  cases t.progress.probe with
  | none => exact Relation.ReflTransGen.refl
  | some probe =>
    dsimp only
    split_ifs
    · exact ((Move.budget _ (c.budget.moves_onRttSample _ c.now)).reaches.tail (.estimate _)).trans
        (reaches_setProgress fun _ => le_rfl)
    · exact Relation.ReflTransGen.refl

theorem reaches_noteDelivered {fresh : ℤ} (hlive : ∀ t, c.objects.get? id = some t → t.live = true) :
    Reaches inc c (c.noteDelivered id fresh) := by
  rw [noteDelivered]
  split_ifs
  · refine (((Move.budget _ (c.budget.moves_onDelivered _ c.now)).reaches.tail (.estimate _)).trans
      (reaches_setTransfer fun t ht => .inr (.progress _ fun hleft => ?_))).tail (.estimate _)
    rw [hlive t ht] at hleft
    cases hleft
  · exact Relation.ReflTransGen.refl

/-- A transfer that was live before its payload is stored is so after. -/
theorem live_store {asm : Reassembly} {fresh : ℤ} {length : ℕ} {repair : Option RepairTracker}
    (h : ∀ t, c.objects.get? id = some t → t.live = true) :
    ∀ t, (c.store id asm fresh length repair).objects.get? id = some t → t.live = true := by
  intro t ht
  rw [store_eq] at ht
  change (c.objects.modify id _).get? id = some t at ht
  rw [OrderedMap.get?_modify, if_pos rfl] at ht
  obtain ⟨t₀, ht₀, rfl⟩ := Option.map_eq_some_iff.mp ht
  exact h t₀ ht₀

theorem live_sampleProbe {stop : ℤ} {t₀ : Transfer} (h : ∀ t, c.objects.get? id = some t → t.live = true) :
    ∀ t, (c.sampleProbe id stop t₀).objects.get? id = some t → t.live = true := by
  intro t ht
  rw [sampleProbe] at ht
  cases hprobe : t₀.progress.probe with
  | none =>
    rw [hprobe] at ht
    exact h t ht
  | some probe =>
    rw [hprobe] at ht
    dsimp only at ht
    split_ifs at ht
    · change (c.objects.modify id _).get? id = some t at ht
      rw [OrderedMap.get?_modify, if_pos rfl] at ht
      obtain ⟨t₁, ht₁, rfl⟩ := Option.map_eq_some_iff.mp ht
      exact h t₁ ht₁
    · exact h t ht

/-- What a payload that arrived changes before anything is asked for or handed on. -/
theorem reaches_delivered {t : Transfer} {d : Wire.Ts.Data} {asm asm' : Reassembly} {fresh : ℤ}
    (hinc : Carried inc d) (hid : d.rpcId = id) (ht : c.objects.get? id = some t) (hlive : t.live = true)
    (hasm : t.asm = some asm) (hsize : d.totalSize = asm.size)
    (hadd : asm.add d.offset d.payload = .ok (fresh, asm')) {length : ℕ} {repair : Option RepairTracker} {stop : ℤ} :
    Reaches inc c (((c.store id asm' fresh length repair).sampleProbe id stop t).noteDelivered id fresh) := by
  have hlive' (t' : Transfer) (ht' : c.objects.get? id = some t') : t'.live = true := by
    obtain rfl := Option.some.inj (ht.symm.trans ht')
    exact hlive
  exact ((reaches_store hinc hid ht hlive hasm hsize hadd _ _).trans reaches_sampleProbe).trans
    (reaches_noteDelivered (live_sampleProbe (live_store hlive')))

theorem follows_afterData : Follows (Reaches inc) (afterData id) c := by
  refine Follows.bind (follows_maybeStart id) fun _ s _ => Follows.bind follows_flushStream fun _ u _ => ?_
  refine follows_withTransfer fun t ht => Follows.ite (fun hdone => ?_) fun _ => ?_
  · obtain ⟨hcomplete, hheaders⟩ := hdone
    obtain ⟨asm, hasm, hcomplete⟩ := (Option.any_eq_true _ _).mp hcomplete
    exact follows_finish ⟨t, ht⟩ (fun _ => ⟨t, ht, ⟨asm, hasm, hcomplete⟩, hheaders⟩) .none
  · refine Follows.bind follows_performanceNow fun now v _ => ?_
    exact Follows.ite (fun _ => follows_detectLoss) fun _ => Follows.pure _

theorem follows_storeData {d : Wire.Ts.Data} (hinc : Carried inc d) (hid : d.rpcId = id)
    (h : ∀ t, c.objects.get? id = some t → t.live = true ∧ ∀ asm, t.asm = some asm → d.totalSize = asm.size) :
    Follows (Reaches inc) (storeData id d) c := by
  refine follows_withTransfer fun t ht => ?_
  obtain ⟨hlive, hsize⟩ := h t ht
  cases hasm : t.asm with
  | none => exact Follows.pure _
  | some asm =>
    cases hadd : asm.add d.offset d.payload with
    | error e =>
      simp only [hadd]
      exact follows_finish ⟨t, ht⟩ (fun h => by cases h) (.of_forall fun _ _ => trivial)
    | ok r =>
      obtain ⟨fresh, asm'⟩ := r
      simp only [hadd]
      exact Follows.modify_bind (reaches_delivered hinc hid ht hlive hasm (hsize asm hasm) hadd) follows_afterData

theorem follows_handleData (hdec : Decoded inc) {alloc : Bool} {d : Wire.Ts.Data} (hinc : Carried inc d) (hid : d.rpcId = id)
    (hlive : ∀ t, c.objects.get? id = some t → t.live = true) :
    Follows (Reaches inc) (handleData alloc id d) c := by
  refine follows_withTransfer fun t ht => ?_
  cases hasm : t.asm with
  | none =>
    refine Follows.ite (fun _ => ?_) fun _ => Follows.throw _
    refine Follows.modify_bind (reaches_learnSize hinc hid ht (hlive t ht) hasm) ?_
    refine follows_storeData hinc hid fun t' ht' => ?_
    change (c.objects.modify id _).get? id = _ at ht'
    rw [OrderedMap.get?_modify, if_pos rfl, ht] at ht'
    obtain rfl := Option.some.inj ht'
    refine ⟨hlive t ht, fun asm hasm => ?_⟩
    obtain rfl := Option.some.inj hasm
    exact (Int.toNat_of_nonneg (hdec.data hinc).1).symm
  | some asm =>
    refine Follows.ite (fun _ => follows_finish ⟨t, ht⟩ (fun h => by cases h) fun e _ he _ =>
      Option.some.inj he ▸ trivial) fun hsize => ?_
    refine follows_storeData hinc hid fun t' ht' => ⟨hlive t' ht', fun asm' hasm' => ?_⟩
    obtain rfl := Option.some.inj (ht.symm.trans ht')
    obtain rfl := Option.some.inj (hasm.symm.trans hasm')
    exact not_not.mp hsize

theorem follows_handlePacket (hdec : Decoded inc) {alloc : Bool} {p : Wire.Ts.Packet}
    (hdata : ∀ d, p = .data d → Carried inc d) (hmeta : ∀ m, p = .metaData m → inc = some (.metaData m)) :
    Follows (Reaches inc) (handlePacket alloc p) c := by
  refine follows_withTransfer fun t ht => Follows.ite (fun _ => Follows.pure _) fun hlive => ?_
  have hreply {s : Http4Client} {a : Unit} (hexec : exec (noteReply p.rpcId t) c = (.ok a, s)) :
      ∀ t', s.objects.get? p.rpcId = some t' → t'.live = true := fun t' ht' =>
    (exists_of_noteReply ht hexec ht').1.trans (not_not.mp hlive)
  cases p with
  | metaData m =>
    exact Follows.bind (follows_noteReply t) fun _ s hexec =>
      follows_handleMeta (hmeta m rfl) rfl (hreply hexec)
  | data d =>
    exact Follows.bind (follows_noteReply t) fun _ s hexec =>
      follows_handleData hdec (hdata d rfl) rfl (hreply hexec)
  | error p =>
    exact follows_finish ⟨t, ht⟩ (fun h => by cases h) (.of_forall fun _ _ => trivial)
  | req | grant | resend | hello | dataSeq | resendSeq => exact Follows.pure _

theorem follows_handle {alloc : Bool} {p : Wire.Ts.Packet} (hdec : Decoded (some p)) :
    Follows (Reaches (some p)) (handle alloc p) c := by
  have hplain {q : Wire.Ts.Packet} (hq : some p = some q) :
      Follows (Reaches (some p)) (handlePacket alloc q) c :=
    follows_handlePacket hdec (fun d hd => .inl (hd ▸ hq)) fun m hm => hm ▸ hq
  cases p with
  | dataSeq p =>
    refine Follows.bind (follows_noteSeq rfl) fun _ s _ => ?_
    refine follows_handlePacket hdec (fun d hd => .inr ⟨p, rfl, ?_⟩) fun m hm => by cases hm
    exact Wire.Ts.Packet.data.inj hd
  | req | data | grant | resend | error | metaData | hello | resendSeq => exact hplain rfl

/-- The packet in a datagram. -/
def packetIn (b : Bytes) : Option Wire.Ts.Packet := (Wire.Ts.decode b).toOption

theorem decoded_packetIn (b : Bytes) : Decoded (packetIn b) := by
  intro p hp
  rw [packetIn] at hp
  cases hb : Wire.Ts.decode b with
  | error e => rw [hb] at hp; cases hp
  | ok q =>
    rw [hb] at hp
    obtain rfl := Option.some.inj hp
    exact ⟨b, hb⟩

theorem follows_readDatagram (alloc : Bool) (b : Bytes) :
    Follows (Reaches (packetIn b)) (readDatagram alloc b) c := by
  have hdec := decoded_packetIn b
  rw [packetIn] at hdec ⊢
  rw [readDatagram]
  cases hb : Wire.Ts.decode b with
  | error e =>
    cases e with
    | malformed => exact Follows.pure _
    | outOfRange => exact Follows.throw _
  | ok p =>
    rw [hb] at hdec
    exact Follows.bind (follows_handle hdec) fun _ _ _ => follows_pumpGrants

end Packets

/-! ### Requests -/

theorem keeps_sendHello {α : Type} (f : Http4Client → α)
    (hf : ∀ (c : Http4Client) (p : Outgoing), f (c.hand p) = f c)
    (hest : ∀ (c : Http4Client) (e : Estimates), f { c with est := e } = f c) :
    Follows (Keeps f) sendHello c := by
  refine Follows.get_bind (Follows.ite (fun _ => Follows.pure _) fun _ => ?_)
  exact Follows.modify_bind (hest c _) (keeps_send f hf _)

theorem follows_start {id : ℤ} (hfresh : c.objects.get? id = none) (assetId : JsString) (streaming : Bool)
    (cls : PriorityClass) : Follows (Reaches inc) (start id assetId streaming cls) c := by
  refine Follows.get_bind (Follows.ite (fun _ => Follows.pure _) fun hopen => ?_)
  cases hencode : (Outgoing.req id c.nextInitialGrant assetId).encode with
  | none =>
    simp only [hencode]
    exact Follows.throw _
  | some b =>
    simp only [hencode]
    refine Follows.ite (fun _ => Follows.pure _) fun _ => ?_
    let t := c.newTransfer assetId streaming cls c.nextInitialGrant
    have hadvance : Reaches inc c c.advance := (Move.estimate _).reaches
    have hregister : Move inc c.advance { c.advance with objects := c.objects.set id t } := by
      refine .register id assetId cls t.stream t.progress hfresh (not_not.mp hopen)
        (Option.isSome_of_eq_some hencode) fun st hst => ?_
      change (if streaming then some _ else none) = some st at hst
      split_ifs at hst
      exact ⟨_, (Option.some.inj hst).symm⟩
    refine Follows.modify_bind ((hadvance.tail hregister).tail (.ticker true))
      (Follows.bind follows_sendHello fun _ s hexec => ?_)
    have hkeep := keeps_sendHello (c := { c.advance with objects := c.objects.set id t, ticker := true })
      Http4Client.objects (fun _ _ => rfl) fun _ _ => rfl
    rw [Follows, hexec] at hkeep
    have hget : s.objects.get? id = some t := by
      rw [show s.objects = _ from hkeep, OrderedMap.get?_set, if_pos rfl]
    have hreq := Allowed.req hget
    exact Follows.bind (follows_send hreq) fun _ _ _ => Follows.pure _

end Functions

/-! ## Steps and runs -/

namespace Http4Client

/-- The changes to the flags of a session. -/
inductive Flag (c : Http4Client) : Http4Client → Prop
  | stopReading : Flag c { c with reading := false }
  | close : Flag c { c with closed := true }
  | endSession : Flag c { c with sessionClosed := true }

/-- Some moves and changes of flags lead from one state to the other. -/
abbrev Walk (inc : Option Wire.Ts.Packet) : Http4Client → Http4Client → Prop :=
  Relation.ReflTransGen fun c c' => Move inc c c' ∨ Flag c c'

variable {inc : Option Wire.Ts.Packet} {c c' : Http4Client}

theorem Flag.walk (h : Flag c c') : Walk inc c c' := .single (.inr h)

theorem Reaches.walk (h : Reaches inc c c') : Walk inc c c' :=
  Relation.ReflTransGen.mono (fun _ _ => .inl) _ _ h

theorem known_of_hasStream {id : ℤ} {P : ReadableStream → Bool} (h : c.hasStream id P = true) :
    ∃ t st, c.objects.get? id = some t ∧ t.stream = some st ∧ P st.body = true := by
  obtain ⟨t, ht, hstream⟩ := (Option.any_eq_true _ _).mp h
  obtain ⟨st, hst, hP⟩ := (Option.any_eq_true _ _).mp hstream
  exact ⟨t, st, ht, hst, hP⟩

/-- A change to the platform's side of a stream. -/
theorem reaches_setBody {id : ℤ} {f : ReadableStream → ReadableStream}
    (hf : ∀ s, (f s).closeRequested = s.closeRequested ∧
      ((f s).phase = s.phase ∨ s.closeRequested = true ∧ (f s).phase = .closed) ∧
      (f s).pullFailed = s.pullFailed) : Reaches inc c (c.setBody id f) :=
  reaches_setStream fun _ st _ _ => .body ⟨rfl, rfl, rfl, rfl, (hf st.body).1, (hf st.body).2.1, (hf st.body).2.2⟩

theorem follows_readStream (id : ℤ) : Follows (Reaches inc) (readStream id) c := by
  refine Follows.get_bind (Follows.modify_bind (reaches_setBody fun s => ?_) ?_)
  · rw [ReadableStream.read]
    split
    · exact ⟨rfl, .inl rfl, rfl⟩
    · split_ifs with hclose
      · exact ⟨rfl, .inr ⟨(Bool.and_eq_true_iff.mp hclose).1, rfl⟩, rfl⟩
      · exact ⟨rfl, .inl rfl, rfl⟩
    · exact ⟨rfl, .inl rfl, rfl⟩
    · exact ⟨rfl, .inl rfl, rfl⟩
  · exact Follows.ite (fun _ => follows_callPullIfNeeded id) fun _ => Follows.pure _

theorem follows_pullDone (id : ℤ) : Follows (Reaches inc) (pullDone id) c := by
  refine Follows.get_bind (Follows.ite (fun hfailed => Follows.modify ?_) fun _ => ?_)
  · obtain ⟨t, st, ht, hst, hfailed⟩ := known_of_hasStream hfailed
    refine reaches_setStream fun t' st' ht' hst' => ?_
    obtain ⟨rfl, rfl⟩ := eq_of_stream ht hst ht' hst'
    exact .pullRejected hfailed
  · refine Follows.modify_bind (reaches_setBody fun _ => ⟨rfl, .inl rfl, rfl⟩) ?_
    exact Follows.ite (fun _ => follows_callPullIfNeeded id) fun _ => Follows.pure _

theorem follows_cancelStream {id : ℤ} (h : Known id c) : Follows (Reaches inc) (cancelStream id) c := by
  have hcancel : Reaches inc c (c.setStream id fun st => { st with body := st.body.cancel, closed := true }) :=
    reaches_setStream fun _ _ _ _ => .cancel
  refine Follows.modify_bind hcancel (Follows.tryCatch (follows_drop ?_) fun _ _ _ => Follows.pure _)
  exact Reaches.preserves (fun _ _ => Known.move) hcancel h

theorem follows_readLoopCatch (e : Thrown) : Follows (Walk inc) (readLoopCatch e) c :=
  Follows.modify_bind Flag.stopReading.walk (follows_failAll (.thrown e) fun _ _ => trivial).walk

/-- The packet that an event brings. -/
def Event.packet : Event → Option Wire.Ts.Packet
  | .datagram b _ => packetIn b
  | _ => none

theorem Event.decoded_packet (e : Event) : Decoded e.packet := by
  cases e with
  | datagram b _ => exact decoded_packetIn b
  | request | readDone | readRejected | tick | streamStarted | read | pullSettled | cancel | close
  | sessionEnded => exact fun _ h => by cases h

/-- The events whose code changes no flag of the session, unless the read loop catches
    something. -/
def Event.quiet : Event → Bool
  | .request _ _ _ _ | .tick | .streamStarted _ | .read _ | .pullSettled _ | .cancel _ => true
  | .datagram _ _ | .readDone | .readRejected | .close | .sessionEnded => false

theorem follows_code_of_quiet {e : Event} (h : c.Enabled e) (hquiet : e.quiet = true) :
    Follows (Reaches inc) (code e) c := by
  cases e with
  | request id assetId streaming cls =>
    exact Follows.bind (follows_start h.2.2 assetId streaming cls) fun _ _ _ => Follows.pure _
  | tick => exact follows_tick
  | streamStarted id =>
    exact Follows.modify_bind (reaches_setBody fun _ => ⟨rfl, .inl rfl, rfl⟩) (follows_callPullIfNeeded id)
  | read id => exact follows_readStream id
  | pullSettled id => exact follows_pullDone id
  | cancel id =>
    obtain ⟨t, -, ht, -⟩ := known_of_hasStream h
    exact follows_cancelStream ⟨t, ht⟩
  | datagram | readDone | readRejected | close | sessionEnded => cases hquiet

/-- The code of an event moves, and it may change a flag. -/
theorem follows_code {e : Event} (h : c.Enabled e) : Follows (Walk e.packet) (code e) c := by
  cases e with
  | datagram b alloc =>
    exact Follows.tryCatch (follows_readDatagram alloc b).walk fun _ _ _ => follows_readLoopCatch _
  | readDone => exact Follows.modify Flag.stopReading.walk
  | readRejected => exact follows_readLoopCatch _
  | close => exact Follows.modify Flag.close.walk
  | sessionEnded =>
    exact Follows.modify_bind Flag.endSession.walk (follows_failAll .sessionClosed fun _ _ => trivial).walk
  | request | tick | streamStarted | read | pullSettled | cancel => exact (follows_code_of_quiet h rfl).walk

/-- The time that passes in a step does not matter for whether it can happen. -/
theorem enabled_elapse {e : Event} (h : c.Enabled e) (elapse : List ℚ≥0) :
    Http4Client.Enabled { c with est := { c.est with elapse := elapse } } e := by
  cases e <;> exact h

/-- **A step of the machine** is a sequence of moves and changes of flags. -/
theorem step_walk {a : Step} (h : c.step a = some c') : Walk a.event.packet c c' := by
  rw [step] at h
  split_ifs at h with henabled
  obtain rfl := Option.some.inj h
  have hstart : Walk a.event.packet c { c with est := { c.est with elapse := a.elapse } } :=
    .single (.inl (.estimate _))
  have henabled' := enabled_elapse henabled a.elapse
  exact hstart.trans (follows_code henabled')

theorem Walk.preserves {P : Http4Client → Prop} (hmove : ∀ c c', P c → Move inc c c' → P c')
    (hflag : ∀ c c', P c → Flag c c' → P c') (h : Walk inc c c') (hc : P c) : P c' := by
  induction h with
  | refl => exact hc
  | tail _ hstep ih => exact hstep.elim (hmove _ _ ih) (hflag _ _ ih)

theorem connect_reaches (opts : ClientOptions) (maxDatagramSize : ℕ) :
    Reaches none (.new opts maxDatagramSize) (connect opts maxDatagramSize) :=
  follows_sendHello

/-- **What moves and flags preserve holds in every state of every run.** -/
theorem invariant_of_moves {P : Http4Client → Prop} {opts : ClientOptions} {maxDatagramSize : ℕ}
    (hnew : P (.new opts maxDatagramSize))
    (hmove : ∀ inc c c', Decoded inc → P c → Move inc c c' → P c')
    (hflag : ∀ c c', P c → Flag c c' → P c')
    (h : Machine.Reachable Http4Client.step (connect opts maxDatagramSize) c) : P c := by
  obtain ⟨as, hrun⟩ := h
  refine Machine.run_invariant (P := P) (fun c a c' hc hstep => ?_) ?_ hrun
  · exact Walk.preserves (fun c c' => hmove _ c c' a.event.decoded_packet) hflag (step_walk hstep) hc
  · exact Reaches.preserves (fun c c' => hmove none c c' fun _ h => by cases h)
      (connect_reaches opts maxDatagramSize) hnew

end Http4Client

end Http4.Client
