import Http4.Client.ReadLoop

/-!
# Why a transfer fails

The promise of a transfer is rejected in `finish`, which the code calls with an error in
five places. `Cause` lists them, each with what has happened by then, and `Fails` says of
two states that every promise rejected between them has such a cause.

Main results:

* `fails_finish`, `fails_handlePacket`, `fails_tick`, …: one lemma for each function.
* `Http4Client.fails_step`: a step rejects nothing without a cause.
* `Http4Client.earned_reachable`: who is told of no progress has been recovered in vain
  more often than the options allow.
-/

namespace Http4.Client

open Routine Http4Client
open Wire.Ts (JsString)

/-! ## Rejections -/

/-- The error of a settlement. -/
def Settlement.failure : Settlement → Option Failure
  | .rejected e => some e
  | .response _ _ | .stream _ _ => none

/-- The errors a transfer was rejected with, oldest first. -/
def Transfer.failures (t : Transfer) : List Failure := t.settlements.filterMap Settlement.failure

theorem mem_failures_iff {t : Transfer} {e : Failure} :
    e ∈ t.failures ↔ Settlement.rejected e ∈ t.settlements := by
  unfold Transfer.failures
  rw [List.mem_filterMap]
  refine ⟨fun ⟨x, hx, hfailure⟩ => ?_, fun h => ⟨_, h, rfl⟩⟩
  cases x with
  | response | stream => cases hfailure
  | rejected e' =>
    obtain rfl := Option.some.inj hfailure
    exact hx

/-- What a caller is told of: the asset ID, and the errors of the promise. -/
def Transfer.verdict (t : Transfer) : JsString × List Failure := (t.assetId, t.failures)

namespace Http4Client

/-- The options, and what the caller of each transfer is told of. -/
def verdicts (c : Http4Client) : ClientOptions × (ℤ → Option (JsString × List Failure)) :=
  (c.opts, fun id => (c.objects.get? id).map Transfer.verdict)

/-- Whatever is rejected in between has a cause. -/
structure Fails (C : ℤ → JsString → Failure → Prop) (c c' : Http4Client) : Prop where
  opts : c'.opts = c.opts
  known : ∀ id t, c.objects.get? id = some t → ∃ t', c'.objects.get? id = some t' ∧ t'.assetId = t.assetId
  failed : ∀ id t' e, c'.objects.get? id = some t' → e ∈ t'.failures →
    (∃ t, c.objects.get? id = some t ∧ e ∈ t.failures) ∨ C id t'.assetId e

variable {c c' : Http4Client} {C : ℤ → JsString → Failure → Prop} {id : ℤ}

instance : Std.Refl (Fails C) := ⟨fun _ => ⟨rfl, fun _ t ht => ⟨t, ht, rfl⟩, fun _ t _ ht he => .inl ⟨t, ht, he⟩⟩⟩

instance : IsTrans Http4Client (Fails C) := by
  refine ⟨fun a b c h h' => ⟨h'.opts.trans h.opts, fun id t ht => ?_, fun id t'' e ht'' he => ?_⟩⟩
  · obtain ⟨t', ht', hname⟩ := h.known id t ht
    obtain ⟨t'', ht'', hname'⟩ := h'.known id t' ht'
    exact ⟨t'', ht'', hname'.trans hname⟩
  · rcases h'.failed id t'' e ht'' he with ⟨t', ht', he'⟩ | hcause
    · obtain ⟨u, hu, hname⟩ := h'.known id t' ht'
      obtain rfl := Option.some.inj (ht''.symm.trans hu)
      rw [hname]
      exact h.failed id t' e ht' he'
    · exact .inr hcause

theorem Fails.mono {D : ℤ → JsString → Failure → Prop} (h : Fails C c c') (hCD : ∀ id name e, C id name e → D id name e) :
    Fails D c c' :=
  ⟨h.opts, h.known, fun id t' e ht' he => (h.failed id t' e ht' he).imp_right (hCD id t'.assetId e)⟩

theorem fails_of_verdicts (h : c'.verdicts = c.verdicts) : Fails C c c' := by
  have hget (id : ℤ) : (c'.objects.get? id).map Transfer.verdict = (c.objects.get? id).map Transfer.verdict :=
    congrFun (congrArg Prod.snd h) id
  refine ⟨congrArg Prod.fst h, fun id t ht => ?_, fun id t' e ht' he => ?_⟩
  · have hsome := hget id
    rw [ht] at hsome
    obtain ⟨t', ht', heq⟩ := Option.map_eq_some_iff.mp hsome
    exact ⟨t', ht', congrArg Prod.fst heq⟩
  · have hsome := (hget id).symm
    rw [ht'] at hsome
    obtain ⟨t, ht, heq⟩ := Option.map_eq_some_iff.mp hsome
    have hfailures : t.failures = t'.failures := congrArg Prod.snd heq
    exact .inl ⟨t, ht, hfailures ▸ he⟩

/-- Code that rejects nothing. -/
theorem fails_of_keeps {α : Type} {m : Js α} (h : Follows (Keeps verdicts) m c) : Follows (Fails C) m c :=
  fails_of_verdicts h

/-- A change that settles nothing. -/
theorem verdicts_setTransfer (id : ℤ) {f : Transfer → Transfer} (h : ∀ t, (f t).verdict = t.verdict) :
    (c.setTransfer id f).verdicts = c.verdicts := by
  refine Prod.ext rfl (funext fun id' => ?_)
  show ((c.objects.modify id f).get? id').map Transfer.verdict = (c.objects.get? id').map Transfer.verdict
  rw [OrderedMap.get?_modify]
  split_ifs with heq
  · rw [heq, Option.map_map]
    exact congrArg (Option.map · _) (funext h)
  · rfl

theorem verdicts_reschedule (id : ℤ) {f : Transfer → Transfer} {r : SrptScheduler}
    (h : ∀ t, (f t).verdict = t.verdict) : { c.setTransfer id f with scheduler := r }.verdicts = c.verdicts := by
  have hset : (c.setTransfer id f).verdicts = c.verdicts := verdicts_setTransfer id h
  exact hset

theorem verdicts_setProgress (id : ℤ) (f : Progress → Progress) : (c.setProgress id f).verdicts = c.verdicts :=
  verdicts_setTransfer id fun _ => rfl

theorem verdicts_setStream (id : ℤ) (f : StreamState → StreamState) : (c.setStream id f).verdicts = c.verdicts :=
  verdicts_setTransfer id fun _ => rfl

end Http4Client

/-! ## Functions that reject nothing -/

section Keeps

variable {c : Http4Client} {id : ℤ} {now : ℚ}

theorem keeps_verdicts_performanceNow : Follows (Keeps verdicts) performanceNow c :=
  Follows.get_bind (Follows.modify_bind rfl (Follows.pure _))

theorem keeps_verdicts_send (p : Outgoing) : Follows (Keeps verdicts) (send p) c :=
  keeps_send verdicts (fun _ _ => rfl) p

theorem keeps_verdicts_sendHello : Follows (Keeps verdicts) sendHello c :=
  keeps_sendHello verdicts (fun _ _ => rfl) fun _ _ => rfl

theorem keeps_verdicts_sendGrant (g : GrantDecision) : Follows (Keeps verdicts) (sendGrant g) c := by
  refine Follows.bind (follows_withTransfer fun t _ => ?_) fun _ _ _ => keeps_verdicts_send _
  refine Follows.ite (fun _ => ?_) fun _ => Follows.pure _
  refine Follows.bind ?_ fun _ _ _ => Follows.modify (verdicts_setProgress _ _)
  unfold startProbe
  cases t.progress.probe with
  | some _ => exact Follows.pure _
  | none => exact Follows.bind keeps_verdicts_performanceNow fun _ _ _ => Follows.modify (verdicts_setProgress _ _)

theorem keeps_verdicts_pumpGrants : Follows (Keeps verdicts) pumpGrants c := by
  refine Follows.get_bind (Follows.modify_bind rfl ?_)
  refine Follows.bind (Follows.forM fun g _ _ => keeps_verdicts_sendGrant g) fun _ s _ => Follows.modify ?_
  split_ifs <;> rfl

theorem keeps_verdicts_pull : Follows (Keeps verdicts) (pull id) c := by
  refine follows_withTransfer fun t _ => Follows.ite (fun _ => ?_) fun _ => Follows.pure _
  exact Follows.modify_bind (verdicts_reschedule id fun _ => rfl) keeps_verdicts_pumpGrants

theorem keeps_verdicts_callPullIfNeeded : Follows (Keeps verdicts) (callPullIfNeeded id) c := by
  refine follows_withTransfer fun t _ => ?_
  cases t.stream with
  | none => exact Follows.pure _
  | some st =>
    refine Follows.ite (fun _ => Follows.ite (fun _ => ?_) fun _ => ?_) fun _ => Follows.pure _
    · exact Follows.modify (verdicts_setStream id _)
    · refine Follows.modify_bind (verdicts_setStream id _) (Follows.tryCatch keeps_verdicts_pull fun _ _ _ => ?_)
      exact Follows.modify (verdicts_setStream id _)

theorem keeps_verdicts_flushStream : Follows (Keeps verdicts) (flushStream id) c := by
  refine follows_withTransfer fun t _ => ?_
  cases t.stream with
  | none => exact Follows.pure _
  | some st =>
    cases t.asm with
    | none => exact Follows.pure _
    | some asm =>
      refine Follows.ite (fun _ => Follows.pure _) fun _ => Follows.bind ?_ fun _ _ _ => ?_
      · refine Follows.ite (fun _ => Follows.ite (fun _ => ?_) fun _ => ?_) fun _ => Follows.pure _
        · exact Follows.modify_bind (verdicts_setStream id _) keeps_verdicts_callPullIfNeeded
        · exact Follows.modify_bind (verdicts_setStream id _) (Follows.throw _)
      · refine follows_withTransfer fun t _ => ?_
        cases t.stream with
        | none => exact Follows.pure _
        | some st =>
          exact Follows.ite (fun _ => Follows.modify (verdicts_reschedule id fun _ => rfl)) fun _ =>
            Follows.pure _

theorem keeps_verdicts_endStream (err : Option Failure) : Follows (Keeps verdicts) (endStream id err) c := by
  refine follows_withTransfer fun t _ => ?_
  cases t.stream with
  | none => exact Follows.pure _
  | some st =>
    refine Follows.ite (fun _ => Follows.pure _) fun _ => ?_
    cases err with
    | some e => exact Follows.modify (verdicts_setStream id _)
    | none =>
      refine Follows.ite (fun _ => Follows.modify (verdicts_setStream id _)) fun _ => ?_
      exact Follows.modify_bind (verdicts_setStream id _) (Follows.throw _)

/-- A promise that is resolved is not rejected. -/
theorem verdict_settle {t : Transfer} {x : Settlement} (hx : x.failure = none) :
    { t with settled := true, settlements := t.settlements ++ [x] }.verdict = t.verdict := by
  refine Prod.ext rfl ?_
  show (t.settlements ++ [x]).filterMap _ = _
  rw [List.filterMap_append, List.filterMap_cons_none hx, List.filterMap_nil, List.append_nil]
  rfl

theorem keeps_verdicts_maybeStart : Follows (Keeps verdicts) (maybeStart id) c := by
  refine follows_withTransfer fun t _ => ?_
  cases t.stream with
  | none => exact Follows.pure _
  | some st =>
    cases t.asm with
    | none => exact Follows.pure _
    | some asm =>
      cases t.headers with
      | none => exact Follows.pure _
      | some headers =>
        refine Follows.ite (fun _ => Follows.pure _) fun _ => ?_
        exact Follows.modify (verdicts_setTransfer id fun _ => verdict_settle rfl)

theorem keeps_verdicts_remove : Follows (Keeps verdicts) (remove id) c :=
  Follows.modify (verdicts_reschedule id fun _ => rfl)

theorem keeps_verdicts_sendResends (r : List (Range ℚ) × RepairTracker) :
    Follows (Keeps verdicts) (sendResends id r) c :=
  keeps_sendResends verdicts (fun _ _ => rfl) (fun _ _ => verdicts_setTransfer id fun _ => rfl) r

theorem keeps_verdicts_detectLoss : Follows (Keeps verdicts) (detectLoss id now) c := by
  refine Follows.modify_bind (verdicts_setProgress id _) (Follows.get_bind (follows_withTransfer fun t _ => ?_))
  cases t.asm with
  | none => exact Follows.pure _
  | some asm =>
    cases t.repair with
    | none => exact Follows.pure _
    | some repair =>
      refine Follows.ite (fun _ => Follows.pure _) fun _ => ?_
      exact Follows.ite (fun _ => Follows.pure _) fun _ => keeps_verdicts_sendResends _

theorem keeps_verdicts_detectSeqLoss : Follows (Keeps verdicts) (detectSeqLoss now) c := by
  have hsend {c : Http4Client} (rs : List (Range ℤ)) : Follows (Keeps verdicts) (sendResendSeqs rs) c :=
    Follows.forM fun _ _ _ => keeps_verdicts_send _
  refine Follows.modify_bind rfl (Follows.get_bind (Follows.ite (fun _ => Follows.pure _) fun _ => ?_))
  refine Follows.modify_bind rfl (Follows.bind (hsend _) fun _ _ _ => Follows.get_bind ?_)
  exact Follows.modify_bind rfl (hsend _)

theorem keeps_verdicts_resendReq : Follows (Keeps verdicts) (resendReq id) c := by
  refine follows_withTransfer fun t _ => Follows.ite (fun _ => ?_) fun _ => Follows.pure _
  exact Follows.modify_bind (verdicts_setProgress id _) (keeps_verdicts_send _)

theorem keeps_verdicts_resendGrant (granted : ℚ) : Follows (Keeps verdicts) (resendGrant id granted now) c := by
  refine follows_withTransfer fun t _ => ?_
  cases t.asm with
  | none => exact Follows.pure _
  | some asm =>
    cases t.repair with
    | none => exact Follows.pure _
    | some repair =>
      refine Follows.bind (Follows.ite (fun _ => keeps_verdicts_send _) fun _ => Follows.pure _) fun _ _ _ => ?_
      exact Follows.get_bind (keeps_verdicts_sendResends _)

theorem keeps_verdicts_tailProbe (granted : ℚ) : Follows (Keeps verdicts) (tailProbe id granted now) c := by
  refine follows_withTransfer fun t _ => Follows.get_bind ?_
  cases t.asm with
  | none => exact Follows.pure _
  | some asm =>
    cases t.repair with
    | none => exact Follows.pure _
    | some repair =>
      cases c.est.srtt with
      | none => exact Follows.pure _
      | some srtt =>
        refine Follows.ite (fun _ => ?_) fun _ => Follows.pure _
        exact Follows.modify_bind (verdicts_setProgress id _) (keeps_verdicts_sendResends _)

theorem verdicts_backoff : ((c.lossBackoff now).backoffInitialRto now).verdicts = c.verdicts := by
  have hloss : (c.lossBackoff now).verdicts = c.verdicts := by
    unfold lossBackoff
    split_ifs <;> rfl
  rw [← hloss]
  unfold backoffInitialRto
  split_ifs <;> rfl

theorem keeps_verdicts_noteSeq (p : Wire.Ts.DataSeq) : Follows (Keeps verdicts) (noteSeq p) c := by
  refine Follows.bind keeps_verdicts_performanceNow fun now s _ => Follows.get_bind (Follows.modify_bind rfl ?_)
  refine Follows.bind (Follows.ite (fun _ => Follows.modify ?_) fun _ => Follows.pure _) fun _ s _ => Follows.get_bind ?_
  · rw [noteSpurious_eq]
    rfl
  · exact Follows.ite (fun _ => keeps_verdicts_detectSeqLoss) fun _ => Follows.pure _

theorem verdicts_sampleRtt (r : ℚ) : (c.sampleRtt r).verdicts = c.verdicts := by
  unfold sampleRtt
  dsimp only
  split <;> rfl

theorem keeps_verdicts_noteReply (t : Transfer) : Follows (Keeps verdicts) (noteReply id t) c := by
  refine Follows.ite (fun _ => Follows.pure _) fun _ => Follows.modify_bind (verdicts_setProgress id _) ?_
  exact Follows.ite (fun _ => Follows.pure _) fun _ => Follows.modify (verdicts_sampleRtt _)

theorem verdicts_learnSize (id : ℤ) (totalSize : ℤ) (t : Transfer) :
    (c.learnSize id totalSize t).verdicts = c.verdicts := verdicts_reschedule id fun _ => rfl

theorem verdicts_store (asm : Reassembly) (fresh : ℤ) (length : ℕ) (repair : Option RepairTracker) :
    (c.store id asm fresh length repair).verdicts = c.verdicts := by
  have hasm : (c.setTransfer id fun t => { t with asm := some asm }).verdicts = c.verdicts :=
    verdicts_setTransfer id fun _ => rfl
  rw [store_eq]
  exact hasm

theorem verdicts_sampleProbe (stop : ℤ) (t : Transfer) : (c.sampleProbe id stop t).verdicts = c.verdicts := by
  unfold sampleProbe
  cases t.progress.probe with
  | none => rfl
  | some probe =>
    dsimp only
    split_ifs
    · exact verdicts_setProgress id _
    · rfl

theorem verdicts_noteDelivered (fresh : ℤ) : (c.noteDelivered id fresh).verdicts = c.verdicts := by
  unfold noteDelivered
  split_ifs
  · let s := (c.setBudget (c.budget.onDelivered fresh c.now)).advance
    have hprogress := verdicts_setProgress (c := s) id fun p =>
      { p with lastProgress := s.now, recoveries := 0, tailProbed := false }
    exact hprogress
  · rfl

end Keeps

/-! ## Functions that end transfers -/

section Ends

variable {inc : Option Wire.Ts.Packet} {c : Http4Client} {C : ℤ → JsString → Failure → Prop} {id : ℤ} {now : ℚ}

/-- A transfer after code that rejects nothing. -/
theorem exists_of_verdicts {s : Http4Client} (h : s.verdicts = c.verdicts) {t' : Transfer}
    (ht' : s.objects.get? id = some t') : ∃ t, c.objects.get? id = some t ∧ t.assetId = t'.assetId := by
  have hget : (s.objects.get? id).map Transfer.verdict = (c.objects.get? id).map Transfer.verdict :=
    congrFun (congrArg Prod.snd h) id
  rw [ht'] at hget
  obtain ⟨t, ht, heq⟩ := Option.map_eq_some_iff.mp hget.symm
  exact ⟨t, ht, congrArg Prod.fst heq⟩

theorem verdicts_of_exec {α : Type} {m : Js α} {r : Except Thrown α} {s : Http4Client}
    (h : Follows (Keeps verdicts) m c) (hexec : exec m c = (r, s)) : s.verdicts = c.verdicts := by
  rw [Follows, hexec] at h
  exact h

theorem fails_settle {err : Option Failure}
    (h : ∀ t e, c.objects.get? id = some t → err = some e → C id t.assetId e) : Follows (Fails C) (settle id err) c := by
  refine follows_withTransfer fun t ht => Follows.ite (fun _ => Follows.pure _) fun _ => Follows.modify ?_
  let f (t : Transfer) : Transfer :=
    { t with settled := true, settlements := t.settlements ++ (t.settlement err).toList }
  have hget (id' : ℤ) : (c.setTransfer id f).objects.get? id' =
      if id' = id then some (f t) else c.objects.get? id' := by
    show (c.objects.modify id f).get? id' = _
    rw [OrderedMap.get?_modify]
    split_ifs with heq
    · rw [heq, ht]
      rfl
    · rfl
  refine ⟨rfl, fun id' t' ht' => ?_, fun id' t' e ht' he => ?_⟩
  · rw [hget]
    split_ifs with heq
    · rw [heq, ht] at ht'
      obtain rfl := Option.some.inj ht'
      exact ⟨_, rfl, rfl⟩
    · exact ⟨t', ht', rfl⟩
  · rw [hget] at ht'
    split_ifs at ht' with heq
    · obtain rfl := Option.some.inj ht'
      obtain rfl := heq
      rw [mem_failures_iff] at he
      rcases List.mem_append.mp he with hold | hnew
      · exact .inl ⟨t, ht, mem_failures_iff.mpr hold⟩
      · refine .inr (h t e ht ?_)
        rw [Option.mem_toList] at hnew
        cases err with
        | some e' => exact congrArg some (Settlement.rejected.inj (Option.some.inj hnew))
        | none =>
          -- without an error the promise is resolved
          unfold Transfer.settlement at hnew
          dsimp only at hnew
          split at hnew <;> cases hnew
    · exact .inl ⟨t', ht', he⟩

theorem fails_finish {err : Option Failure}
    (h : ∀ t e, c.objects.get? id = some t → err = some e → C id t.assetId e) : Follows (Fails C) (finish id err) c := by
  have hflush {s : Http4Client} : Follows (Keeps verdicts) (if err.isNone then flushStream id else pure () : Js Unit) s :=
    Follows.ite (fun _ => keeps_verdicts_flushStream) fun _ => Follows.pure _
  refine Follows.bind (fails_of_keeps keeps_verdicts_remove) fun _ s hexec => ?_
  refine Follows.bind (fails_of_keeps hflush) fun _ u hexec' => ?_
  refine Follows.bind (fails_of_keeps (keeps_verdicts_endStream err)) fun _ v hexec'' => ?_
  have hv : v.verdicts = c.verdicts := (verdicts_of_exec (keeps_verdicts_endStream err) hexec'').trans
    ((verdicts_of_exec hflush hexec').trans (verdicts_of_exec keeps_verdicts_remove hexec))
  refine Follows.bind (fails_settle fun t' e ht' he => ?_) fun _ _ _ => fails_of_keeps keeps_verdicts_pumpGrants
  obtain ⟨t, ht, hname⟩ := exists_of_verdicts hv ht'
  exact hname ▸ h t e ht he

theorem fails_failAll {err : Failure} (h : ∀ id name, C id name err) : Follows (Fails C) (failAll err) c := by
  refine Follows.get_bind (Follows.bind (Follows.forM fun id _ s => ?_) fun _ _ _ => Follows.modify ?_)
  · exact fails_finish fun t e _ he => Option.some.inj he ▸ h id t.assetId
  · exact fails_of_verdicts rfl

theorem fails_recover {granted : ℚ}
    (h : ∀ id name got, C id name (.noProgress name c.opts.recoveryLimit got)) :
    Follows (Fails C) (recover id granted now) c := by
  refine follows_withTransfer fun t ht => Follows.get_bind (Follows.modify_bind ?_ ?_)
  · exact fails_of_verdicts (verdicts_setProgress id _)
  refine Follows.ite (fun _ => fails_finish fun t' e ht' he => ?_) fun _ => ?_
  · obtain rfl := Option.some.inj he
    obtain ⟨t₁, ht₁, hname⟩ := exists_of_verdicts (verdicts_setProgress id _) ht'
    obtain rfl := Option.some.inj (ht.symm.trans ht₁)
    rw [← hname]
    exact h id t.assetId _
  · refine Follows.modify_bind (fails_of_verdicts verdicts_backoff) ?_
    refine Follows.modify_bind (fails_of_verdicts (verdicts_setProgress id _)) ?_
    exact Follows.bind (fails_of_keeps keeps_verdicts_resendReq) fun _ _ _ =>
      fails_of_keeps (keeps_verdicts_resendGrant granted)

theorem fails_tickTransfer (h : ∀ id name got, C id name (.noProgress name c.opts.recoveryLimit got)) :
    Follows (Fails C) (tickTransfer now id) c := by
  have hdetect : Follows (Keeps verdicts)
      (withTransfer id fun t => if t.asm.isSome then detectLoss id now else pure ()) c :=
    follows_withTransfer fun t _ => Follows.ite (fun _ => keeps_verdicts_detectLoss) fun _ => Follows.pure _
  refine Follows.bind (fails_of_keeps hdetect) fun _ s hexec => follows_withTransfer fun t _ => Follows.get_bind ?_
  have hs : s.opts = c.opts := congrArg Prod.fst (verdicts_of_exec hdetect hexec)
  refine Follows.ite (fun _ => Follows.modify (fails_of_verdicts (verdicts_setProgress id _))) fun _ => ?_
  refine Follows.bind (fails_of_keeps (keeps_verdicts_tailProbe _)) fun _ u hexec' => ?_
  have hu : u.opts = s.opts := congrArg Prod.fst (verdicts_of_exec (keeps_verdicts_tailProbe _) hexec')
  refine follows_withTransfer fun t _ => Follows.get_bind (Follows.ite (fun _ => fails_recover ?_) fun _ => Follows.pure _)
  rw [hu, hs]
  exact h

theorem fails_tick (h : ∀ id name got, C id name (.noProgress name c.opts.recoveryLimit got)) :
    Follows (Fails C) tick c := by
  have hseq {s : Http4Client} {now : ℚ} : Follows (Keeps verdicts)
      (if s.est.seqNegotiated then detectSeqLoss now else pure () : Js Unit) s :=
    Follows.ite (fun _ => keeps_verdicts_detectSeqLoss) fun _ => Follows.pure _
  refine Follows.bind (fails_of_keeps keeps_verdicts_performanceNow) fun now s hexec => Follows.get_bind ?_
  refine Follows.bind (fails_of_keeps hseq) fun _ u hexec' => Follows.get_bind ?_
  have hu : u.opts = c.opts := congrArg Prod.fst
    ((verdicts_of_exec hseq hexec').trans (verdicts_of_exec keeps_verdicts_performanceNow hexec))
  refine Follows.bind (Follows.forM_of (I := fun s => s.opts = c.opts) hu fun id _ s hs => ?_) fun _ s _ =>
    Follows.modify ?_
  · have hfails : Follows (Fails C) (tickTransfer now id) s := fails_tickTransfer (hs ▸ h)
    exact ⟨hfails, hfails.opts.trans hs⟩
  · split_ifs
    · exact fails_of_verdicts rfl
    · exact refl_of _ _

theorem fails_handleMeta (m : Wire.Ts.Meta) : Follows (Fails C) (handleMeta id m) c := by
  refine follows_withTransfer fun t _ => ?_
  cases t.headers with
  | some _ => exact Follows.pure _
  | none =>
    refine Follows.bind (fails_of_keeps keeps_verdicts_performanceNow) fun now s _ => Follows.modify_bind ?_ ?_
    · exact fails_of_verdicts (verdicts_setTransfer id fun _ => rfl)
    · refine Follows.bind (fails_of_keeps keeps_verdicts_maybeStart) fun _ _ _ => follows_withTransfer fun t _ => ?_
      exact Follows.ite (fun _ => fails_finish fun _ _ _ he => by cases he) fun _ => Follows.pure _

theorem fails_afterData : Follows (Fails C) (afterData id) c := by
  refine Follows.bind (fails_of_keeps keeps_verdicts_maybeStart) fun _ s _ =>
    Follows.bind (fails_of_keeps keeps_verdicts_flushStream) fun _ u _ => follows_withTransfer fun t _ => ?_
  refine Follows.ite (fun _ => fails_finish fun _ _ _ he => by cases he) fun _ => ?_
  refine Follows.bind (fails_of_keeps keeps_verdicts_performanceNow) fun _ _ _ => ?_
  exact Follows.ite (fun _ => fails_of_keeps keeps_verdicts_detectLoss) fun _ => Follows.pure _

/-- A payload that fits its total_size. -/
def Fits (d : Wire.Ts.Data) : Prop := 0 ≤ d.offset ∧ d.offset + d.payload.length ≤ d.totalSize

/-- A payload that fits is stored. -/
theorem add_ne_error {asm : Reassembly} {d : Wire.Ts.Data} (hfits : Fits d) (hsize : d.totalSize = asm.size)
    (e : RangeError) : asm.add d.offset d.payload ≠ .error e := by
  obtain ⟨hpos, hle⟩ := hfits
  unfold Reassembly.add
  dsimp only
  rw [if_neg (by omega)]
  split_ifs <;> intro h <;> cases h

theorem fails_storeData {d : Wire.Ts.Data} (hfits : Fits d)
    (hsize : ∀ t asm, c.objects.get? id = some t → t.asm = some asm → d.totalSize = asm.size) :
    Follows (Fails C) (storeData id d) c := by
  refine follows_withTransfer fun t ht => ?_
  cases hasm : t.asm with
  | none => exact Follows.pure _
  | some asm =>
    dsimp only
    cases hadd : asm.add d.offset d.payload with
    | error e => exact absurd hadd (add_ne_error hfits (hsize t asm ht hasm) e)
    | ok r =>
      refine Follows.modify_bind (fails_of_verdicts ?_) fails_afterData
      rw [verdicts_noteDelivered, verdicts_sampleProbe, verdicts_store]

theorem fails_handleData {d : Wire.Ts.Data} (hfits : Fits d) (alloc : Bool)
    (h : ∀ t asm, c.objects.get? id = some t → t.asm = some asm → d.totalSize ≠ asm.size →
      C id t.assetId (.totalSizeChanged asm.size d.totalSize)) :
    Follows (Fails C) (handleData alloc id d) c := by
  refine follows_withTransfer fun t ht => ?_
  cases hasm : t.asm with
  | none =>
    refine Follows.ite (fun _ => ?_) fun _ => Follows.throw _
    refine Follows.modify_bind (fails_of_verdicts (verdicts_learnSize _ _ _)) (fails_storeData hfits ?_)
    intro t' asm ht' hasm'
    change (c.objects.modify id _).get? id = _ at ht'
    rw [OrderedMap.get?_modify, if_pos rfl, ht] at ht'
    obtain rfl := Option.some.inj ht'
    obtain rfl := Option.some.inj hasm'
    have hpos := hfits.1
    have hle := hfits.2
    show d.totalSize = (d.totalSize.toNat : ℤ)
    omega
  | some asm =>
    refine Follows.ite (fun hsize => fails_finish fun t' e ht' he => ?_) fun hsize => fails_storeData hfits ?_
    · obtain rfl := Option.some.inj he
      obtain rfl := Option.some.inj (ht.symm.trans ht')
      exact h t asm ht hasm hsize
    · intro t' asm' ht' hasm'
      obtain rfl := Option.some.inj (ht.symm.trans ht')
      obtain rfl := Option.some.inj (hasm.symm.trans hasm')
      exact not_not.mp hsize

/-- A transfer after code that changes neither what it holds nor what its caller is told. -/
theorem exists_of_same {s : Http4Client} (hheld : s.held = c.held) (hverdicts : s.verdicts = c.verdicts)
    {t' : Transfer} (ht' : s.objects.get? id = some t') :
    ∃ t, c.objects.get? id = some t ∧ t.assetId = t'.assetId ∧ t.asm = t'.asm := by
  obtain ⟨t, ht, hname⟩ := exists_of_verdicts hverdicts ht'
  have hsome : s.held.2 id = some t'.held := held_of_get? ht'
  rw [hheld] at hsome
  obtain ⟨t₁, ht₁, heq⟩ := held_eq_some_iff.mp hsome
  obtain rfl := Option.some.inj (ht.symm.trans ht₁)
  exact ⟨t, ht, hname, congrArg Held.asm heq⟩

theorem fails_handlePacket {p : Wire.Ts.Packet} (alloc : Bool) (hfits : ∀ d, p = .data d → Fits d)
    (hserver : ∀ e, p = .error e → ∀ name, C e.rpcId name (.server name e.code))
    (hsize : ∀ d t asm, p = .data d → c.objects.get? d.rpcId = some t → t.asm = some asm → d.totalSize ≠ asm.size →
      C d.rpcId t.assetId (.totalSizeChanged asm.size d.totalSize)) :
    Follows (Fails C) (handlePacket alloc p) c := by
  refine follows_withTransfer fun t ht => Follows.ite (fun _ => Follows.pure _) fun _ => ?_
  cases p with
  | metaData m =>
    exact Follows.bind (fails_of_keeps (keeps_verdicts_noteReply t)) fun _ _ _ => fails_handleMeta m
  | data d =>
    refine Follows.bind (fails_of_keeps (keeps_verdicts_noteReply t)) fun _ s hexec =>
      fails_handleData (hfits d rfl) alloc fun t' asm ht' hasm hne => ?_
    obtain ⟨t₀, ht₀, hname, hasm₀⟩ := exists_of_same (held_of_exec (keeps_held_noteReply t) hexec)
      (verdicts_of_exec (keeps_verdicts_noteReply t) hexec) ht'
    rw [← hname]
    exact hsize d t₀ asm rfl ht₀ (hasm₀.trans hasm) hne
  | error e =>
    refine fails_finish fun t' e' ht' he => ?_
    obtain rfl := Option.some.inj he
    obtain rfl := Option.some.inj (ht.symm.trans ht')
    exact hserver e rfl t.assetId
  | req | grant | resend | hello | dataSeq | resendSeq => exact Follows.pure _

end Ends

/-! ## Steps -/

/-- What `decode` returns is well formed. -/
theorem Http4Client.Decoded.wellFormed {inc : Option Wire.Ts.Packet} (h : Decoded inc) {p : Wire.Ts.Packet}
    (hp : inc = some p) : ∃ q : Wire.Packet, q.WellFormed ∧ p = Wire.Ts.ofGo q := by
  obtain ⟨b, hb⟩ := h p hp
  rw [Wire.Ts.decode_eq_map] at hb
  cases hgo : Wire.Go.decode b with
  | error e =>
    rw [hgo] at hb
    cases hb
  | ok q =>
    rw [hgo] at hb
    exact ⟨q, (Wire.Go.decode_eq_ok_iff.mp hgo).1, (Except.ok.inj hb).symm⟩

/-- A payload that was decoded fits its total_size. -/
theorem Http4Client.Decoded.fits {inc : Option Wire.Ts.Packet} (h : Decoded inc) {d : Wire.Ts.Data}
    (hd : Carried inc d) : Fits d := by
  have hfits {d : Wire.Data} (hwf : d.InBounds) : (0 : ℤ) ≤ d.offset.toNat ∧
      ((d.offset.toNat : ℤ) + d.payload.length ≤ d.totalSize.toNat) := by
    have hle : d.offset.toNat + d.payload.length ≤ d.totalSize.toNat := hwf
    omega
  rcases hd with hd | ⟨s, hs, rfl⟩
  · obtain ⟨q, hwf, hq⟩ := h.wellFormed hd
    cases q <;> cases hq
    exact hfits hwf
  · obtain ⟨q, hwf, hq⟩ := h.wellFormed hs
    cases q <;> cases hq
    exact hfits hwf

namespace Http4Client

variable {c c' : Http4Client} {opts : ClientOptions} {maxDatagramSize : ℕ}

/-- Why a step from `c` to `c'` rejects the promise of a transfer, by its rpc_id and its
    asset ID. -/
inductive Cause (c c' : Http4Client) : Event → ℤ → JsString → Failure → Prop
  | sessionEnded {id : ℤ} {name : JsString} (hclosed : c'.sessionClosed = true) :
      Cause c c' .sessionEnded id name .sessionClosed
  | noProgress {id : ℤ} {name : JsString} {got : Option (ℤ × ℕ)} :
      Cause c c' .tick id name (.noProgress name c.opts.recoveryLimit got)
  | server {b : Bytes} {alloc : Bool} {name : JsString} {p : Wire.Ts.ErrorPacket}
      (hp : packetIn b = some (.error p)) : Cause c c' (.datagram b alloc) p.rpcId name (.server name p.code)
  | totalSizeChanged {b : Bytes} {alloc : Bool} {d : Wire.Ts.Data} {t : Transfer} {asm : Reassembly}
      (hd : Carried (packetIn b) d) (ht : c.objects.get? d.rpcId = some t) (hasm : t.asm = some asm)
      (hne : d.totalSize ≠ asm.size) :
      Cause c c' (.datagram b alloc) d.rpcId t.assetId (.totalSizeChanged asm.size d.totalSize)
  | readRejected {id : ℤ} {name : JsString} (hreading : c'.reading = false) :
      Cause c c' .readRejected id name (.thrown .readRejected)
  | caught {b : Bytes} {alloc : Bool} {id : ℤ} {name : JsString} {e : Thrown} (hreading : c'.reading = false) :
      Cause c c' (.datagram b alloc) id name (.thrown e)

end Http4Client

section Steps

variable {c : Http4Client} {C : ℤ → JsString → Failure → Prop}

theorem fails_handle {p : Wire.Ts.Packet} (alloc : Bool) (hdec : Decoded (some p))
    (hserver : ∀ e, p = .error e → ∀ name, C e.rpcId name (.server name e.code))
    (hsize : ∀ d t asm, Carried (some p) d → c.objects.get? d.rpcId = some t → t.asm = some asm →
      d.totalSize ≠ asm.size → C d.rpcId t.assetId (.totalSizeChanged asm.size d.totalSize)) :
    Follows (Fails C) (handle alloc p) c := by
  cases p with
  | dataSeq p =>
    have hcarried (d : Wire.Ts.Data) (hd : Wire.Ts.Packet.data p.toData = .data d) : Carried (some (.dataSeq p)) d :=
      .inr ⟨p, rfl, Wire.Ts.Packet.data.inj hd⟩
    refine Follows.bind (fails_of_keeps (keeps_verdicts_noteSeq p)) fun _ s hexec => fails_handlePacket alloc
      (fun d hd => hdec.fits (hcarried d hd)) (fun e he => by cases he) fun d t' asm hd ht' hasm hne => ?_
    obtain ⟨t, ht, hname, hasm'⟩ := exists_of_same (held_of_exec (keeps_held_noteSeq p) hexec)
      (verdicts_of_exec (keeps_verdicts_noteSeq p) hexec) ht'
    rw [← hname]
    exact hsize d t asm (hcarried d hd) ht (hasm'.trans hasm) hne
  | req | data | grant | resend | error | metaData | hello | resendSeq =>
    exact fails_handlePacket alloc (fun d hd => hdec.fits (.inl (congrArg some hd))) hserver
      fun d t asm hd => hsize d t asm (.inl (congrArg some hd))

theorem fails_readDatagram (alloc : Bool) (b : Bytes)
    (hserver : ∀ e, packetIn b = some (.error e) → ∀ name, C e.rpcId name (.server name e.code))
    (hsize : ∀ d t asm, Carried (packetIn b) d → c.objects.get? d.rpcId = some t → t.asm = some asm →
      d.totalSize ≠ asm.size → C d.rpcId t.assetId (.totalSizeChanged asm.size d.totalSize)) :
    Follows (Fails C) (readDatagram alloc b) c := by
  have hdec := decoded_packetIn b
  unfold packetIn at hdec hserver hsize
  unfold readDatagram
  cases hb : Wire.Ts.decode b with
  | error e =>
    cases e with
    | malformed => exact Follows.pure _
    | outOfRange => exact Follows.throw _
  | ok p =>
    rw [hb] at hdec hserver hsize
    refine Follows.bind (fails_handle alloc hdec (fun e he => hserver e (congrArg some he)) hsize) fun _ _ _ => ?_
    exact fails_of_keeps keeps_verdicts_pumpGrants

theorem fails_readLoopCatch {e : Thrown} (h : ∀ id name, C id name (.thrown e)) :
    Follows (Fails C) (readLoopCatch e) c :=
  Follows.modify_bind (fails_of_verdicts rfl) (fails_failAll h)

theorem fails_start {id : ℤ} (hfresh : c.objects.get? id = none) (assetId : JsString) (streaming : Bool)
    (cls : PriorityClass) : Follows (Fails C) (start id assetId streaming cls) c := by
  refine Follows.get_bind (Follows.ite (fun _ => Follows.pure _) fun _ => ?_)
  dsimp only
  cases (Outgoing.req id c.nextInitialGrant assetId).encode with
  | none => exact Follows.throw _
  | some b =>
    refine Follows.ite (fun _ => Follows.pure _) fun _ => Follows.modify_bind ⟨rfl, fun id' t ht => ?_,
      fun id' t' e ht' he => ?_⟩ ?_
    · refine ⟨t, ?_, rfl⟩
      show (c.objects.set id _).get? id' = some t
      rw [OrderedMap.get?_set, if_neg fun heq => by rw [heq, hfresh] at ht; cases ht]
      exact ht
    · change (c.objects.set id _).get? id' = some t' at ht'
      rw [OrderedMap.get?_set] at ht'
      split_ifs at ht'
      · obtain rfl := Option.some.inj ht'
        cases he
      · exact .inl ⟨t', ht', he⟩
    · exact Follows.bind (fails_of_keeps keeps_verdicts_sendHello) fun _ _ _ =>
        Follows.bind (fails_of_keeps (keeps_verdicts_send _)) fun _ _ _ => Follows.pure _

theorem keeps_verdicts_setBody (id : ℤ) (f : ReadableStream → ReadableStream) :
    (c.setBody id f).verdicts = c.verdicts := verdicts_setStream id _

theorem keeps_verdicts_readStream {id : ℤ} : Follows (Keeps verdicts) (readStream id) c := by
  refine Follows.get_bind (Follows.modify_bind (keeps_verdicts_setBody id _) ?_)
  exact Follows.ite (fun _ => keeps_verdicts_callPullIfNeeded) fun _ => Follows.pure _

theorem keeps_verdicts_pullDone {id : ℤ} : Follows (Keeps verdicts) (pullDone id) c := by
  refine Follows.get_bind (Follows.ite (fun _ => Follows.modify (keeps_verdicts_setBody id _)) fun _ => ?_)
  refine Follows.modify_bind (keeps_verdicts_setBody id _) ?_
  exact Follows.ite (fun _ => keeps_verdicts_callPullIfNeeded) fun _ => Follows.pure _

theorem keeps_verdicts_cancelStream {id : ℤ} : Follows (Keeps verdicts) (cancelStream id) c := by
  refine Follows.modify_bind (verdicts_setStream id _) (Follows.tryCatch ?_ fun _ _ _ => Follows.pure _)
  exact Follows.bind keeps_verdicts_remove fun _ _ _ => keeps_verdicts_pumpGrants

namespace Http4Client

/-- The read loop has ended after its catch. -/
theorem reading_readLoopCatch (e : Thrown) : (exec (readLoopCatch e) c).2.reading = false :=
  (Reaches.flags (i := none) (follows_failAll (c := { c with reading := false }) (.thrown e) fun _ _ => trivial)).1

/-- The code of an event rejects nothing without a cause. -/
theorem fails_code {e : Event} (h : c.Enabled e) : Follows (Fails (Cause c (exec (code e) c).2 e)) (code e) c := by
  cases e with
  | request id assetId streaming cls =>
    exact Follows.bind (fails_start h.2.2 assetId streaming cls) fun _ _ _ => Follows.pure _
  | datagram b alloc =>
    refine Follows.tryCatch (fails_readDatagram alloc b (fun e he _ => .server he) fun d t asm => .totalSizeChanged)
      fun e s hexec => fails_readLoopCatch fun _ _ => .caught ?_
    unfold code
    rw [exec_tryCatch, hexec]
    exact reading_readLoopCatch e
  | readDone => exact Follows.modify (fails_of_verdicts rfl)
  | readRejected => exact fails_readLoopCatch fun _ _ => .readRejected (reading_readLoopCatch _)
  | tick => exact fails_tick fun _ _ _ => .noProgress
  | streamStarted id =>
    exact fails_of_keeps (Follows.modify_bind (keeps_verdicts_setBody id _) keeps_verdicts_callPullIfNeeded)
  | read id => exact fails_of_keeps keeps_verdicts_readStream
  | pullSettled id => exact fails_of_keeps keeps_verdicts_pullDone
  | cancel id => exact fails_of_keeps keeps_verdicts_cancelStream
  | close => exact Follows.modify (fails_of_verdicts rfl)
  | sessionEnded =>
    have hclosed : (exec (code .sessionEnded) c).2.sessionClosed = true :=
      (Reaches.flags (i := none) (follows_failAll (c := { c with sessionClosed := true })
        .sessionClosed fun _ _ => trivial)).2
    exact Follows.modify_bind (fails_of_verdicts rfl) (fails_failAll fun _ _ => .sessionEnded hclosed)

/-- A cause does not depend on the clock. -/
theorem Cause.of_est {e : Event} {id : ℤ} {name : JsString} {x : Failure} {est : Estimates}
    (h : Cause { c with est := est } c' e id name x) : Cause c c' e id name x := by
  cases h with
  | sessionEnded hclosed => exact .sessionEnded hclosed
  | noProgress => exact .noProgress
  | server hp => exact .server hp
  | totalSizeChanged hd ht hasm hne => exact .totalSizeChanged hd ht hasm hne
  | readRejected hreading => exact .readRejected hreading
  | caught hreading => exact .caught hreading

/-- **A step rejects nothing without a cause.** -/
theorem fails_step {a : Step} (h : c.step a = some c') : Fails (Cause c c' a.event) c c' := by
  rw [step] at h
  split_ifs at h with henabled
  obtain rfl := Option.some.inj h
  have helapse : Fails (Cause c (exec (code a.event) { c with est := { c.est with elapse := a.elapse } }).2 a.event) c
      { c with est := { c.est with elapse := a.elapse } } := fails_of_verdicts rfl
  exact trans_of _ helapse (Fails.mono (fails_code (enabled_elapse henabled a.elapse)) fun _ _ _ => Cause.of_est)

/-- The read loop and the session end for good. -/
theorem ended_of_step {a : Step} (h : c.step a = some c') :
    (c.reading = false → c'.reading = false) ∧ (c.sessionClosed = true → c'.sessionClosed = true) := by
  have hstay (P : Http4Client → Prop) (hmove : ∀ {i : Option Wire.Ts.Packet} (s s' : Http4Client), P s → Move i s s' → P s')
      (hflag : ∀ s s', P s → Flag s s' → P s') (hP : P c) : P c' :=
    Walk.preserves hmove hflag (step_walk h) hP
  refine ⟨hstay (fun c => c.reading = false) (fun s s' hs hm => ?_) fun s s' hs hf => ?_,
    hstay (fun c => c.sessionClosed = true) (fun s s' hs hm => ?_) fun s s' hs hf => ?_⟩
  · exact (Reaches.flags (.single hm)).1.trans hs
  · cases hf with
    | stopReading => rfl
    | close | endSession => exact hs
  · exact (Reaches.flags (.single hm)).2.trans hs
  · cases hf with
    | endSession => rfl
    | close | stopReading => exact hs

/-! ## Giving up -/

theorem Due.flag {id : ℤ} {e : Failure} (h : Due id e c) (hf : Flag c c') : Due id e c' := by
  cases hf with
  | stopReading | close | endSession => exact h

/-- What a transfer may be rejected with stays so. -/
theorem Due.step {a : Step} {id : ℤ} {e : Failure} (h : Due id e c) (hstep : c.step a = some c') : Due id e c' :=
  Walk.preserves (fun _ _ => Due.move) (fun _ _ => Due.flag) (step_walk hstep) h

/-- Whatever a transfer was rejected with was due. -/
def Earned (c : Http4Client) : Prop :=
  ∀ id t e, c.objects.get? id = some t → e ∈ t.failures → Due id e c

theorem Earned.move {inc : Option Wire.Ts.Packet} (h : Earned c) (hm : Move inc c c') : Earned c' := by
  intro id t' e ht' he
  rcases hm.origin ht' with ⟨t, ht, rfl | ⟨s, hchange⟩⟩ | ⟨-, hnone, -⟩
  · exact (h id t' e ht he).move hm
  · have hold (he : e ∈ t.failures) : Due id e c' := (h id t e ht he).move hm
    cases hchange with
    | settle x hnot hx hstalled =>
      rcases List.mem_append.mp (mem_failures_iff.mp he) with he | he
      · exact hold (mem_failures_iff.mpr he)
      · exact Due.move ⟨t, ht, hstalled e (List.mem_singleton.mp he).symm⟩ hm
    | learn | store | progress | headers | claim | stream | pause | unpause | remove => exact hold he
  · rw [Transfer.failures, hnone] at he
    cases he

/-- **Nothing is rejected early**, in any run. -/
theorem earned_reachable {opts : ClientOptions} {maxDatagramSize : ℕ}
    (h : Machine.Reachable Http4Client.step (connect opts maxDatagramSize) c) : Earned c := by
  refine invariant_of_moves (P := Earned) (fun id t e ht => by cases ht) (fun _ _ _ _ h hm => h.move hm)
    (fun c c' h hf id t e ht he => ?_) h
  have hobjects : c'.objects = c.objects := by
    cases hf <;> rfl
  exact (h id t e (hobjects ▸ ht) he).flag hf

end Http4Client

end Steps

end Http4.Client
