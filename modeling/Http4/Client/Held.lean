import Http4.Client.Code

/-!
# What timers and senders leave alone

Most functions of `Transport.lean` only time, send and keep count. None of them
changes what a transfer holds: its bytes, its META, its stream, and whether
`this.transfers` holds it.

Main results:

* `held_setStream`: what a change to one stream makes of what the transfers hold.
* `keeps_held_pumpGrants`, `keeps_held_detectLoss`, …: one lemma for each function.
-/

namespace Http4.Client

open Routine Http4Client
open Wire.Ts (JsString)

/-! ## What a transfer holds -/

/-- The parts of a transfer that only packets and readers change. -/
structure Held where
  live : Bool
  asm : Option Reassembly
  headers : Option (List (JsString × JsString))
  stream : Option StreamState

/-- What a transfer holds. -/
def Transfer.held (t : Transfer) : Held :=
  { live := t.live, asm := t.asm, headers := t.headers, stream := t.stream }

/-- A change to the stream that a transfer holds. -/
def Held.setStream (f : StreamState → StreamState) (x : Held) : Held := { x with stream := x.stream.map f }

/-- The reassembly that a transfer holds after DATA. -/
def Held.setAsm (asm : Reassembly) (x : Held) : Held := { x with asm := some asm }

namespace Http4Client

variable {c c' : Http4Client} {id : ℤ}

/-- What each transfer holds, and the options. -/
def held (c : Http4Client) : ClientOptions × (ℤ → Option Held) :=
  (c.opts, fun id => (c.objects.get? id).map Transfer.held)

theorem held_eq_some_iff {x : Held} :
    c.held.2 id = some x ↔ ∃ t, c.objects.get? id = some t ∧ t.held = x := Option.map_eq_some_iff

theorem held_of_get? {t : Transfer} (h : c.objects.get? id = some t) : c.held.2 id = some t.held :=
  held_eq_some_iff.mpr ⟨t, h, rfl⟩

theorem held_setTransfer (id : ℤ) {f : Transfer → Transfer} {g : Held → Held}
    (h : ∀ t, (f t).held = g t.held) :
    (c.setTransfer id f).held = (c.held.1, Function.update c.held.2 id ((c.held.2 id).map g)) := by
  refine Prod.ext rfl (funext fun id' => ?_)
  change ((c.objects.modify id f).get? id').map Transfer.held =
    Function.update c.held.2 id ((c.held.2 id).map g) id'
  rw [OrderedMap.get?_modify, Function.update_apply]
  split_ifs with hid
  · rw [hid]
    change ((c.objects.get? id).map f).map _ = ((c.objects.get? id).map _).map g
    rw [Option.map_map, Option.map_map]
    exact congrArg (Option.map · _) (funext h)
  · rfl

/-- A change that does not touch what the transfer holds. -/
theorem held_setTransfer_of (id : ℤ) {f : Transfer → Transfer} (h : ∀ t, (f t).held = t.held) :
    (c.setTransfer id f).held = c.held := by
  rw [held_setTransfer id (g := fun x => x) h, Option.map_id', Function.update_eq_self]

theorem held_setProgress (id : ℤ) (f : Progress → Progress) : (c.setProgress id f).held = c.held :=
  held_setTransfer_of id fun _ => rfl


theorem held_setStream (id : ℤ) (f : StreamState → StreamState) :
    (c.setStream id f).held =
      (c.held.1, Function.update c.held.2 id ((c.held.2 id).map (Held.setStream f))) :=
  held_setTransfer id fun _ => rfl

/-- The same change to what is held leaves the same held. -/
theorem held_setStream_congr (h : c'.held = c.held) (f : StreamState → StreamState) :
    (c'.setStream id f).held = (c.setStream id f).held := by
  rw [held_setStream, held_setStream, h]

theorem setStream_congr {f g : StreamState → StreamState}
    (h : ∀ t st, c.objects.get? id = some t → t.stream = some st → f st = g st) :
    c.setStream id f = c.setStream id g := by
  cases ht : c.objects.get? id with
  | none => rw [setStream, setStream, setTransfer_of_none ht, setTransfer_of_none ht]
  | some t =>
    have hmap : t.stream.map f = t.stream.map g := by
      cases hst : t.stream with
      | none => rfl
      | some st => exact congrArg some (h t st ht hst)
    rw [setStream, setStream, setTransfer_of_some ht fun t => { t with stream := t.stream.map f },
      setTransfer_of_some ht fun t => { t with stream := t.stream.map g }, hmap]

/-- A change that changes nothing. -/
theorem setStream_of_fixed {f : StreamState → StreamState}
    (h : ∀ t st, c.objects.get? id = some t → t.stream = some st → f st = st) : c.setStream id f = c := by
  rw [setStream_congr (g := fun st => st) h, setStream, setTransfer]
  cases ht : c.objects.get? id with
  | none => rw [OrderedMap.modify_of_none ht]
  | some t => rw [OrderedMap.modify_of_fixed ht (by rw [Option.map_id'])]

theorem setStream_setStream (f g : StreamState → StreamState) :
    ((c.setStream id f).setStream id g).held = (c.setStream id fun st => g (f st)).held := by
  simp only [held_setStream, Function.update_self, Function.update_idem, Option.map_map]
  refine congrArg (fun k => (c.held.1, Function.update c.held.2 id ((c.held.2 id).map k))) (funext fun x => ?_)
  change ({ x with stream := (x.stream.map f).map g } : Held) = { x with stream := x.stream.map _ }
  rw [Option.map_map]
  rfl

end Http4Client

/-! ## The functions -/

section Functions

variable {c : Http4Client} {id : ℤ} {now : ℚ}

theorem held_of_exec {α : Type} {m : Js α} {r : Except Thrown α} {s : Http4Client}
    (h : Follows (Keeps held) m c) (hexec : exec m c = (r, s)) : s.held = c.held := by
  rw [Follows, hexec] at h
  exact h

theorem keeps_held_performanceNow : Follows (Keeps held) performanceNow c :=
  Follows.get_bind (Follows.modify_bind rfl (Follows.pure _))

theorem keeps_held_send (p : Outgoing) : Follows (Keeps held) (send p) c := keeps_send held (fun _ _ => rfl) p

theorem keeps_held_startProbe (t : Transfer) : Follows (Keeps held) (startProbe id t) c := by
  rw [startProbe]
  cases t.progress.probe with
  | some _ => exact Follows.pure _
  | none => exact Follows.bind keeps_held_performanceNow fun _ _ _ => Follows.modify (held_setProgress id _)

theorem keeps_held_sendGrant (g : GrantDecision) : Follows (Keeps held) (sendGrant g) c := by
  refine Follows.bind (follows_withTransfer fun t _ => ?_) fun _ _ _ => keeps_held_send _
  refine Follows.ite (fun _ => ?_) fun _ => Follows.pure _
  exact Follows.bind (keeps_held_startProbe t) fun _ _ _ => Follows.modify (held_setProgress _ _)

theorem keeps_held_pumpGrants : Follows (Keeps held) pumpGrants c := by
  refine Follows.get_bind (Follows.modify_bind rfl ?_)
  refine Follows.bind (Follows.forM fun g _ _ => keeps_held_sendGrant g) fun _ s _ => Follows.modify ?_
  split_ifs <;> rfl

theorem keeps_held_maybeStart : Follows (Keeps held) (maybeStart id) c := by
  refine follows_withTransfer fun t _ => ?_
  cases t.stream with
  | none => exact Follows.pure _
  | some st =>
    cases t.asm with
    | none => exact Follows.pure _
    | some asm =>
      cases t.headers with
      | none => exact Follows.pure _
      | some headers =>
        refine Follows.ite (fun _ => Follows.pure _) fun _ => ?_
        exact Follows.modify (held_setTransfer_of id fun _ => rfl)

theorem keeps_held_settle (err : Option Failure) : Follows (Keeps held) (settle id err) c := by
  refine follows_withTransfer fun t _ => Follows.ite (fun _ => Follows.pure _) fun _ => ?_
  exact Follows.modify (held_setTransfer_of id fun _ => rfl)

theorem keeps_held_sendResends (r : List (Range ℚ) × RepairTracker) :
    Follows (Keeps held) (sendResends id r) c :=
  keeps_sendResends held (fun _ _ => rfl) (fun _ _ => held_setTransfer_of id fun _ => rfl) r

theorem keeps_held_detectLoss : Follows (Keeps held) (detectLoss id now) c := by
  refine Follows.modify_bind (held_setProgress id _) (Follows.get_bind (follows_withTransfer fun t _ => ?_))
  cases t.asm with
  | none => exact Follows.pure _
  | some asm =>
    cases t.repair with
    | none => exact Follows.pure _
    | some repair =>
      refine Follows.ite (fun _ => Follows.pure _) fun _ => ?_
      exact Follows.ite (fun _ => Follows.pure _) fun _ => keeps_held_sendResends _

theorem keeps_held_detectSeqLoss : Follows (Keeps held) (detectSeqLoss now) c := by
  have hsend {c : Http4Client} (rs : List (Range ℤ)) : Follows (Keeps held) (sendResendSeqs rs) c :=
    Follows.forM fun _ _ _ => keeps_held_send _
  refine Follows.modify_bind rfl (Follows.get_bind (Follows.ite (fun _ => Follows.pure _) fun _ => ?_))
  refine Follows.modify_bind rfl (Follows.bind (hsend _) fun _ _ _ => Follows.get_bind ?_)
  exact Follows.modify_bind rfl (hsend _)

theorem keeps_held_resendReq : Follows (Keeps held) (resendReq id) c := by
  refine follows_withTransfer fun t _ => Follows.ite (fun _ => ?_) fun _ => Follows.pure _
  exact Follows.modify_bind (held_setProgress id _) (keeps_held_send _)

theorem keeps_held_resendGrant (granted : ℚ) : Follows (Keeps held) (resendGrant id granted now) c := by
  refine follows_withTransfer fun t _ => ?_
  cases t.asm with
  | none => exact Follows.pure _
  | some asm =>
    cases t.repair with
    | none => exact Follows.pure _
    | some repair =>
      refine Follows.bind (Follows.ite (fun _ => keeps_held_send _) fun _ => Follows.pure _) fun _ _ _ => ?_
      exact Follows.get_bind (keeps_held_sendResends _)

theorem keeps_held_tailProbe (granted : ℚ) : Follows (Keeps held) (tailProbe id granted now) c := by
  refine follows_withTransfer fun t _ => Follows.get_bind ?_
  cases t.asm with
  | none => exact Follows.pure _
  | some asm =>
    cases t.repair with
    | none => exact Follows.pure _
    | some repair =>
      cases c.est.srtt with
      | none => exact Follows.pure _
      | some srtt =>
        refine Follows.ite (fun _ => ?_) fun _ => Follows.pure _
        exact Follows.modify_bind (held_setProgress id _) (keeps_held_sendResends _)

theorem held_backoff : ((c.lossBackoff now).backoffInitialRto now).held = c.held := by
  have hloss : (c.lossBackoff now).held = c.held := by
    rw [lossBackoff]
    split_ifs <;> rfl
  rw [← hloss, backoffInitialRto]
  split_ifs <;> rfl

theorem held_noteSpurious : (c.noteSpurious now).held = c.held := by
  rw [noteSpurious]
  split_ifs <;> rfl

theorem held_sampleRtt (r : ℚ) : (c.sampleRtt r).held = c.held := by
  rw [show c.held = (((c.noteSample r).setBudget (c.budget.onRttSample r c.now)).advance).held from rfl, sampleRtt]
  generalize ((c.noteSample r).setBudget (c.budget.onRttSample r c.now)).advance = s
  cases s.est.srtt <;> rfl

theorem keeps_held_noteSeq (p : Wire.Ts.DataSeq) : Follows (Keeps held) (noteSeq p) c := by
  refine Follows.bind keeps_held_performanceNow fun now s _ => Follows.get_bind (Follows.modify_bind rfl ?_)
  refine Follows.bind ?_ fun _ s _ => Follows.get_bind ?_
  · exact Follows.ite (fun _ => Follows.modify held_noteSpurious) fun _ => Follows.pure _
  · exact Follows.ite (fun _ => keeps_held_detectSeqLoss) fun _ => Follows.pure _

theorem keeps_held_noteReply (t : Transfer) : Follows (Keeps held) (noteReply id t) c := by
  refine Follows.ite (fun _ => Follows.pure _) fun _ => Follows.modify_bind (held_setProgress id _) ?_
  exact Follows.ite (fun _ => Follows.pure _) fun _ => Follows.modify (held_sampleRtt _)

theorem held_sampleProbe (stop : ℤ) (t : Transfer) : (c.sampleProbe id stop t).held = c.held := by
  rw [sampleProbe]
  cases t.progress.probe with
  | none => rfl
  | some probe =>
    dsimp only
    split_ifs
    · exact held_setProgress id _
    · rfl

theorem held_noteDelivered (fresh : ℤ) : (c.noteDelivered id fresh).held = c.held := by
  rw [noteDelivered]
  split_ifs
  · let s := (c.setBudget (c.budget.onDelivered fresh c.now)).advance
    have hprogress := held_setProgress (c := s) id fun p =>
      { p with lastProgress := s.now, recoveries := 0, tailProbed := false }
    exact hprogress
  · rfl

theorem held_store (asm : Reassembly) (fresh : ℤ) (length : ℕ) (repair : Option RepairTracker) :
    (c.store id asm fresh length repair).held =
      (c.held.1, Function.update c.held.2 id ((c.held.2 id).map (Held.setAsm asm))) := by
  have hasm := held_setTransfer (c := c) (g := Held.setAsm asm) (f := fun t => { t with asm := some asm }) id
    fun _ => rfl
  rw [store_eq]
  exact hasm

theorem held_learnSize (id : ℤ) (totalSize : ℤ) (t : Transfer) :
    (c.learnSize id totalSize t).held =
      (c.held.1, Function.update c.held.2 id ((c.held.2 id).map (Held.setAsm (.new totalSize.toNat)))) := by
  have hasm := held_setTransfer (c := c) (g := Held.setAsm (.new totalSize.toNat))
    (f := fun t => { t with asm := some (.new totalSize.toNat), repair := some .new }) id fun _ => rfl
  exact hasm

end Functions

end Http4.Client
