import Http4.Client.Integrity
import Http4.Client.Settled

/-!
# How a transfer ends

A transfer that has left `this.transfers` has delivered its body or its caller has been
told that it failed, by a rejection or by an error of the stream it got; only a reader
that cancels its stream is told nothing.

Main results:

* `Kept.step`: what a step keeps of a transfer that it does not cancel.
* `Kept.outcome`: a transfer that has left has delivered its body or failed.
-/

namespace Http4.Client

open Routine Http4Client
open Wire.Ts (JsString)

/-! ## Outcomes -/

/-- The caller has the whole body, or a stream that closes with it. -/
def Transfer.Delivered (t : Transfer) : Prop :=
  (∃ body headers, .response body headers ∈ t.settlements) ∨
    ∃ size headers st, .stream size headers ∈ t.settlements ∧ t.stream = some st ∧
      st.body.closeRequested = true ∧ st.body.phase ≠ .errored

/-- The promise was rejected, or the stream that the caller got has errored. -/
def Transfer.Failed (t : Transfer) : Prop :=
  (∃ e, .rejected e ∈ t.settlements) ∨
    ∃ size headers st, .stream size headers ∈ t.settlements ∧ t.stream = some st ∧ st.body.phase = .errored

/-! ## Streams that nobody cancels -/

section Streams

variable {F : Leave} {st st' : StreamState}

/-- A stream is closed only when that was asked for. -/
def StreamState.Shuts (st : StreamState) : Prop := st.body.phase = .closed → st.body.closeRequested = true

theorem StreamState.Shuts.callPull (h : st.Shuts) (failed : Bool) : (st.callPull failed).Shuts := by
  obtain ⟨_, _, _, _, heq⟩ := st.callPull_eq failed
  rw [heq]
  exact h

theorem phase_error (s : ReadableStream) (h : s.error.phase = .closed) : s.phase = .closed := by
  unfold ReadableStream.error at h
  split_ifs at h
  exact h

theorem closeRequested_read (s : ReadableStream) : s.read.closeRequested = s.closeRequested := by
  unfold ReadableStream.read
  split
  · rfl
  · split_ifs <;> rfl
  · rfl
  · rfl

/-- A read closes a stream that was to be closed. -/
theorem phase_read (s : ReadableStream) (h : s.read.phase = .closed) : s.phase = .closed ∨ s.closeRequested = true := by
  unfold ReadableStream.read at h
  split at h
  · next hphase hqueue =>
    change s.phase = _ at h
    exact .inl h
  · split_ifs at h with hlast
    · exact .inr (Bool.and_eq_true_iff.mp hlast).1
    · exact .inl h
  · exact .inl h
  · exact .inl h

/-- Every turn but a cancel keeps it so. -/
theorem StreamState.Shuts.turn (h : st.Shuts) (hkept : ¬ F.cancel) (hturn : StreamTurn F st st') : st'.Shuts := by
  cases hturn with
  | enqueued failed upTo chunk =>
    refine StreamState.Shuts.callPull (fun hphase => ?_) failed
    change (st.body.enqueue chunk).phase = _ at hphase
    change (st.body.enqueue chunk).closeRequested = _
    unfold ReadableStream.enqueue at hphase ⊢
    split_ifs at hphase ⊢ <;> exact h hphase
  | skipped | paused | shut | pullDone => exact h
  | ended =>
    intro _
    show st.body.close.closeRequested = true
    unfold ReadableStream.close
    split_ifs <;> rfl
  | errored | pullRejected =>
    exact fun hphase => (closeRequested_error st.body).trans (h (phase_error st.body hphase))
  | started failed | pulledAgain failed =>
    refine StreamState.Shuts.callPull ?_ failed
    exact h
  | read failed =>
    refine StreamState.Shuts.callPull (fun hphase => ?_) failed
    exact (closeRequested_read st.body).trans ((phase_read st.body hphase).elim h fun hclose => hclose)
  | cancelled hcancel => exact absurd hcancel hkept

theorem StreamState.Shuts.reach (h : st.Shuts) (hkept : ¬ F.cancel) (hreach : Relation.ReflTransGen (StreamTurn F) st st') :
    st'.Shuts := by
  induction hreach with
  | refl => exact h
  | tail _ hturn ih => exact ih.turn hkept hturn

end Streams

/-! ## Transfers that nobody cancels -/

namespace Http4Client

variable {c c' : Http4Client} {id : ℤ} {a : Step}

/-- What holds of a transfer whose stream nobody has cancelled. -/
structure Kept (id : ℤ) (c : Http4Client) : Prop where
  settled : ∀ t, c.objects.get? id = some t → t.live = false → t.settled = true
  ended : ∀ st, c.streamOf id = some (false, st) → st.body.canEnqueue = false
  shuts : ∀ live st, c.streamOf id = some (live, st) → StreamOk st ∧ st.Shuts

/-- What has left `this.transfers` is settled, if it is not cancelled. -/
theorem Kept.settled_step (h : Kept id c) (hkept : a.event ≠ .cancel id) (hstep : c.step a = some c') {t' : Transfer}
    (ht' : c'.objects.get? id = some t') (hlive : t'.live = false) : t'.settled = true := by
  have hkeeps (hsettled : SettledAt id c) : t'.settled = true := by
    obtain ⟨t, ht, hsettled⟩ := Walk.preserves (P := SettledAt id) (fun _ _ => SettledAt.move)
      (fun s s' hs hf => by cases hf <;> exact hs) (step_walk hstep) hsettled
    obtain rfl := Option.some.inj (ht'.symm.trans ht)
    exact hsettled
  have hstays (hsame : c'.lives id = c.lives id) : t'.settled = true := by
    obtain ⟨t, ht, heq⟩ := lives_eq_some_iff.mp (hsame.symm.trans (lives_of_get? ht'))
    exact hkeeps ⟨t, ht, h.settled t ht (heq.trans hlive)⟩
  by_cases hcancel : ∃ id', a.event = .cancel id'
  · obtain ⟨id', hevent⟩ := hcancel
    have hne : id ≠ id' := fun heq => hkept (heq ▸ hevent)
    refine hstays ?_
    rw [step, hevent] at hstep
    split_ifs at hstep
    obtain rfl := Option.some.inj hstep
    exact lives_cancelStream hne
  · rcases (step_tidy hstep fun id' hevent => absurd ⟨id', hevent⟩ hcancel).left id t' ht' with hsame | hsettled | ⟨-, hlive'⟩
    · exact hstays hsame
    · exact hsettled
    · rw [hlive] at hlive'
      cases hlive'

/-- **What a step keeps** of a transfer that it does not cancel. -/
theorem Kept.step (h : Kept id c) (hkept : a.event ≠ .cancel id) (hstep : c.step a = some c') : Kept id c' := by
  let P (id' : ℤ) (live : Bool) (st : StreamState) : Prop :=
    id' = id → (StreamOk st ∧ st.Shuts) ∧ (live = false → st.body.canEnqueue = false)
  have hturns : ∀ id' live st, c'.streamOf id' = some (live, st) → P id' live st := by
    refine (step_turns hstep).preserves (P := P) (fun id' _ => ?_) (fun id' live st st' hP hturn heq => ?_)
      (fun id' live st st' hP hreach hend heq => ?_) fun id' live st hst heq => ?_
    · exact ⟨⟨streamOk_new _, fun hphase => by cases hphase⟩, fun hlive => by cases hlive⟩
    · obtain ⟨⟨hok, hshuts⟩, hclosed⟩ := hP heq
      refine ⟨⟨hok.turn hturn, hshuts.turn (fun hcancel => hkept ?_) hturn⟩, fun hlive => hturn.canEnqueue_eq_false (hclosed hlive)⟩
      exact heq ▸ hcancel
    · obtain ⟨⟨hok, hshuts⟩, -⟩ := hP heq
      refine ⟨⟨hok.reach hreach, hshuts.reach (fun hcancel => hkept ?_) hreach⟩,
        fun _ => hend.elim (hok.reach hreach).closed fun h => h⟩
      exact heq ▸ hcancel
    · subst heq
      refine ⟨h.shuts live st hst, fun hlive => ?_⟩
      subst hlive
      exact h.ended st hst
  exact ⟨fun t' ht' => h.settled_step hkept hstep ht', fun st hst => (hturns id false st hst rfl).2 rfl,
    fun live st hst => (hturns id live st hst rfl).1⟩

theorem kept_connect (opts : ClientOptions) (maxDatagramSize : ℕ) : Kept id (connect opts maxDatagramSize) := by
  have hstream : (connect opts maxDatagramSize).streamOf id = none :=
    streamOf_congr (keeps_sendHello held (fun _ _ => rfl) fun _ _ => rfl)
  refine ⟨fun t ht => ?_, fun st hst => ?_, fun live st hst => ?_⟩
  · have hnone : (connect opts maxDatagramSize).lives id = none :=
      congrFun (keeps_sendHello lives (fun _ _ => rfl) fun _ _ => rfl) id
    rw [lives_of_get? ht] at hnone
    cases hnone
  · rw [hstream] at hst
    cases hst
  · rw [hstream] at hst
    cases hst

/-- A promise resolved with a stream is that of a transfer with one. -/
theorem streaming_reachable {opts : ClientOptions} {maxDatagramSize : ℕ}
    (h : Machine.Reachable Http4Client.step (connect opts maxDatagramSize) c) {t : Transfer}
    (ht : c.objects.get? id = some t) {size : ℕ} {headers : List (JsString × JsString)}
    (hmem : .stream size headers ∈ t.settlements) : t.stream.isSome := by
  let P (c : Http4Client) : Prop := ∀ id t, c.objects.get? id = some t →
    ∀ size headers, Settlement.stream size headers ∈ t.settlements → t.stream.isSome
  have hP : P c := by
    refine invariant_of_moves (P := P) (fun id t ht => by cases ht) (fun inc s s' _ hs hm id t' ht' size headers hmem => ?_)
      (fun s s' hs hf => ?_) h
    · obtain ⟨t, ht, rfl | ⟨r, hchange⟩⟩ | ⟨-, hnone, -⟩ := hm.origin ht'
      · exact hs id t' ht size headers hmem
      · have hold := hs id t ht size headers
        cases hchange with
        | progress | learn | store | headers | claim | remove => exact hold hmem
        | stream | pause | unpause => rfl
        | settle y _ hy =>
          rcases List.mem_append.mp hmem with hmem | hmem
          · exact hold hmem
          · obtain rfl := List.mem_singleton.mp hmem
            cases hy with
            | stream hstream =>
              show t.stream.isSome
              rw [hstream]
              rfl
      · rw [hnone] at hmem
        cases hmem
    · cases hf <;> exact hs
  exact hP id t ht size headers hmem

/-- **A transfer that has left has delivered its body or failed**, if nobody cancelled it. -/
theorem Kept.outcome {opts : ClientOptions} {maxDatagramSize : ℕ} (h : Kept id c)
    (hreach : Machine.Reachable Http4Client.step (connect opts maxDatagramSize) c) {t : Transfer}
    (ht : c.objects.get? id = some t) (honce : t.settlements.length = if t.settled then 1 else 0)
    (hlive : t.live = false) : t.Delivered ∨ t.Failed := by
  rw [h.settled t ht hlive, if_pos rfl] at honce
  obtain ⟨y, hy⟩ := List.length_eq_one_iff.mp honce
  have hmem : y ∈ t.settlements := by rw [hy]; exact List.mem_singleton_self y
  cases y with
  | response body headers => exact .inl (.inl ⟨body, headers, hmem⟩)
  | rejected e => exact .inr (.inl ⟨e, hmem⟩)
  | stream size headers =>
    obtain ⟨st, hst⟩ := Option.isSome_iff_exists.mp (streaming_reachable hreach ht hmem)
    have hstream : c.streamOf id = some (false, st) := streamOf_eq_some_iff.mpr ⟨t, ht, hlive, hst⟩
    have hshuts := (h.shuts _ st hstream).2
    rcases ReadableStream.canEnqueue_eq_false_iff.mp (h.ended st hstream) with hphase | hclose
    · cases hphase' : st.body.phase with
      | readable => exact absurd hphase' hphase
      | errored => exact .inr (.inr ⟨size, headers, st, hmem, hst, hphase'⟩)
      | closed => exact .inl (.inr ⟨size, headers, st, hmem, hst, hshuts hphase', by rw [hphase']; exact StreamPhase.noConfusion⟩)
    · by_cases hphase : st.body.phase = .errored
      · exact .inr (.inr ⟨size, headers, st, hmem, hst, hphase⟩)
      · exact .inl (.inr ⟨size, headers, st, hmem, hst, hclose, hphase⟩)

end Http4Client

end Http4.Client
