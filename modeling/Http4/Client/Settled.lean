import Http4.Client.Readers

/-!
# No promise is left open

A transfer leaves `this.transfers` in `finish`, which settles its promise and ends its
stream, and in `drop`, which a reader calls that cancels the stream. `finish` may throw
between the two: closing a stream that takes nothing more does.

Main results:

* `settled_of_left`: what has left `this.transfers` is settled, and its stream takes
  nothing more.
* `all_settled`: once the read loop has failed or the session has ended, nothing is left
  that waits, unless a GRANT could not be encoded.
-/

namespace Http4.Client

open Routine Http4Client
open Wire.Ts (JsString)

namespace Http4Client

/-! ## What becomes of the promises -/

/-- Whether `this.transfers` holds each transfer. -/
def lives (c : Http4Client) (id : ℤ) : Option Bool := (c.objects.get? id).map Transfer.live

/-- What a transfer is, but for its stream. -/
structure Frame where
  live : Bool
  asm : Option Reassembly
  headers : Option (List (JsString × JsString))
  streaming : Bool

end Http4Client

/-- The frame of a transfer. -/
def Transfer.frame (t : Transfer) : Http4Client.Frame := ⟨t.live, t.asm, t.headers, t.stream.isSome⟩

/-- The frame of what a transfer holds. -/
def Held.frame (x : Held) : Http4Client.Frame := ⟨x.live, x.asm, x.headers, x.stream.isSome⟩

namespace Http4Client

/-- Every transfer but for its stream. -/
def frame (c : Http4Client) (id : ℤ) : Option Frame := (c.objects.get? id).map Transfer.frame

/-- What has left `this.transfers` is settled. -/
def Settled (c : Http4Client) : Prop := ∀ id t, c.objects.get? id = some t → t.live = false → t.settled = true

/-- A transfer is settled. -/
def SettledAt (id : ℤ) (c : Http4Client) : Prop := ∃ t, c.objects.get? id = some t ∧ t.settled = true

/-- No transfer is lost, and what leaves `this.transfers` has been settled by then. -/
structure Tidy (c c' : Http4Client) : Prop where
  known : ∀ id, Known id c → Known id c'
  settled : ∀ id, SettledAt id c → SettledAt id c'
  left : ∀ id t', c'.objects.get? id = some t' →
    c'.lives id = c.lives id ∨ t'.settled = true ∨ c.objects.get? id = none ∧ t'.live = true

section Tidy

variable {inc : Option Wire.Ts.Packet} {c c' c'' : Http4Client} {id : ℤ}

theorem lives_eq_some_iff {live : Bool} :
    c.lives id = some live ↔ ∃ t, c.objects.get? id = some t ∧ t.live = live :=
  Option.map_eq_some_iff

theorem lives_of_get? {t : Transfer} (ht : c.objects.get? id = some t) : c.lives id = some t.live := by
  rw [lives, ht]
  rfl

theorem lives_of_frame (h : c'.frame = c.frame) : c'.lives = c.lives := by
  funext id
  have hmap (c : Http4Client) : c.lives id = (c.frame id).map Frame.live := by
    show (c.objects.get? id).map Transfer.live = ((c.objects.get? id).map Transfer.frame).map Frame.live
    rw [Option.map_map]
    rfl
  rw [hmap, hmap, h]

theorem lives_setTransfer (id : ℤ) {f : Transfer → Transfer} (h : ∀ t, (f t).live = t.live) :
    (c.setTransfer id f).lives = c.lives := by
  funext id'
  show ((c.objects.modify id f).get? id').map Transfer.live = (c.objects.get? id').map Transfer.live
  rw [OrderedMap.get?_modify]
  split_ifs with heq
  · rw [heq, Option.map_map]
    exact congrArg (Option.map · _) (funext h)
  · rfl

theorem frame_of_held (h : c'.held = c.held) : c'.frame = c.frame := by
  funext id
  have hmap (c : Http4Client) : c.frame id = (c.held.2 id).map Held.frame := by
    show (c.objects.get? id).map Transfer.frame = ((c.objects.get? id).map Transfer.held).map Held.frame
    rw [Option.map_map]
    rfl
  rw [hmap, hmap, h]

theorem frame_setStream (id : ℤ) (f : StreamState → StreamState) : (c.setStream id f).frame = c.frame := by
  funext id'
  show ((c.objects.modify id _).get? id').map Transfer.frame = (c.objects.get? id').map Transfer.frame
  rw [OrderedMap.get?_modify]
  split_ifs with heq
  · rw [heq, Option.map_map]
    refine congrArg (Option.map · _) (funext fun t => ?_)
    unfold Function.comp Transfer.frame
    rw [Option.isSome_map]
  · rfl

theorem SettledAt.move (h : SettledAt id c) (hm : Move inc c c') : SettledAt id c' := by
  obtain ⟨t, ht, hsettled⟩ := h
  obtain ⟨t', ht', rfl | ⟨s, hchange⟩⟩ := hm.object ht
  · exact ⟨t', ht', hsettled⟩
  · refine ⟨t', ht', ?_⟩
    cases hchange with
    | settle => rfl
    | progress | learn | store | headers | claim | stream | pause | unpause | remove => exact hsettled

instance : Std.Refl Tidy := ⟨fun _ => ⟨fun _ h => h, fun _ h => h, fun _ _ _ => .inl rfl⟩⟩

instance : IsTrans Http4Client Tidy := by
  refine ⟨fun a b c h h' => ⟨fun id hid => h'.known id (h.known id hid),
    fun id hid => h'.settled id (h.settled id hid), fun id t'' ht'' => ?_⟩⟩
  rcases h'.left id t'' ht'' with hsame | hsettled | ⟨hnone, hlive⟩
  · obtain ⟨t', ht', heq⟩ := lives_eq_some_iff.mp (hsame.symm.trans (lives_of_get? ht''))
    rcases h.left id t' ht' with hsame' | hsettled | ⟨hnone, hlive⟩
    · exact .inl (hsame.trans hsame')
    · obtain ⟨t, ht, hsettled⟩ := h'.settled id ⟨t', ht', hsettled⟩
      obtain rfl := Option.some.inj (ht''.symm.trans ht)
      exact .inr (.inl hsettled)
    · exact .inr (.inr ⟨hnone, heq.symm.trans hlive⟩)
  · exact .inr (.inl hsettled)
  · refine .inr (.inr ⟨?_, hlive⟩)
    by_contra hsome
    obtain ⟨t, ht⟩ := h.known id (Option.ne_none_iff_exists'.mp hsome)
    rw [hnone] at ht
    cases ht

/-- Moves after which `this.transfers` holds the same. -/
theorem tidy_of_reaches {i : Option Wire.Ts.Packet} (h : Reaches i c c') (hlives : c'.lives = c.lives) : Tidy c c' :=
  ⟨fun _ => h.preserves fun _ _ => Known.move, fun _ => h.preserves fun _ _ => SettledAt.move,
    fun id _ _ => .inl (congrFun hlives id)⟩

theorem Settled.tidy (h : Settled c) (htidy : Tidy c c') : Settled c' := by
  intro id t' ht' hlive
  rcases htidy.left id t' ht' with hsame | hsettled | ⟨-, hlive'⟩
  · obtain ⟨t, ht, heq⟩ := lives_eq_some_iff.mp (hsame.symm.trans (lives_of_get? ht'))
    obtain ⟨t₁, ht₁, hsettled⟩ := htidy.settled id ⟨t, ht, h id t ht (heq.trans hlive)⟩
    obtain rfl := Option.some.inj (ht'.symm.trans ht₁)
    exact hsettled
  · exact hsettled
  · rw [hlive] at hlive'
    cases hlive'

end Tidy

end Http4Client

/-! ## The functions -/

section Functions

variable {inc : Option Wire.Ts.Packet} {c : Http4Client} {id : ℤ} {now : ℚ}

/-- Code that changes nothing a stream depends on. -/
theorem tidy_of_held {i : Option Wire.Ts.Packet} {α : Type} {m : Js α} (h : Follows (Reaches i) m c) (hheld : Follows (Keeps held) m c) :
    Follows Tidy m c :=
  tidy_of_reaches h (lives_of_frame (frame_of_held hheld))

theorem keeps_frame {α : Type} {m : Js α} (h : Follows (Keeps held) m c) : Follows (Keeps frame) m c :=
  frame_of_held h

theorem keeps_frame_pull : Follows (Keeps frame) (pull id) c := by
  refine follows_withTransfer fun t _ => Follows.ite (fun _ => ?_) fun _ => Follows.pure _
  exact Follows.modify_bind (frame_setStream id _) (keeps_frame keeps_held_pumpGrants)

theorem keeps_frame_callPullIfNeeded : Follows (Keeps frame) (callPullIfNeeded id) c := by
  refine follows_withTransfer fun t _ => ?_
  cases t.stream with
  | none => exact Follows.pure _
  | some st =>
    refine Follows.ite (fun _ => Follows.ite (fun _ => ?_) fun _ => ?_) fun _ => Follows.pure _
    · exact Follows.modify (frame_setStream id _)
    · refine Follows.modify_bind (frame_setStream id _) (Follows.tryCatch keeps_frame_pull fun _ _ _ => ?_)
      exact Follows.modify (frame_setStream id _)

theorem keeps_frame_flushStream : Follows (Keeps frame) (flushStream id) c := by
  have henqueue {c : Http4Client} (upTo : ℕ) (chunk : Bytes) (st : StreamState) :
      Follows (Keeps frame) (enqueue id upTo chunk st) c := by
    refine Follows.ite (fun _ => ?_) fun _ => ?_
    · exact Follows.modify_bind (frame_setStream id _) keeps_frame_callPullIfNeeded
    · exact Follows.modify_bind (frame_setStream id _) (Follows.throw _)
  have hpause {c : Http4Client} : Follows (Keeps frame) (pauseIfBehind id) c := by
    refine follows_withTransfer fun t _ => ?_
    cases t.stream with
    | none => exact Follows.pure _
    | some st => exact Follows.ite (fun _ => Follows.modify (frame_setStream id _)) fun _ => Follows.pure _
  refine follows_withTransfer fun t _ => ?_
  cases t.stream with
  | none => exact Follows.pure _
  | some st =>
    cases t.asm with
    | none => exact Follows.pure _
    | some asm =>
      refine Follows.ite (fun _ => Follows.pure _) fun _ => Follows.bind ?_ fun _ _ _ => hpause
      exact Follows.ite (fun _ => henqueue _ _ _) fun _ => Follows.pure _

theorem keeps_frame_endStream (err : Option Failure) : Follows (Keeps frame) (endStream id err) c := by
  refine follows_withTransfer fun t _ => ?_
  cases t.stream with
  | none => exact Follows.pure _
  | some st =>
    refine Follows.ite (fun _ => Follows.pure _) fun _ => ?_
    cases err with
    | some e => exact Follows.modify (frame_setStream id _)
    | none =>
      refine Follows.ite (fun _ => Follows.modify (frame_setStream id _)) fun _ => ?_
      exact Follows.modify_bind (frame_setStream id _) (Follows.throw _)

theorem keeps_frame_finishRest (err : Option Failure) : Follows (Keeps frame) (finishRest id err) c := by
  refine Follows.bind (Follows.ite (fun _ => keeps_frame_flushStream) fun _ => Follows.pure _) fun _ _ _ => ?_
  exact Follows.bind (keeps_frame_endStream err) fun _ _ _ => keeps_frame (keeps_held_afterEnd err)

/-! ### The end of a transfer -/

/-- `settle` settles. -/
theorem settledAt_settle (h : Known id c) (err : Option Failure) : SettledAt id (exec (settle id err) c).2 := by
  obtain ⟨t, ht⟩ := h
  rw [settle, exec_withTransfer ht]
  split_ifs with hsettled
  · exact ⟨t, ht, hsettled⟩
  · refine ⟨{ t with settled := true, settlements := t.settlements ++ (t.settlement err).toList }, ?_, rfl⟩
    show (c.objects.modify id _).get? id = _
    rw [OrderedMap.get?_modify, if_pos rfl, ht]
    rfl

/-- The state once a transfer has left `this.transfers`. -/
def Http4Client.removed (c : Http4Client) (id : ℤ) : Http4Client :=
  { c.setTransfer id fun t => { t with live := false } with scheduler := c.scheduler.remove id }

theorem get?_removed {t : Transfer} (ht : c.objects.get? id = some t) :
    (c.removed id).objects.get? id = some { t with live := false } := by
  show (c.objects.modify id _).get? id = _
  rw [OrderedMap.get?_modify, if_pos rfl, ht]
  rfl

/-- A promise has been settled, or nothing between the removal and `settle` can throw. -/
def Ready (id : ℤ) (err : Option Failure) (c : Http4Client) : Prop :=
  SettledAt id c ∨ err.isSome ∨ ∃ t, c.objects.get? id = some t ∧ t.stream = none

/-- Ending a stream with an error does not throw. -/
theorem exec_endStream_some (e : Failure) : (exec (endStream id (some e)) c).1 = .ok () := by
  unfold endStream withTransfer
  rw [exec_get_bind]
  cases c.objects.get? id with
  | none => rfl
  | some t =>
    dsimp only
    cases t.stream with
    | none => rfl
    | some st =>
      dsimp only
      split_ifs <;> rfl

/-- Without a stream `finish` goes straight to `settle`. -/
theorem exec_finishRest_of_none {t : Transfer} (ht : c.objects.get? id = some t) (hst : t.stream = none)
    (err : Option Failure) : exec (finishRest id err) c = exec (do settle id err; pumpGrants) c := by
  have hflush : exec (flushStream id) c = (.ok (), c) := by
    rw [flushStream, exec_withTransfer ht, hst]
    rfl
  have hend : exec (endStream id err) c = (.ok (), c) := by
    rw [endStream, exec_withTransfer ht, hst]
    rfl
  have hrest : exec (do endStream id err; settle id err; pumpGrants : Js Unit) c =
      exec (do settle id err; pumpGrants) c := by
    rw [exec_bind, hend]
  unfold finishRest
  rw [exec_bind]
  split_ifs
  · rw [hflush]
    exact hrest
  · rw [exec_pure]
    exact hrest

/-- What `finish` leads to once the promise can be settled. -/
theorem settledAt_afterEnd (h : Known id c) (err : Option Failure) :
    SettledAt id (exec (do settle id err; pumpGrants : Js Unit) c).2 := by
  rw [exec_bind]
  have hsettle := settledAt_settle h err
  rcases hexec : exec (settle id err) c with ⟨r, s⟩
  rw [hexec] at hsettle
  cases r with
  | error e => exact hsettle
  | ok _ => exact (follows_pumpGrants : Follows (Reaches none) _ _).preserves (fun _ _ => SettledAt.move) hsettle

/-- **`finish` settles**, though it may throw. -/
theorem settledAt_finish {err : Option Failure} (hknown : Known id c) (h : Ready id err c)
    (hdone : err = none → ∃ t, c.objects.get? id = some t ∧ t.Complete) (hdue : Rejectable id err c) :
    SettledAt id (exec (finish id err) c).2 := by
  have hfollows : Follows (Reaches none) (finish id err) c := follows_finish hknown hdone hdue
  rcases h with hsettled | herr | ⟨t, ht, hst⟩
  · exact hfollows.preserves (fun _ _ => SettledAt.move) hsettled
  · obtain ⟨e, rfl⟩ := Option.isSome_iff_exists.mp herr
    obtain ⟨t, ht⟩ := hknown
    rw [exec_finish]
    show SettledAt id (exec (finishRest id (some e)) (c.removed id)).2
    have hend : (exec (endStream id (some e)) (c.removed id)).1 = .ok () := exec_endStream_some e
    have hreaches : Follows (Reaches none) (endStream id (some e)) (c.removed id) :=
      follows_endStream fun h => by cases h
    unfold finishRest
    rw [if_neg (by simp), exec_bind, exec_pure]
    dsimp only
    rw [exec_bind]
    rcases hexec : exec (endStream id (some e)) (c.removed id) with ⟨r, s⟩
    rw [hexec] at hend
    obtain rfl : r = .ok () := hend
    refine settledAt_afterEnd ?_ _
    exact preserves_of_exec (fun _ _ => Known.move) hreaches hexec ⟨_, get?_removed ht⟩
  · rw [exec_finish]
    show SettledAt id (exec (finishRest id err) (c.removed id)).2
    rw [exec_finishRest_of_none (get?_removed ht) hst]
    exact settledAt_afterEnd ⟨_, get?_removed ht⟩ err

theorem tidy_finish {err : Option Failure} (hknown : Known id c) (h : Ready id err c)
    (hdone : err = none → ∃ t, c.objects.get? id = some t ∧ t.Complete) (hdue : Rejectable id err c) :
    Follows Tidy (finish id err) c := by
  have hfollows : Follows (Reaches none) (finish id err) c := follows_finish hknown hdone hdue
  refine ⟨fun _ => hfollows.preserves fun _ _ => Known.move, fun _ => hfollows.preserves fun _ _ => SettledAt.move,
    fun id' t' ht' => ?_⟩
  by_cases heq : id' = id
  · subst heq
    obtain ⟨t, ht, hsettled⟩ := settledAt_finish hknown h hdone hdue
    obtain rfl := Option.some.inj (ht'.symm.trans ht)
    exact .inr (.inl hsettled)
  · left
    rw [exec_finish, congrFun (lives_of_frame (keeps_frame_finishRest err)) id']
    show ((c.objects.modify id _).get? id').map Transfer.live = _
    rw [OrderedMap.get?_modify, if_neg heq]
    rfl

theorem tidy_fail {e : Failure} (h : Known id c) (hdue : Rejectable id (some e) c) :
    Follows Tidy (finish id (some e)) c :=
  tidy_finish h (.inr (.inl rfl)) (fun h => by cases h) hdue

/-! ### Where transfers end -/

/-- Of the promises that can be settled with a stream, none waits. -/
def Started (id : ℤ) (c : Http4Client) : Prop :=
  ∀ t, c.objects.get? id = some t → t.stream.isSome → t.Complete → t.settled = true

theorem started_maybeStart : Started id (exec (maybeStart id) c).2 := by
  intro t' ht' hstream' hdone
  cases ht : c.objects.get? id with
  | none =>
    have hnone : exec (maybeStart id) c = (.ok (), c) := exec_withTransfer_of_none ht _
    rw [hnone, ht] at ht'
    cases ht'
  | some t =>
    rw [maybeStart, exec_withTransfer ht] at ht'
    cases hstream : t.stream with
    | none =>
      rw [hstream] at ht'
      obtain rfl := Option.some.inj (ht.symm.trans ht')
      rw [hstream] at hstream'
      cases hstream'
    | some st =>
      cases hasm : t.asm with
      | none =>
        rw [hstream, hasm] at ht'
        obtain rfl := Option.some.inj (ht.symm.trans ht')
        obtain ⟨⟨asm, hasm', -⟩, -⟩ := hdone
        rw [hasm] at hasm'
        cases hasm'
      | some asm =>
        cases hheaders : t.headers with
        | none =>
          rw [hstream, hasm, hheaders] at ht'
          obtain rfl := Option.some.inj (ht.symm.trans ht')
          have hsome := hdone.2
          rw [hheaders] at hsome
          cases hsome
        | some headers =>
          rw [hstream, hasm, hheaders] at ht'
          dsimp only at ht'
          split_ifs at ht' with hsettled
          · obtain rfl := Option.some.inj (ht.symm.trans ht')
            exact hsettled
          · change (c.objects.modify id _).get? id = _ at ht'
            rw [OrderedMap.get?_modify, if_pos rfl, ht] at ht'
            obtain rfl := Option.some.inj ht'
            rfl

/-- What a flush leaves so. -/
theorem Started.flushStream (h : Started id c) : Started id (exec (flushStream id) c).2 := by
  have hframe : (exec (Client.flushStream id) c).2.frame = c.frame := keeps_frame_flushStream
  intro t' ht' hstream hdone
  have hat : c.frame id = some t'.frame := by
    rw [← hframe]
    show ((exec (Client.flushStream id) c).2.objects.get? id).map Transfer.frame = _
    rw [ht']
    rfl
  obtain ⟨t, ht, heq⟩ := Option.map_eq_some_iff.mp hat
  have hasm : t.asm = t'.asm := congrArg Frame.asm heq
  have hheaders : t.headers = t'.headers := congrArg Frame.headers heq
  have hstreaming : t.stream.isSome = t'.stream.isSome := congrArg Frame.streaming heq
  have hsettled : t.settled = true := by
    refine h t ht (hstreaming.trans hstream) ?_
    unfold Transfer.Complete
    rw [hasm, hheaders]
    exact hdone
  obtain ⟨u, hu, hsettled'⟩ :=
    (follows_flushStream : Follows (Reaches none) (Client.flushStream id) c).preserves
      (fun _ _ => SettledAt.move) ⟨t, ht, hsettled⟩
  obtain rfl := Option.some.inj (ht'.symm.trans hu)
  exact hsettled'

/-- A transfer that has everything is finished. -/
theorem tidy_finish_none {t : Transfer} (ht : c.objects.get? id = some t) (hstarted : Started id c)
    (hdone : t.Complete) : Follows Tidy (finish id none) c := by
  refine tidy_finish ⟨t, ht⟩ ?_ (fun _ => ⟨t, ht, hdone⟩) .none
  cases hst : t.stream with
  | none => exact .inr (.inr ⟨t, ht, hst⟩)
  | some st => exact .inl ⟨t, ht, hstarted t ht (by rw [hst]; rfl) hdone⟩

theorem complete_of_any {t : Transfer} (hasm : t.asm.any Reassembly.complete = true) (hheaders : t.headers.isSome) :
    t.Complete :=
  ⟨(Option.any_eq_true _ _).mp hasm, hheaders⟩

theorem tidy_handleMeta {m : Wire.Ts.Meta} (hlive : ∀ t, c.objects.get? id = some t → t.live = true)
    (hid : m.rpcId = id) : Follows Tidy (handleMeta id m) c := by
  refine follows_withTransfer fun t ht => ?_
  cases hheaders : t.headers with
  | some _ => exact Follows.pure _
  | none =>
    have hnow {c : Http4Client} : Follows Tidy performanceNow c :=
      tidy_of_held (i := none) follows_performanceNow keeps_held_performanceNow
    refine Follows.bind hnow fun now s hexec => ?_
    obtain rfl : s = c.advance := (congrArg Prod.snd hexec).symm
    have ht' : c.advance.objects.get? id = some t := ht
    refine Follows.modify_bind ?_ (Follows.bind
      (tidy_of_held (i := none) (follows_maybeStart id) keeps_held_maybeStart) fun _ u hexec' => ?_)
    · refine tidy_of_reaches (i := some (.metaData m)) (reaches_setTransfer fun t₁ ht₁ => .inr ?_) ?_
      · obtain rfl := Option.some.inj (ht'.symm.trans ht₁)
        exact .headers m _ rfl hid (hlive t ht) hheaders
      · exact lives_setTransfer id fun _ => rfl
    · have hstarted : Started id u := by
        rw [show u = (exec (maybeStart id) _).2 from (congrArg Prod.snd hexec').symm]
        exact started_maybeStart
      have hhead : Headed id u := by
        refine preserves_of_exec (fun _ _ => Headed.move) (follows_maybeStart id : Follows (Reaches none) _ _) hexec' ?_
        refine ⟨{ t with headers := some m.fields, progress := { t.progress with lastProgress := now, recoveries := 0 } },
          ?_, rfl⟩
        show (c.advance.objects.modify id _).get? id = _
        rw [OrderedMap.get?_modify, if_pos rfl, ht']
        rfl
      refine follows_withTransfer fun t₁ ht₁ => Follows.ite (fun hasm => ?_) fun _ => Follows.pure _
      obtain ⟨t₂, ht₂, hheaders⟩ := hhead
      obtain rfl := Option.some.inj (ht₁.symm.trans ht₂)
      exact tidy_finish_none ht₁ hstarted (complete_of_any hasm hheaders)

theorem tidy_flushStream : Follows Tidy (flushStream id) c :=
  tidy_of_reaches (i := none) follows_flushStream (lives_of_frame keeps_frame_flushStream)

theorem tidy_detectLoss : Follows Tidy (detectLoss id now) c :=
  tidy_of_held (i := none) follows_detectLoss keeps_held_detectLoss

theorem tidy_performanceNow : Follows Tidy performanceNow c :=
  tidy_of_held (i := none) follows_performanceNow keeps_held_performanceNow

theorem tidy_afterData : Follows Tidy (afterData id) c := by
  refine Follows.bind (tidy_of_held (i := none) (follows_maybeStart id) keeps_held_maybeStart) fun _ s hexec =>
    Follows.bind tidy_flushStream fun _ u hexec' => follows_withTransfer fun t ht => ?_
  have hstarted : Started id u := by
    have hs : Started id s := by
      rw [show s = (exec (maybeStart id) c).2 from (congrArg Prod.snd hexec).symm]
      exact started_maybeStart
    rw [show u = (exec (flushStream id) s).2 from (congrArg Prod.snd hexec').symm]
    exact hs.flushStream
  refine Follows.ite (fun hdone => tidy_finish_none ht hstarted (complete_of_any hdone.1 hdone.2)) fun _ => ?_
  exact Follows.bind tidy_performanceNow fun _ _ _ =>
    Follows.ite (fun _ => tidy_detectLoss) fun _ => Follows.pure _

theorem lives_held_setAsm {s : Http4Client} (id : ℤ) (asm : Reassembly)
    (h : s.held = (c.held.1, Function.update c.held.2 id ((c.held.2 id).map (Held.setAsm asm)))) :
    s.lives = c.lives := by
  funext id'
  have hmap (c : Http4Client) : c.lives id' = (c.held.2 id').map Held.live := by
    show (c.objects.get? id').map Transfer.live = ((c.objects.get? id').map Transfer.held).map Held.live
    rw [Option.map_map]
    rfl
  rw [hmap, hmap, h]
  dsimp only
  rw [Function.update_apply]
  split_ifs with heq
  · rw [heq, Option.map_map]
    rfl
  · rfl

theorem tidy_storeData {d : Wire.Ts.Data} (hinc : Carried inc d) (hid : d.rpcId = id)
    (hlive : ∀ t, c.objects.get? id = some t → t.live = true)
    (hsize : ∀ t asm, c.objects.get? id = some t → t.asm = some asm → d.totalSize = asm.size) :
    Follows Tidy (storeData id d) c := by
  refine follows_withTransfer fun t ht => ?_
  cases hasm : t.asm with
  | none => exact Follows.pure _
  | some asm =>
    dsimp only
    cases hadd : asm.add d.offset d.payload with
    | error e => exact tidy_fail ⟨t, ht⟩ (.of_forall fun _ _ => trivial)
    | ok r =>
      refine Follows.modify_bind (tidy_of_reaches (i := inc) ?_ (lives_held_setAsm id r.2 ?_)) tidy_afterData
      · exact reaches_delivered hinc hid ht (hlive t ht) hasm (hsize t asm ht hasm) hadd
      · rw [held_noteDelivered, held_sampleProbe, held_store]

theorem tidy_handleData (hdec : Decoded inc) {alloc : Bool} {d : Wire.Ts.Data} (hinc : Carried inc d)
    (hid : d.rpcId = id) (hlive : ∀ t, c.objects.get? id = some t → t.live = true) :
    Follows Tidy (handleData alloc id d) c := by
  refine follows_withTransfer fun t ht => ?_
  cases hasm : t.asm with
  | none =>
    refine Follows.ite (fun _ => ?_) fun _ => Follows.throw _
    refine Follows.modify_bind (tidy_of_reaches (reaches_learnSize hinc hid ht (hlive t ht) hasm)
      (lives_held_setAsm id _ (held_learnSize _ _ _))) ?_
    have hget (t' : Transfer) (ht' : (c.learnSize id d.totalSize t).objects.get? id = some t') :
        t' = { t with asm := some (.new d.totalSize.toNat), repair := some .new } := by
      change (c.objects.modify id _).get? id = _ at ht'
      rw [OrderedMap.get?_modify, if_pos rfl, ht] at ht'
      exact (Option.some.inj ht').symm
    refine tidy_storeData hinc hid (fun t' ht' => ?_) fun t' asm ht' hasm' => ?_
    · rw [hget t' ht']
      exact hlive t ht
    · rw [hget t' ht'] at hasm'
      obtain rfl := Option.some.inj hasm'
      exact (Int.toNat_of_nonneg (hdec.data hinc).1).symm
  | some asm =>
    refine Follows.ite (fun _ => tidy_fail ⟨t, ht⟩ (.of_forall fun _ _ => trivial)) fun hsize => ?_
    refine tidy_storeData hinc hid hlive fun t' asm' ht' hasm' => ?_
    obtain rfl := Option.some.inj (ht.symm.trans ht')
    obtain rfl := Option.some.inj (hasm.symm.trans hasm')
    exact not_not.mp hsize

theorem tidy_handlePacket (hdec : Decoded inc) {p : Wire.Ts.Packet}
    (hdata : ∀ d, p = .data d → Carried inc d) (alloc : Bool) : Follows Tidy (handlePacket alloc p) c := by
  refine follows_withTransfer fun t ht => Follows.ite (fun _ => Follows.pure _) fun hlive => ?_
  have hreply {s : Http4Client} {a : Unit} (hexec : exec (noteReply p.rpcId t) c = (.ok a, s)) :
      ∀ t', s.objects.get? p.rpcId = some t' → t'.live = true := fun t' ht' =>
    (exists_of_noteReply ht hexec ht').1.trans (not_not.mp hlive)
  have hnote : Follows Tidy (noteReply p.rpcId t) c :=
    tidy_of_held (i := inc) (follows_noteReply t) (keeps_held_noteReply t)
  cases p with
  | metaData m => exact Follows.bind hnote fun _ s hexec => tidy_handleMeta (hreply hexec) rfl
  | data d => exact Follows.bind hnote fun _ s hexec => tidy_handleData hdec (hdata d rfl) rfl (hreply hexec)
  | error p => exact tidy_fail ⟨t, ht⟩ (.of_forall fun _ _ => trivial)
  | req | grant | resend | hello | dataSeq | resendSeq => exact Follows.pure _

theorem tidy_readDatagram (alloc : Bool) (b : Bytes) : Follows Tidy (readDatagram alloc b) c := by
  have hdec := decoded_packetIn b
  rw [packetIn] at hdec
  rw [readDatagram]
  cases hb : Wire.Ts.decode b with
  | error e =>
    cases e with
    | malformed => exact Follows.pure _
    | outOfRange => exact Follows.throw _
  | ok p =>
    rw [hb] at hdec
    have hpump {c : Http4Client} : Follows Tidy pumpGrants c :=
      tidy_of_held (i := none) follows_pumpGrants keeps_held_pumpGrants
    refine Follows.bind ?_ fun _ _ _ => hpump
    cases p with
    | dataSeq p =>
      refine Follows.bind (tidy_of_held (follows_noteSeq (p := p) rfl) (keeps_held_noteSeq p)) fun _ _ _ => ?_
      exact tidy_handlePacket hdec (fun d hd => .inr ⟨p, rfl, Wire.Ts.Packet.data.inj hd⟩) alloc
    | req | data | grant | resend | error | metaData | hello | resendSeq =>
      exact tidy_handlePacket hdec (fun d hd => .inl (congrArg some hd)) alloc

/-! ### The timer and the end of a session -/

theorem tidy_setProgress {f : Progress → Progress} (hf : ∀ p, p.recoveries ≤ (f p).recoveries) :
    Tidy c (c.setProgress id f) :=
  tidy_of_reaches (i := none) (reaches_setProgress hf) (lives_setTransfer id fun _ => rfl)

theorem tidy_recover {granted : ℚ} (hg : GrantIs id granted c) : Follows Tidy (recover id granted now) c := by
  have hview (c : Http4Client) (f : Progress → Progress) : view id (c.setProgress id f) = view id c :=
    view_setTransfer id fun _ => rfl
  refine follows_withTransfer fun t ht => Follows.get_bind
    (Follows.modify_bind (tidy_setProgress fun _ => Nat.le_succ _) ?_)
  refine Follows.ite (fun hlimit => ?_) fun _ => ?_
  · refine tidy_fail ?_ (rejectable_recover ht hlimit)
    exact Reaches.preserves (fun _ _ => Known.move)
      (reaches_setProgress fun _ => Nat.le_succ _ : Reaches none c _) ⟨t, ht⟩
  · refine Follows.modify_bind ?_ (Follows.modify_bind (tidy_setProgress fun _ => le_rfl) ?_)
    · exact tidy_of_reaches (i := none) (reaches_lossBackoff.trans reaches_backoffInitialRto)
        (lives_of_frame (frame_of_held held_backoff))
    · refine Follows.bind (tidy_of_held (i := none) follows_resendReq keeps_held_resendReq) fun _ s hexec => ?_
      refine tidy_of_held (i := none) (follows_resendGrant ?_) (keeps_held_resendGrant granted)
      exact (hg.congr ((hview _ _).trans (view_backoff.trans (hview _ _)))).of_exec keeps_view_resendReq hexec

theorem tidy_tickTransfer : Follows Tidy (tickTransfer now id) c := by
  refine Follows.bind (follows_withTransfer fun t _ => ?_) fun _ s _ => follows_withTransfer fun t ht =>
    Follows.get_bind ?_
  · exact Follows.ite (fun _ => tidy_detectLoss) fun _ => Follows.pure _
  · refine Follows.ite (fun _ => Follows.modify (tidy_setProgress fun _ => le_rfl)) fun _ => ?_
    have hg : GrantIs id (s.grantedOf id t) s := by
      rintro ⟨t', asm, ht', hasm⟩
      obtain rfl := Option.some.inj (ht.symm.trans ht')
      rw [grantedOf, hasm]
      rfl
    refine Follows.bind (tidy_of_held (i := none) (follows_tailProbe hg) (keeps_held_tailProbe _))
      fun _ u hexec => follows_withTransfer fun t _ => Follows.get_bind ?_
    exact Follows.ite (fun _ => tidy_recover (hg.of_exec keeps_view_tailProbe hexec)) fun _ => Follows.pure _

theorem tidy_tick : Follows Tidy tick c := by
  refine Follows.bind tidy_performanceNow fun now s _ => Follows.get_bind (Follows.bind ?_ fun _ s _ => ?_)
  · exact Follows.ite (fun _ => tidy_of_held (i := none) follows_detectSeqLoss keeps_held_detectSeqLoss)
      fun _ => Follows.pure _
  · refine Follows.get_bind (Follows.bind (Follows.forM fun _ _ _ => tidy_tickTransfer) fun _ s _ => ?_)
    refine Follows.modify ?_
    split_ifs
    · exact tidy_of_reaches (i := none) (Move.ticker _).reaches rfl
    · exact refl_of Tidy s

/-- What ends a session leaves nothing unsettled. -/
theorem tidy_failAll {err : Failure} (herr : ∀ limit t, Transfer.Stalled limit t err) :
    Follows Tidy (failAll err) c := by
  refine Follows.get_bind (Follows.bind ?_ fun _ s _ =>
    Follows.modify (tidy_of_reaches (i := none) (Move.ticker _).reaches rfl))
  refine Follows.forM_of (I := fun s => ∀ id ∈ c.transfers, Known id s)
    (fun id hid => known_of_mem_transfers hid) fun id hid s hs => ?_
  have hfail : Follows Tidy (finish id (some err)) s := tidy_fail (hs id hid) (.of_forall herr)
  exact ⟨hfail, fun id' hid' => hfail.known id' (hs id' hid')⟩

theorem tidy_flag {c' : Http4Client} (h : Flag c c') : Tidy c c' := by
  cases h with
  | stopReading | close | endSession => exact ⟨fun _ h => h, fun _ h => h, fun _ _ _ => .inl rfl⟩

theorem tidy_readLoopCatch (e : Thrown) : Follows Tidy (readLoopCatch e) c :=
  Follows.modify_bind (tidy_flag .stopReading) (tidy_failAll fun _ _ => trivial)

/-! ### Requests and readers -/

theorem tidy_start (hfresh : c.objects.get? id = none) (assetId : JsString) (streaming : Bool)
    (cls : PriorityClass) : Follows Tidy (start id assetId streaming cls) c := by
  have hfollows : Follows (Reaches none) (start id assetId streaming cls) c :=
    follows_start hfresh assetId streaming cls
  refine ⟨fun _ => hfollows.preserves fun _ _ => Known.move, fun _ => hfollows.preserves fun _ _ => SettledAt.move, ?_⟩
  -- every state on the way has the new transfer, or what was there before
  have hlives : Follows (fun c c' => ∀ id', c'.lives id' = c.lives id' ∨ c.objects.get? id' = none ∧
      c'.lives id' = some true) (start id assetId streaming cls) c := by
    unfold start
    refine Follows.get_bind (Follows.ite (fun _ _ => .inl rfl) fun _ => ?_)
    dsimp only
    cases (Outgoing.req id c.nextInitialGrant assetId).encode with
    | none => exact fun _ => .inl rfl
    | some b =>
      refine Follows.ite (fun _ _ => .inl rfl) fun _ => ?_
      have hset : Follows (Keeps lives) (do sendHello; send (.req id c.nextInitialGrant assetId); return none :
          Js (Option Failure)) { c.advance with
            objects := c.objects.set id (c.newTransfer assetId streaming cls c.nextInitialGrant)
            ticker := true } := by
        refine Follows.bind (keeps_sendHello lives (fun _ _ => rfl) fun _ _ => rfl) fun _ _ _ => ?_
        exact Follows.bind (keeps_send lives (fun _ _ => rfl) _) fun _ _ _ => Follows.pure _
      intro id'
      show (exec (do sendHello; send (.req id c.nextInitialGrant assetId); return none : Js (Option Failure)) _).2.lives
        id' = _ ∨ _ ∧ (exec (do sendHello; send (.req id c.nextInitialGrant assetId); return none :
          Js (Option Failure)) _).2.lives id' = _
      rw [congrFun hset id']
      show ((c.objects.set id _).get? id').map Transfer.live = _ ∨ _ ∧
        ((c.objects.set id _).get? id').map Transfer.live = _
      rw [OrderedMap.get?_set]
      split_ifs with heq
      · exact .inr ⟨heq ▸ hfresh, rfl⟩
      · exact .inl rfl
  intro id' t' ht'
  rcases hlives id' with hsame | ⟨hnone, hlive⟩
  · exact .inl hsame
  · obtain ⟨t, ht, heq⟩ := lives_eq_some_iff.mp hlive
    obtain rfl := Option.some.inj (ht'.symm.trans ht)
    exact .inr (.inr ⟨hnone, heq⟩)

theorem tidy_callPullIfNeeded : Follows Tidy (callPullIfNeeded id) c :=
  tidy_of_reaches (i := none) (follows_callPullIfNeeded id) (lives_of_frame keeps_frame_callPullIfNeeded)

theorem keeps_frame_readStream : Follows (Keeps frame) (readStream id) c := by
  refine Follows.get_bind (Follows.modify_bind (frame_setStream id _) ?_)
  exact Follows.ite (fun _ => keeps_frame_callPullIfNeeded) fun _ => Follows.pure _

theorem keeps_frame_pullDone : Follows (Keeps frame) (pullDone id) c := by
  refine Follows.get_bind (Follows.ite (fun _ => Follows.modify (frame_setStream id _)) fun _ => ?_)
  refine Follows.modify_bind (frame_setStream id _) ?_
  exact Follows.ite (fun _ => keeps_frame_callPullIfNeeded) fun _ => Follows.pure _

/-- Cancelling a stream removes no other transfer. -/
theorem lives_cancelStream {id' : ℤ} (hne : id' ≠ id) : (exec (cancelStream id) c).2.lives id' = c.lives id' := by
  let f (st : StreamState) : StreamState := { st with body := st.body.cancel, closed := true }
  let c₁ := c.setStream id f
  have hpump : Follows (Keeps lives) (tryCatch pumpGrants fun _ => pure () : Js Unit) (c₁.removed id) :=
    Follows.tryCatch (lives_of_frame (frame_of_held keeps_held_pumpGrants)) fun _ _ _ => Follows.pure _
  refine (congrFun hpump id').trans ?_
  refine Eq.trans ?_ (congrFun (lives_of_frame (frame_setStream (c := c) id f)) id')
  show ((c₁.objects.modify id _).get? id').map Transfer.live = (c₁.objects.get? id').map Transfer.live
  rw [OrderedMap.get?_modify, if_neg hne]

/-- A reader that has the stream cancels it. -/
theorem tidy_cancelStream (h : SettledAt id c) : Follows Tidy (cancelStream id) c := by
  obtain ⟨t, ht, hsettled⟩ := h
  have hfollows : Follows (Reaches none) (cancelStream id) c := follows_cancelStream ⟨t, ht⟩
  refine ⟨fun _ => hfollows.preserves fun _ _ => Known.move, fun _ => hfollows.preserves fun _ _ => SettledAt.move,
    fun id' t' ht' => ?_⟩
  by_cases heq : id' = id
  · subst heq
    obtain ⟨u, hu, hsettled'⟩ := hfollows.preserves (fun _ _ => SettledAt.move) ⟨t, ht, hsettled⟩
    obtain rfl := Option.some.inj (ht'.symm.trans hu)
    exact .inr (.inl hsettled')
  · exact .inl (lives_cancelStream heq)

end Functions

/-! ## The end of a session -/

section Ends

variable {c : Http4Client} {id : ℤ}

theorem lives_finish (err : Option Failure) (id' : ℤ) :
    (exec (finish id err) c).2.lives id' = if id' = id then (c.lives id').map fun _ => false else c.lives id' := by
  rw [exec_finish, congrFun (lives_of_frame (keeps_frame_finishRest err)) id']
  show ((c.objects.modify id _).get? id').map Transfer.live = _
  rw [OrderedMap.get?_modify]
  split_ifs with heq
  · rw [heq, Option.map_map]
    show _ = ((c.objects.get? id).map Transfer.live).map _
    rw [Option.map_map]
    rfl
  · rfl

/-- Only a GRANT that cannot be encoded keeps `finish` from returning after an error. -/
theorem blames_fail (e : Failure) : Blames (fun _ s => s.Broken) (finish id (some e)) c := by
  refine Blames.modify_bind (Blames.bind (Blames.ite (fun h => by cases h) fun _ => Blames.pure _) fun _ s _ => ?_)
  refine Blames.bind (fun e' t hexec => ?_) fun _ s _ => Blames.bind ?_ fun _ _ _ => blames_pumpGrants
  · have hok : (exec (endStream id (some e)) s).1 = .ok () := exec_endStream_some e
    rw [hexec] at hok
    cases hok
  · exact blames_withTransfer fun t _ => Blames.ite (fun _ => Blames.pure _) fun _ => Blames.modify _

/-- A loop that ends every transfer of a list. -/
theorem lives_forM_fail (err : Failure) {l : List ℤ} {s : Http4Client}
    (h : exec (l.forM fun id => finish id (some err)) c = (.ok (), s)) (id' : ℤ) :
    s.lives id' = if id' ∈ l then (c.lives id').map fun _ => false else c.lives id' := by
  induction l generalizing c with
  | nil =>
    have heq : c = s := congrArg Prod.snd h
    rw [if_neg List.not_mem_nil, heq]
  | cons id l ih =>
    obtain ⟨_, u, hfinish, hl⟩ := exec_bind_eq_ok_iff.mp (h : exec (finish id (some err) >>= fun _ => _) c = _)
    rw [ih hl]
    have hu : u.lives id' = _ := (congrArg (fun r => r.2.lives id') hfinish.symm).trans (lives_finish _ id')
    rw [hu]
    by_cases heq : id' = id
    · rw [if_pos heq, if_pos (List.mem_cons.mpr (.inl heq)), Option.map_map]
      split_ifs <;> rfl
    · rw [if_neg heq]
      exact if_congr (by rw [List.mem_cons, or_iff_right heq]) rfl rfl

/-- `failAll` leaves nothing in `this.transfers`, unless a packet could not be encoded. -/
theorem exec_failAll (err : Failure) :
    (exec (failAll err) c).2.Broken ∨ ∀ id, (exec (failAll err) c).2.lives id ≠ some true := by
  unfold failAll
  rw [exec_get_bind, exec_bind]
  rcases hexec : exec (c.transfers.forM fun id => finish id (some err)) c with ⟨r, s⟩
  cases r with
  | error e =>
    left
    exact Blames.forM_of (I := fun _ => True) trivial (fun id _ s _ => ⟨blames_fail err, trivial⟩) e s hexec
  | ok _ =>
    refine .inr fun id hlive => ?_
    have hlive : s.lives id = some true := hlive
    rw [lives_forM_fail err hexec] at hlive
    split_ifs at hlive with hmem
    · obtain ⟨_, -, hfalse⟩ := Option.map_eq_some_iff.mp hlive
      cases hfalse
    · obtain ⟨t, ht, hlive⟩ := lives_eq_some_iff.mp hlive
      exact hmem (List.mem_map.mpr ⟨(id, t), List.mem_filter.mpr ⟨OrderedMap.get?_eq_some_iff.mp ht, hlive⟩, rfl⟩)

theorem Http4Client.Move.reading {inc : Option Wire.Ts.Packet} {c c' : Http4Client} (h : Move inc c c') :
    c'.reading = c.reading := by
  cases h with
  | estimate | ticker | budget | hand | arrive | detect | repeats | register | change | pump => rfl

end Ends

/-! ## Runs -/

namespace Http4Client

/-- A stream that takes nothing more never does again. -/
theorem StreamTurn.canEnqueue_eq_false {Q : Leave} {st st' : StreamState} (h : StreamTurn Q st st')
    (hbody : st.body.canEnqueue = false) : st'.body.canEnqueue = false := by
  have hpull (failed : Bool) {st : StreamState} (h : st.body.canEnqueue = false) :
      (st.callPull failed).body.canEnqueue = false := by
    obtain ⟨_, _, _, _, heq⟩ := st.callPull_eq failed
    rw [heq]
    exact h
  cases h with
  | enqueued failed upTo chunk hopen hbody' => rw [hbody] at hbody'; cases hbody'
  | skipped | paused | shut | pullDone => exact hbody
  | ended => exact st.body.canEnqueue_close
  | errored => exact st.body.canEnqueue_error
  | started failed | pulledAgain failed => exact hpull failed hbody
  | read failed => exact hpull failed (ReadableStream.canEnqueue_read hbody)
  | pullRejected => exact st.body.canEnqueue_error
  | cancelled => rfl

variable {opts : ClientOptions} {maxDatagramSize : ℕ} {c c' : Http4Client}

/-- Who cancels a stream has got it from its promise. -/
def HasStream (c : Http4Client) (a : Step) : Prop := ∀ id, a.event = .cancel id → SettledAt id c

theorem tidy_code {e : Event} (h : c.Enabled e) (hcancel : ∀ id, e = .cancel id → SettledAt id c) :
    Follows Tidy (code e) c := by
  cases e with
  | request id assetId streaming cls =>
    exact Follows.bind (tidy_start h.2.2 assetId streaming cls) fun _ _ _ => Follows.pure _
  | datagram b alloc => exact Follows.tryCatch (tidy_readDatagram alloc b) fun e _ _ => tidy_readLoopCatch e
  | readDone => exact Follows.modify (tidy_flag .stopReading)
  | readRejected => exact tidy_readLoopCatch _
  | tick => exact tidy_tick
  | streamStarted id =>
    exact Follows.modify_bind (tidy_of_reaches (i := none) (reaches_setBody fun _ => ⟨rfl, .inl rfl, rfl⟩)
      (lives_of_frame (frame_setStream id _))) tidy_callPullIfNeeded
  | read id => exact tidy_of_reaches (i := none) (follows_readStream id) (lives_of_frame keeps_frame_readStream)
  | pullSettled id => exact tidy_of_reaches (i := none) (follows_pullDone id) (lives_of_frame keeps_frame_pullDone)
  | cancel id => exact tidy_cancelStream (hcancel id rfl)
  | close => exact Follows.modify (tidy_flag .close)
  | sessionEnded => exact Follows.modify_bind (tidy_flag .endSession) (tidy_failAll fun _ _ => trivial)

theorem step_tidy {a : Step} (h : c.step a = some c') (hcancel : c.HasStream a) : Tidy c c' := by
  rw [step] at h
  split_ifs at h with henabled
  obtain rfl := Option.some.inj h
  have helapse : Tidy c { c with est := { c.est with elapse := a.elapse } } :=
    ⟨fun _ h => h, fun _ h => h, fun _ _ _ => .inl rfl⟩
  exact trans_of Tidy helapse (tidy_code (enabled_elapse henabled a.elapse) hcancel)

/-- What has left `this.transfers` is settled, in every run. -/
theorem settled_run {as : List Step} (hrun : Machine.run Http4Client.step (connect opts maxDatagramSize) as = some c)
    (hcancel : Machine.Along Http4Client.step (connect opts maxDatagramSize) as HasStream) : Settled c := by
  refine Machine.run_along (P := Settled) (fun s a s' ha hs hstep => hs.tidy (step_tidy hstep ha)) hcancel ?_ hrun
  intro id t ht
  have hnone : (connect opts maxDatagramSize).lives id = none :=
    congrFun (keeps_sendHello lives (fun _ _ => rfl) fun _ _ => rfl) id
  rw [lives_of_get? ht] at hnone
  cases hnone

/-- **No promise is left open.** In every run in which only a reader cancels a stream that
    has got it, whatever has left `this.transfers` is settled, and its stream takes nothing
    more. -/
theorem settled_of_left {as : List Step} (hrun : Machine.run Http4Client.step (connect opts maxDatagramSize) as = some c)
    (hcancel : Machine.Along Http4Client.step (connect opts maxDatagramSize) as HasStream) {id : ℤ} {t : Transfer}
    (ht : c.objects.get? id = some t) (hlive : t.live = false) :
    t.settled = true ∧ ∀ st, t.stream = some st → st.body.canEnqueue = false := by
  refine ⟨settled_run hrun hcancel id t ht hlive, fun st hst => ?_⟩
  have hstream : c.streamOf id = some (false, st) := streamOf_eq_some_iff.mpr ⟨t, ht, hlive, hst⟩
  have hend := stream_invariant (P := fun _ live st => StreamOk st ∧ (live = false → st.body.canEnqueue = false))
    (fun _ => ⟨streamOk_new _, fun h => by cases h⟩)
    (fun _ _ _ _ h hturn => ⟨h.1.turn hturn, fun hlive => hturn.canEnqueue_eq_false (h.2 hlive)⟩)
    (fun _ _ _ st' h hreach hend => ⟨h.1.reach hreach, fun _ => hend.elim (h.1.reach hreach).closed fun h => h⟩)
    ⟨as, hrun⟩ hstream
  exact hend.2 rfl

/-- A reader has two bytes of ten and cancels. -/
def cancelled : Step := { event := .cancel 1 }

theorem along_oneReadWaits :
    Machine.Along Http4Client.step (connect {} 1200) oneReadWaits HasStream := by
  refine Machine.along_of_mem fun a ha c id hevent => ?_
  unfold oneReadWaits at ha
  simp only [List.mem_cons, List.not_mem_nil, or_false] at ha
  rcases ha with rfl | rfl | rfl | rfl | rfl | rfl | rfl <;> cases hevent

/-- A transfer that its reader gave up. -/
theorem settled_of_left_cancelled : ∃ c t st,
    Machine.run Http4Client.step (connect {} 1200) (oneReadWaits ++ [cancelled]) = some c ∧
      c.objects.get? 1 = some t ∧ t.live = false ∧ t.settled = true ∧ t.stream = some st ∧
      st.body.canEnqueue = false := by
  have hany : (Machine.run Http4Client.step (connect {} 1200) oneReadWaits).any fun c =>
      ((c.objects.get? 1).any fun t => t.settled) ∧ (c.step cancelled).any fun c' =>
        (c'.objects.get? 1).any fun t => t.live = false ∧ t.stream.isSome := by decide +kernel
  obtain ⟨c, hrun, hc⟩ := (Option.any_eq_true _ _).mp hany
  obtain ⟨hbefore, hafter⟩ := of_decide_eq_true hc
  obtain ⟨c', hstep, hafter⟩ := (Option.any_eq_true _ _).mp hafter
  obtain ⟨t', ht', hleft⟩ := (Option.any_eq_true _ _).mp hafter
  obtain ⟨hlive, hstream⟩ := of_decide_eq_true hleft
  obtain ⟨st, hst⟩ := Option.isSome_iff_exists.mp hstream
  have hcancel : c.HasStream cancelled := by
    intro id hevent
    obtain rfl := Event.cancel.inj hevent
    exact (Option.any_eq_true _ _).mp hbefore
  have hrun' := Machine.run_concat_iff.mpr ⟨c, hrun, hstep⟩
  obtain ⟨hsettled, hend⟩ :=
    settled_of_left hrun' (Machine.along_concat hrun along_oneReadWaits hcancel) ht' hlive
  exact ⟨c', t', st, hrun', ht', hlive, hsettled, hst, hend st hst⟩

/-- The read loop fails, or the session ends. -/
def Ends (a : Step) (c' : Http4Client) : Prop :=
  a.event = .readRejected ∨ a.event = .sessionEnded ∨ (∃ b alloc, a.event = .datagram b alloc) ∧ c'.reading = false

/-- **When the read loop fails or the session ends, every promise is settled**, unless a
    packet could not be encoded. -/
theorem all_settled {as : List Step} (hrun : Machine.run Http4Client.step (connect opts maxDatagramSize) as = some c)
    (hcancel : Machine.Along Http4Client.step (connect opts maxDatagramSize) as HasStream) {a : Step}
    (hstep : c.step a = some c') (hends : Ends a c') :
    c'.Broken ∨ ∀ id t, c'.objects.get? id = some t → t.live = false ∧ t.settled = true := by
  have hreader : c.HasStream a := by
    intro id hevent
    rcases hends with h | h | ⟨⟨b, alloc, h⟩, -⟩ <;> rw [hevent] at h <;> cases h
  have hsettled : Settled c' := (settled_run hrun hcancel).tidy (step_tidy hstep hreader)
  have hend : c'.Broken ∨ ∀ id, c'.lives id ≠ some true := by
    rw [step] at hstep
    split_ifs at hstep with henabled
    obtain rfl := Option.some.inj hstep
    rcases hends with h | h | ⟨⟨b, alloc, h⟩, hreading⟩
    · rw [h]
      exact exec_failAll _
    · rw [h]
      exact exec_failAll _
    · rw [h] at hreading henabled ⊢
      unfold code at hreading ⊢
      rw [exec_tryCatch] at hreading ⊢
      rcases hexec : exec (readDatagram alloc b) { c with est := { c.est with elapse := a.elapse } } with ⟨r, s⟩
      rw [hexec] at hreading
      cases r with
      | error e => exact exec_failAll _
      | ok _ =>
        -- the loop goes on
        have hkeep : s.reading = true := by
          refine preserves_of_exec (P := fun s => s.reading = true)
            (fun _ _ hs hm => (Move.reading hm).trans hs) (follows_readDatagram alloc b) hexec ?_
          exact henabled
        have hreading : s.reading = false := hreading
        rw [hkeep] at hreading
        cases hreading
  refine hend.imp_right fun hlives id t ht => ?_
  have hlive : t.live = false := by
    by_contra hlive
    exact hlives id ((lives_of_get? ht).trans (congrArg some (Bool.eq_true_of_not_eq_false hlive)))
  exact ⟨hlive, hsettled id t ht hlive⟩

/-- The read loop fails while a stream waits for bytes; every packet could be encoded. -/
theorem all_settled_rejected : ∃ c c' t,
    Machine.run Http4Client.step (connect {} 1200) oneReadWaits = some c ∧
      c.step { event := .readRejected } = some c' ∧ c.objects.get? 1 = some t ∧ t.live = true ∧
      ∀ id t, c'.objects.get? id = some t → t.live = false ∧ t.settled = true := by
  have hany : (Machine.run Http4Client.step (connect {} 1200) oneReadWaits).any fun c =>
      ((c.objects.get? 1).any fun t => t.live) ∧
        (c.step { event := .readRejected }).any fun c' => c'.handed.all fun p => p.encode.isSome := by decide +kernel
  obtain ⟨c, hrun, hc⟩ := (Option.any_eq_true _ _).mp hany
  obtain ⟨hlive, hstep⟩ := of_decide_eq_true hc
  obtain ⟨t, ht, hlive⟩ := (Option.any_eq_true _ _).mp hlive
  obtain ⟨c', hstep, hencoded⟩ := (Option.any_eq_true _ _).mp hstep
  have hbroken : ¬ c'.Broken := by
    rintro ⟨p, hp, hnone⟩
    have hsome := List.all_eq_true.mp hencoded p hp
    rw [hnone] at hsome
    cases hsome
  have hall := (all_settled hrun along_oneReadWaits hstep (.inl rfl)).resolve_left hbroken
  exact ⟨c, c', t, hrun, hstep, ht, hlive, hall⟩

end Http4Client

end Http4.Client
