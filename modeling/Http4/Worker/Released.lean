import Http4.Worker.Served

/-!
# No call is stuck

A call of `serve` waits for the browser, for its tab or for a timer. What the browser
owes it comes without any message of a page: the answers of `clients.get`, timers that
are due, the platform's response. `Due` bounds the timers. A tab that lives and says
nothing can hold a forwarded request, since the watchdog only asks whether the tab is
there; what the module shows is that each call has a way to end.

Main results:

* `due_run`: no timer is further away than its length.
* `released`: from every reachable state each call can end by what the browser owes it
  alone, and time has to go on for no longer than the three timers.
-/

namespace Http4.Worker

open Wire.Ts (JsString jsLit)

/-! ## Timers -/

/-- No timer is further away than its length. -/
def Serve.Due (now : ℚ) (call : Serve) : Prop :=
  match call.stage with
  | .ready due _ => due ≤ now + readyTimeoutMs call.request.destination
  | .forwarded due _ _ => due ≤ now + watchdogMs
  | _ => True

/-- Every timer of the worker is at most its length away. -/
structure Due (s : ServiceWorker) : Prop where
  tabs : ∀ id tab, s.tabs.get? id = some tab → tab.ackDue ≤ s.now + ackTimeout
  serves : ∀ (n : ℕ) (call : Serve), s.serves[n]? = some call → call.Due s.now

section Due

variable {site : Site} {s s' t : ServiceWorker} {call : Serve} {n : ℕ} {stage : Stage}

theorem Serve.Due.mono {now now' : ℚ} (h : call.Due now) (hle : now ≤ now') : call.Due now' := by
  unfold Serve.Due at h ⊢
  split
  next due won hstage =>
    rw [hstage] at h
    exact h.trans (add_le_add_left hle _)
  next due looks result hstage =>
    rw [hstage] at h
    exact h.trans (add_le_add_left hle _)
  · trivial

/-- A call goes on, the clock and the tabs' timers stay. -/
theorem Due.enter (h : Due s) (hnow : t.now = s.now)
    (htabs : ∀ id tab, t.tabs.get? id = some tab → tab.ackDue ≤ s.now + ackTimeout) (hserves : t.serves = s.serves)
    (hself : ∀ call, s.serves[n]? = some call → ({ call with stage := stage } : Serve).Due s.now) :
    Due (t.enter n stage) := by
  refine ⟨fun id tab htab => ?_, fun m call' h' => ?_⟩
  · show tab.ackDue ≤ t.now + ackTimeout
    rw [hnow]
    exact htabs id tab htab
  · show call'.Due t.now
    rw [hnow]
    rw [getElem?_enter, hserves] at h'
    split_ifs at h' with hm
    · subst hm
      obtain ⟨call, hcall, rfl⟩ := Option.map_eq_some_iff.mp h'
      exact hself call hcall
    · exact h.serves m call' h'

theorem due_choose (call : Serve) (now : ℚ) (info : Ready) :
    ({ call with stage := call.choose site now info } : Serve).Due now := by
  have hforward : ({ call with stage := forward now } : Serve).Due now := le_refl (now + (watchdogMs : ℚ))
  unfold Serve.choose
  split_ifs
  · split
    · exact hforward
    · split
      · trivial
      · split_ifs
        · exact hforward
        · trivial
  · trivial

theorem Move.due (hmove : Move site s call stage) (h : call.Due s.now) :
    ({ call with stage := stage } : Serve).Due s.now := by
  unfold Serve.Due at h
  cases hmove with
  | lost | elsewhere | failed => trivial
  | greeted tab hstage htab =>
    unfold Serve.greet
    split
    · exact due_choose call s.now _
    · trivial
  | waited tab acked hstage htab hacked =>
    unfold Serve.wait
    split_ifs
    · trivial
    · show s.now + readyTimeoutMs call.request.destination ≤ _
      exact le_refl _
    · trivial
  | slept due hstage hdue =>
    rw [hstage] at h
    exact h
  | chosen due info hstage => exact due_choose call s.now info
  | replied due looks r hstage =>
    rw [hstage] at h
    exact h
  | looked due looks hstage hdue =>
    show due + watchdogMs ≤ s.now + watchdogMs
    exact add_le_add_left hdue _
  | watched due looks result result' hstage =>
    rw [hstage] at h
    exact h

theorem Due.change (h : Due s) (hchange : Change site s s') : Due s' := by
  cases hchange with
  | same | leftAlone | mirrored => exact ⟨h.tabs, h.serves⟩
  | clock d =>
    have hle : s.now ≤ s.now + d := le_add_of_nonneg_right d.2
    refine ⟨fun id tab htab => ?_, fun n call hcall => (h.serves n call hcall).mono hle⟩
    exact (h.tabs id tab htab).trans (add_le_add_left hle _)
  | begun request clientId hnone =>
    refine ⟨h.tabs, fun n call' h' => ?_⟩
    rcases List.mem_append.mp (List.mem_of_getElem? h') with hold | hnew
    · obtain ⟨m, hm⟩ := List.mem_iff_getElem?.mp hold
      exact h.serves m call' hm
    · rw [List.mem_singleton.mp hnew]
      trivial
  | moved n call stage hcall hmove =>
    refine h.enter rfl h.tabs rfl fun call' h' => ?_
    obtain rfl := Option.some.inj (hcall.symm.trans h')
    exact hmove.due (h.serves n call hcall)
  | introduced n call hcall hstage hnone =>
    refine h.enter (t := s.hello call.clientId) rfl (fun id tab htab => ?_) rfl fun _ _ => trivial
    change (s.tabs.set call.clientId _).get? id = some tab at htab
    rw [OrderedMap.get?_set] at htab
    split_ifs at htab
    · obtain rfl := Option.some.inj htab
      exact le_refl _
    · exact h.tabs id tab htab
  | acked clientId tab₀ acked htab₀ =>
    refine ⟨fun id tab htab => ?_, h.serves⟩
    change (s.tabs.set clientId _).get? id = some tab at htab
    rw [OrderedMap.get?_set] at htab
    split_ifs at htab
    · obtain rfl := Option.some.inj htab
      exact h.tabs clientId tab₀ htab₀
    · exact h.tabs id tab htab
  | readied clientId tab₀ info htab₀ hinfo =>
    refine ⟨fun id tab htab => ?_, fun n call' h' => ?_⟩
    · change (s.tabs.set clientId _).get? id = some tab at htab
      rw [OrderedMap.get?_set] at htab
      split_ifs at htab
      · obtain rfl := Option.some.inj htab
        exact h.tabs clientId tab₀ htab₀
      · exact h.tabs id tab htab
    · rcases getElem?_readied h' with h' | ⟨call, due, hcall, hstage, hid, rfl⟩
      · exact h.serves n call' h'
      · have hold := h.serves n call hcall
        unfold Serve.Due at hold
        rw [hstage] at hold
        exact hold
  | gaveUp n call due hcall hstage =>
    refine h.enter (t := { s with tabs := s.tabs.modify call.clientId fun tab => { tab with gaveUp := true } }) rfl
      (fun id tab htab => ?_) rfl fun _ _ => trivial
    change (s.tabs.modify call.clientId _).get? id = some tab at htab
    rw [OrderedMap.get?_modify] at htab
    split_ifs at htab
    · obtain ⟨tab₀, htab₀, rfl⟩ := Option.map_eq_some_iff.mp htab
      exact h.tabs id tab₀ htab₀
    · exact h.tabs id tab htab
  | recorded n call r stage hcall hends =>
    refine h.enter (t := s.record (some n) r) rfl h.tabs rfl fun call' _ => ?_
    cases hends with
    | network => trivial
    | page due looks status headers body stream length hstage =>
      by_cases hok : site.constructs (.http4 status headers body stream length)
      · rw [if_pos hok]
        trivial
      · rw [if_neg hok]
        trivial

theorem due_run {es : List Event} (hrun : Machine.run (ServiceWorker.step site) .init es = some s) : Due s :=
  Machine.run_invariant (P := Due) (fun _ _ _ h hstep => h.change (step_change hstep))
    ⟨by simp [ServiceWorker.init], by simp [ServiceWorker.init]⟩ hrun

end Due

/-! ## What the browser owes a call -/

/-- The events that need no message of a page and no new request: `n` is the call, and
    `clientId` its tab. -/
def Event.Owed (n : ℕ) (clientId : JsString) : Event → Prop
  | .elapse _ => True
  | .found m _ | .sleepOver m | .watchdog m | .watchdogFound m _ | .resume m | .network m _ => m = n
  | .ackTimeout id => id = clientId
  | .fetch _ _ | .helloReply _ _ | .reply _ _ | .mirror _ _ => False

/-- A call has ended. -/
def Stage.Ended : Stage → Prop
  | .answered _ _ _ | .rejected _ => True
  | .lookup | .acked | .ready _ _ | .forwarded _ _ _ | .network _ _ => False

/-- The call `n` can end by what the browser owes it, at the time `limit` at the latest. -/
def Releases (site : Site) (s : ServiceWorker) (n : ℕ) (clientId : JsString) (limit : ℚ) : Prop :=
  ∃ es t call, (∀ e ∈ es, e.Owed n clientId) ∧ Machine.run (ServiceWorker.step site) s es = some t ∧
    t.now ≤ limit ∧ t.serves[n]? = some call ∧ call.stage.Ended

section Releases

variable {site : Site} {s t : ServiceWorker} {call : Serve} {n : ℕ} {clientId : JsString} {limit : ℚ}

theorem Releases.step {e : Event} (he : e.Owed n clientId) (hstep : s.step site e = some t)
    (h : Releases site t n clientId limit) : Releases site s n clientId limit := by
  obtain ⟨es, u, call, hes, hrun, hrest⟩ := h
  exact ⟨e :: es, u, call, List.forall_mem_cons.mpr ⟨he, hes⟩, Machine.run_cons_iff.mpr ⟨t, hstep, hrun⟩, hrest⟩

theorem releases_of_ended (hcall : s.serves[n]? = some call) (hended : call.stage.Ended) (hle : s.now ≤ limit) :
    Releases site s n clientId limit :=
  ⟨[], s, call, by simp, rfl, hle, hcall, hended⟩

/-- The call after it has gone on. -/
theorem getElem?_enter_self (hcall : s.serves[n]? = some call) (stage : Stage) :
    (s.enter n stage).serves[n]? = some { call with stage := stage } := by
  rw [getElem?_enter, if_pos rfl, hcall]
  rfl

/-- Time goes on until a timer fires. -/
theorem Releases.later (due : ℚ) (h : Releases site { s with now := max s.now due } n clientId limit) :
    Releases site s n clientId limit := by
  refine Releases.step (e := .elapse (due - s.now).toNNRat) trivial ?_ h
  show some { s with now := s.now + max (due - s.now) 0 } = _
  rcases le_total s.now due with hle | hle
  · rw [max_eq_left (sub_nonneg.mpr hle), max_eq_right hle, add_sub_cancel]
  · rw [max_eq_right (sub_nonpos.mpr hle), max_eq_left hle, add_zero]

/-- The platform answers. -/
theorem releases_of_network {transport : Transport} {reason : JsString} (hcall : s.serves[n]? = some call)
    (hstage : call.stage = .network transport reason) (hle : s.now ≤ limit) : Releases site s n clientId limit := by
  refine Releases.step (e := .network n none) rfl ?_
    (releases_of_ended (getElem?_enter_self hcall (.rejected none)) trivial hle)
  simp only [ServiceWorker.step, hcall, hstage, ServiceWorker.network, bind, Option.bind, pure]

/-- The reply, or that the tab is gone, is there. -/
theorem releases_of_result {due : ℚ} {looks : ℕ} {result : Option ServeReply} (hcall : s.serves[n]? = some call)
    (hstage : call.stage = .forwarded due looks (some result)) (hle : s.now ≤ limit) :
    Releases site s n clientId limit := by
  have hstep : s.step site (.resume n) = some (s.conclude site n call result) := by
    simp only [ServiceWorker.step, hcall, ServiceWorker.resume, hstage, bind, Option.bind]
  refine Releases.step (e := .resume n) rfl hstep ?_
  have hnetwork (transport : Transport) (reason : JsString) :
      Releases site (s.enter n (.network transport reason)) n clientId limit :=
    releases_of_network (getElem?_enter_self hcall _) rfl hle
  cases result with
  | none => exact hnetwork _ _
  | some r =>
    cases r with
    | fallback reason => exact hnetwork _ _
    | platform reason => exact hnetwork _ _
    | http4 status headers body stream length =>
      refine releases_of_ended (getElem?_enter_self (s := s.record (some n) _) hcall _) ?_ hle
      show Stage.Ended (if site.constructs _ then _ else _)
      split_ifs <;> trivial

/-- The watchdog finds the tab gone. -/
theorem releases_of_forwarded {due : ℚ} {looks : ℕ} {result : Option (Option ServeReply)}
    (hcall : s.serves[n]? = some call) (hstage : call.stage = .forwarded due looks result) (hle : s.now ≤ limit)
    (hdue : due ≤ limit) : Releases site s n clientId limit := by
  cases result with
  | some result => exact releases_of_result hcall hstage hle
  | none =>
    refine Releases.later due ?_
    have hcall₁ : ({ s with now := max s.now due } : ServiceWorker).serves[n]? = some call := hcall
    have hle₁ : ({ s with now := max s.now due } : ServiceWorker).now ≤ limit := max_le hle hdue
    have hdue₁ : due ≤ ({ s with now := max s.now due } : ServiceWorker).now := le_max_right _ _
    generalize ({ s with now := max s.now due } : ServiceWorker) = t at hcall₁ hle₁ hdue₁
    refine Releases.step (e := .watchdog n) (t := t.enter n (.forwarded (due + watchdogMs) (looks + 1) none)) rfl ?_ ?_
    · simp only [ServiceWorker.step, hcall₁, hstage, hdue₁, if_true, bind, Option.bind, pure]
    have hcall₂ := getElem?_enter_self hcall₁ (.forwarded (due + watchdogMs) (looks + 1) none)
    refine Releases.step (e := .watchdogFound n false)
      (t := (t.enter n (.forwarded (due + watchdogMs) (looks + 1) none)).enter n
        (.forwarded (due + watchdogMs) looks (some none))) rfl ?_ ?_
    · simp only [ServiceWorker.step, hcall₂, bind, Option.bind, pure]
      rfl
    · exact releases_of_result (getElem?_enter_self hcall₂ _) rfl hle₁

/-- A call whose tab has a session, or is known to have none. -/
theorem releases_of_choose {info : Ready} (hcall : s.serves[n]? = some call)
    (hstage : call.stage = call.choose site s.now info) (hle : s.now + watchdogMs ≤ limit) :
    Releases site s n clientId limit := by
  have hnow : s.now ≤ limit := (le_add_of_nonneg_right (Nat.cast_nonneg _)).trans hle
  have hforward (h : call.stage = forward s.now) : Releases site s n clientId limit :=
    releases_of_forwarded hcall h hnow hle
  unfold Serve.choose at hstage
  split_ifs at hstage
  · split at hstage
    · exact hforward hstage
    · split at hstage
      · exact releases_of_ended hcall (by rw [hstage]; trivial) hnow
      · split_ifs at hstage
        · exact hforward hstage
        · exact releases_of_network hcall hstage hnow
  · exact releases_of_network hcall hstage hnow

/-- The race is over, or `sleep` ends it. -/
theorem releases_of_ready {due : ℚ} {won : Option (Option Ready)} (hcall : s.serves[n]? = some call)
    (hstage : call.stage = .ready due won) (hle : s.now + watchdogMs ≤ limit) (hdue : due ≤ limit) :
    Releases site s n clientId limit := by
  have hnow : s.now ≤ limit := (le_add_of_nonneg_right (Nat.cast_nonneg _)).trans hle
  -- the session did not come up in time
  have hlost {t : ServiceWorker} {call : Serve} (hcall : t.serves[n]? = some call)
      (hstage : call.stage = .ready due (some none)) (hnow : t.now ≤ limit) : Releases site t n clientId limit := by
    refine Releases.step (e := .resume n) rfl ?_ (releases_of_network (getElem?_enter_self
      (s := { t with tabs := t.tabs.modify call.clientId fun tab => { tab with gaveUp := true } }) hcall
      (.network .fallback (notReady call.request.destination))) rfl hnow)
    simp only [ServiceWorker.step, hcall, ServiceWorker.resume, hstage, bind, Option.bind]
  cases won with
  | some winner =>
    cases winner with
    | none => exact hlost hcall hstage hnow
    | some info =>
      refine Releases.step (e := .resume n) (t := s.enter n (call.choose site s.now info)) rfl ?_
        (releases_of_choose (getElem?_enter_self hcall _) rfl hle)
      simp only [ServiceWorker.step, hcall, ServiceWorker.resume, hstage, bind, Option.bind]
  | none =>
    refine Releases.later due ?_
    have hcall₁ : ({ s with now := max s.now due } : ServiceWorker).serves[n]? = some call := hcall
    have hle₁ : ({ s with now := max s.now due } : ServiceWorker).now ≤ limit := max_le hnow hdue
    have hdue₁ : due ≤ ({ s with now := max s.now due } : ServiceWorker).now := le_max_right _ _
    generalize ({ s with now := max s.now due } : ServiceWorker) = t at hcall₁ hle₁ hdue₁
    refine Releases.step (e := .sleepOver n) (t := t.enter n (.ready due (some none))) rfl ?_
      (hlost (getElem?_enter_self hcall₁ _) rfl hle₁)
    simp only [ServiceWorker.step, hcall₁, hstage, hdue₁, if_true, bind, Option.bind, pure]

/-- The tab has answered "hello", or it counts as having no bridge. -/
theorem releases_of_acked {tab : Tab} (hcall : s.serves[n]? = some call) (hstage : call.stage = .acked)
    (htab : s.tabs.get? call.clientId = some tab) (hdue : tab.ackDue ≤ limit)
    (hle : s.now + readyTimeoutMs call.request.destination + watchdogMs ≤ limit) :
    Releases site s n call.clientId limit := by
  have hwait : s.now ≤ s.now + readyTimeoutMs call.request.destination :=
    le_add_of_nonneg_right (Nat.cast_nonneg _)
  have hshort : s.now + watchdogMs ≤ limit := (add_le_add_left hwait _).trans hle
  have hnow : s.now ≤ limit := (le_add_of_nonneg_right (Nat.cast_nonneg _)).trans hshort
  cases hacked : tab.acked with
  | some acked =>
    refine Releases.step (e := .resume n) (t := s.enter n (call.wait s.now tab acked)) rfl ?_ ?_
    · simp only [ServiceWorker.step, hcall, ServiceWorker.resume, hstage, htab, hacked, bind, Option.bind, pure]
    have hcall' := getElem?_enter_self hcall (call.wait s.now tab acked)
    have hready : s.now + readyTimeoutMs call.request.destination ≤ limit :=
      (le_add_of_nonneg_right (Nat.cast_nonneg _)).trans hle
    unfold Serve.wait at hcall' ⊢
    split_ifs at hcall' ⊢
    · exact releases_of_network hcall' rfl hnow
    · exact releases_of_ready hcall' rfl hshort hready
    · exact releases_of_network hcall' rfl hnow
  | none =>
    refine Releases.later tab.ackDue ?_
    have hcall₁ : ({ s with now := max s.now tab.ackDue } : ServiceWorker).serves[n]? = some call := hcall
    have htab₁ : ({ s with now := max s.now tab.ackDue } : ServiceWorker).tabs.get? call.clientId = some tab := htab
    have hle₁ : ({ s with now := max s.now tab.ackDue } : ServiceWorker).now ≤ limit := max_le hnow hdue
    have hdue₁ : tab.ackDue ≤ ({ s with now := max s.now tab.ackDue } : ServiceWorker).now := le_max_right _ _
    generalize ({ s with now := max s.now tab.ackDue } : ServiceWorker) = t at hcall₁ htab₁ hle₁ hdue₁
    refine Releases.step (e := .ackTimeout call.clientId)
      (t := { t with tabs := t.tabs.set call.clientId { tab with acked := some false } }) rfl ?_ ?_
    · simp only [ServiceWorker.step, htab₁, hdue₁, hacked, Option.none_or, if_true, bind, Option.bind, pure]
    have htab₂ : (t.tabs.set call.clientId { tab with acked := some false }).get? call.clientId =
        some { tab with acked := some false } := by
      rw [OrderedMap.get?_set, if_pos rfl]
    refine Releases.step (e := .resume n) (t := ({ t with
      tabs := t.tabs.set call.clientId { tab with acked := some false } } : ServiceWorker).enter n
        (.network .fallback (jsLit "tab has no HTTP4 bridge"))) rfl ?_ (releases_of_network
          (getElem?_enter_self (s := { t with
            tabs := t.tabs.set call.clientId { tab with acked := some false } }) hcall₁ _) rfl hle₁)
    simp only [ServiceWorker.step, hcall₁, ServiceWorker.resume, hstage, htab₂, bind, Option.bind, pure]
    rfl

/-- The tab is found. -/
theorem releases_of_lookup (hdue : Due s) (hcall : s.serves[n]? = some call) (hstage : call.stage = .lookup)
    (hle : s.now + ackTimeout + readyTimeoutMs call.request.destination + watchdogMs ≤ limit) :
    Releases site s n call.clientId limit := by
  have hstep : s.step site (.found n true) = some (s.found site n call true) := by
    simp only [ServiceWorker.step, hcall, hstage, if_true, bind, Option.bind, pure]
  have hack : s.now ≤ s.now + (ackTimeout : ℚ) := le_add_of_nonneg_right (Nat.cast_nonneg _)
  have hlong : s.now + readyTimeoutMs call.request.destination + watchdogMs ≤ limit :=
    (add_le_add_left (add_le_add_left hack _) _).trans hle
  have hshort : s.now + watchdogMs ≤ limit :=
    (add_le_add_left (le_add_of_nonneg_right (Nat.cast_nonneg _)) _).trans hlong
  have htimer : s.now + (ackTimeout : ℚ) ≤ limit := by
    refine le_trans ?_ hle
    rw [add_assoc]
    exact le_add_of_nonneg_right (add_nonneg (Nat.cast_nonneg _) (Nat.cast_nonneg _))
  refine Releases.step (e := .found n true) rfl hstep ?_
  unfold ServiceWorker.found
  rw [if_pos rfl]
  split
  next tab htab =>
    unfold Serve.greet
    split
    next info _ => exact releases_of_choose (getElem?_enter_self hcall _) rfl hshort
    next =>
      show Releases site _ n ({ call with stage := .acked } : Serve).clientId limit
      exact releases_of_acked (getElem?_enter_self hcall _) rfl htab ((hdue.tabs _ tab htab).trans htimer) hlong
  next hnone =>
    show Releases site _ n ({ call with stage := .acked } : Serve).clientId limit
    have htab : ((s.hello call.clientId).enter n .acked).tabs.get? call.clientId =
        some { acked := none, ackDue := s.now + ackTimeout, info := none, gaveUp := false } := by
      show (s.tabs.set call.clientId _).get? call.clientId = _
      rw [OrderedMap.get?_set, if_pos rfl]
    exact releases_of_acked (getElem?_enter_self (s := s.hello call.clientId) hcall .acked) rfl htab htimer hlong

/-- **No call is stuck**: from every reachable state each call of `serve` can end by what
    the browser owes it, with no message of a page, and once the timers of `hello`, of the
    wait for the session and of the watchdog have had their time, if not before. -/
theorem released (site : Site) (es : List Event) (s : ServiceWorker)
    (hrun : Machine.run (ServiceWorker.step site) .init es = some s) (n : ℕ) (call : Serve)
    (hcall : s.serves[n]? = some call) :
    Releases site s n call.clientId
      (s.now + ackTimeout + readyTimeoutMs call.request.destination + watchdogMs) := by
  have hdue := due_run hrun
  have hself := hdue.serves n call hcall
  have haccounted := (inv_run hrun).calls.accounted n call hcall
  have hack : s.now ≤ s.now + (ackTimeout : ℚ) := le_add_of_nonneg_right (Nat.cast_nonneg _)
  have hwait : s.now + readyTimeoutMs call.request.destination + watchdogMs ≤
      s.now + ackTimeout + readyTimeoutMs call.request.destination + watchdogMs :=
    add_le_add_left (add_le_add_left hack _) _
  have hshort : s.now + watchdogMs ≤ s.now + ackTimeout + readyTimeoutMs call.request.destination + watchdogMs :=
    (add_le_add_left (le_add_of_nonneg_right (Nat.cast_nonneg _)) _).trans hwait
  have hnow : s.now ≤ s.now + ackTimeout + readyTimeoutMs call.request.destination + watchdogMs :=
    (le_add_of_nonneg_right (Nat.cast_nonneg _)).trans hshort
  unfold Serve.Due at hself
  unfold Serve.Accounted at haccounted
  cases hstage : call.stage with
  | lookup => exact releases_of_lookup hdue hcall hstage (le_refl _)
  | acked =>
    rw [hstage] at haccounted
    obtain ⟨-, tab, htab⟩ := haccounted
    refine releases_of_acked hcall hstage htab ((hdue.tabs _ tab htab).trans ?_) hwait
    rw [add_assoc]
    exact le_add_of_nonneg_right (add_nonneg (Nat.cast_nonneg _) (Nat.cast_nonneg _))
  | ready due won =>
    rw [hstage] at hself
    refine releases_of_ready hcall hstage hshort (hself.trans ?_)
    exact (le_add_of_nonneg_right (Nat.cast_nonneg _)).trans hwait
  | forwarded due looks result =>
    rw [hstage] at hself
    exact releases_of_forwarded hcall hstage hnow (hself.trans hshort)
  | network transport reason => exact releases_of_network hcall hstage hnow
  | answered => exact releases_of_ended hcall (by rw [hstage]; trivial) hnow
  | rejected => exact releases_of_ended hcall (by rw [hstage]; trivial) hnow

end Releases

/-- A tab that says it is connecting and then nothing more: its image ends in time. -/
theorem released_image : ∃ s call,
    Machine.run (ServiceWorker.step smallSite) .init
      [smallFetch, .found 0 true, .helloReply (jsLit "t") .connecting, .resume 0] = some s ∧
    s.serves[0]? = some call ∧ call.stage = .ready 6000 none ∧ Releases smallSite s 0 call.clientId 7500 := by
  have hany : (Machine.run (ServiceWorker.step smallSite) .init
      [smallFetch, .found 0 true, .helloReply (jsLit "t") .connecting, .resume 0]).any fun s =>
      decide (s.now = 0) && s.serves[0]?.any fun call : Serve =>
        decide (call.stage = .ready 6000 none) && decide (call.request.destination = jsLit "image") := by
    decide +kernel
  obtain ⟨s, hrun, hs⟩ := (Option.any_eq_true _ _).mp hany
  rw [Bool.and_eq_true] at hs
  obtain ⟨call, hcall, hstage⟩ := (Option.any_eq_true _ _).mp hs.2
  rw [Bool.and_eq_true] at hstage
  have hreleased := released smallSite _ s hrun 0 call hcall
  have hlimit : (0 : ℚ) + ackTimeout + readyTimeoutMs (jsLit "image") + watchdogMs = 7500 := by decide +kernel
  rw [of_decide_eq_true hs.1, of_decide_eq_true hstage.2, hlimit] at hreleased
  exact ⟨s, call, hrun, hcall, of_decide_eq_true hstage.1, hreleased⟩

end Http4.Worker
