import Http4.Worker.ServiceWorker

/-!
# Every intercepted request is served once

`Change` lists what a step of the worker changes, and `Move` where a call of `serve`
goes on to. The invariant is three parts: the log, the tabs, and for each call what was
recorded of it.

Main results:

* `step_change`: every step is one of these changes.
* `served_once`: over a run, each request is recorded exactly once, as it was answered;
  a tab is greeted once; and only what its session can serve is taken from a tab.
-/

namespace Http4.Worker

open Wire.Ts (JsString jsLit)

/-! ## What a step changes -/

/-- Where a call goes on to without being recorded. -/
inductive Move (site : Site) (s : ServiceWorker) (call : Serve) : Stage → Prop
  | lost (hstage : call.stage = .lookup) : Move site s call (.network .fallback (jsLit "requesting tab not found"))
  | greeted (tab : Tab) (hstage : call.stage = .lookup) (htab : s.tabs.get? call.clientId = some tab) :
      Move site s call (call.greet site s.now tab)
  | waited (tab : Tab) (acked : Bool) (hstage : call.stage = .acked)
      (htab : s.tabs.get? call.clientId = some tab) (hacked : tab.acked = some acked) :
      Move site s call (call.wait s.now tab acked)
  | slept (due : ℚ) (hstage : call.stage = .ready due none) (hdue : due ≤ s.now) :
      Move site s call (.ready due (some none))
  | chosen (due : ℚ) (info : Ready) (hstage : call.stage = .ready due (some (some info))) :
      Move site s call (call.choose site s.now info)
  | replied (due : ℚ) (looks : ℕ) (r : ServeReply) (hstage : call.stage = .forwarded due looks none) :
      Move site s call (.forwarded due looks (some (some r)))
  | looked (due : ℚ) (looks : ℕ) (hstage : call.stage = .forwarded due looks none) (hdue : due ≤ s.now) :
      Move site s call (.forwarded (due + watchdogMs) (looks + 1) none)
  | watched (due : ℚ) (looks : ℕ) (result result' : Option (Option ServeReply))
      (hstage : call.stage = .forwarded due (looks + 1) result)
      (hresult : result' = result ∨ result' = result.or (some none)) :
      Move site s call (.forwarded due looks result')
  | elsewhere (due : ℚ) (looks : ℕ) (result : Option ServeReply) (transport : Transport) (reason : JsString)
      (hstage : call.stage = .forwarded due looks (some result)) (hnot : transport ≠ .http4) :
      Move site s call (.network transport reason)
  | failed (transport : Transport) (reason : JsString) (hstage : call.stage = .network transport reason) :
      Move site s call (.rejected none)

/-- How a call ends with an entry in the log. -/
inductive Ends (site : Site) (s : ServiceWorker) (call : Serve) : SwRequestReport → Stage → Prop
  | network (transport : Transport) (reason : JsString) (r : NetworkResponse)
      (hstage : call.stage = .network transport reason) :
      Ends site s call (call.report s.now transport (some reason) r.status r.contentLength)
        (.answered transport (some reason) (.network r))
  | page (due : ℚ) (looks : ℕ) (status : ℕ) (headers : List (JsString × JsString)) (body : Option Bytes)
      (stream : Bool) (length : Option ℕ)
      (hstage : call.stage = .forwarded due looks (some (some (.http4 status headers body stream length)))) :
      Ends site s call (call.report s.now .http4 none status (replyBytes body stream length))
        (if site.constructs (.http4 status headers body stream length) then
          .answered .http4 none (.page status headers (if stream then none else body) stream)
        else .rejected (some (.http4 status headers body stream length)))

/-- What a step changes. -/
inductive Change (site : Site) (s : ServiceWorker) : ServiceWorker → Prop
  | same : Change site s s
  | clock (d : ℚ≥0) : Change site s { s with now := s.now + d }
  | leftAlone (request : Request) (clientId skip : JsString)
      (hskip : leaveToNetwork site request clientId = some (some skip)) :
      Change site s (s.record none
        { url := request.url, method := request.method, destination := request.destination,
          transport := .platform, reason := some skip, status := 0, ms := 0, bytes := none, clientId := clientId })
  | begun (request : Request) (clientId : JsString) (hnone : leaveToNetwork site request clientId = some none) :
      Change site s
        { s with serves := s.serves ++ [{ clientId := clientId, request := request, t0 := s.now, stage := .lookup }] }
  | moved (n : ℕ) (call : Serve) (stage : Stage) (hcall : s.serves[n]? = some call) (hmove : Move site s call stage) :
      Change site s (s.enter n stage)
  | introduced (n : ℕ) (call : Serve) (hcall : s.serves[n]? = some call) (hstage : call.stage = .lookup)
      (hnone : s.tabs.get? call.clientId = none) :
      Change site s ((s.hello call.clientId).enter n .acked)
  | acked (clientId : JsString) (tab : Tab) (acked : Bool) (htab : s.tabs.get? clientId = some tab) :
      Change site s { s with tabs := s.tabs.set clientId { tab with acked := tab.acked.or (some acked) } }
  | readied (clientId : JsString) (tab : Tab) (info : Ready) (htab : s.tabs.get? clientId = some tab)
      (hinfo : tab.info = none) : Change site s (s.helloReply clientId tab (.ready info))
  | gaveUp (n : ℕ) (call : Serve) (due : ℚ) (hcall : s.serves[n]? = some call)
      (hstage : call.stage = .ready due (some none)) :
      Change site s
        ({ s with tabs := s.tabs.modify call.clientId fun tab => { tab with gaveUp := true } }.enter n
          (.network .fallback (notReady call.request.destination)))
  | recorded (n : ℕ) (call : Serve) (r : SwRequestReport) (stage : Stage) (hcall : s.serves[n]? = some call)
      (hends : Ends site s call r stage) : Change site s ((s.record (some n) r).enter n stage)
  | mirrored (i : ℕ) (r : SwRequestReport) (found : Bool) (hr : s.mirrors[i]? = some r) :
      Change site s { s with
        mirrors := s.mirrors.eraseIdx i
        posted := if found then s.posted ++ [(r.clientId, r)] else s.posted }

section Change

variable {site : Site} {s s' : ServiceWorker} {e : Event}

theorem change_found {n : ℕ} {call : Serve} {alive : Bool} (hcall : s.serves[n]? = some call)
    (hstage : call.stage = .lookup) : Change site s (s.found site n call alive) := by
  unfold ServiceWorker.found
  split_ifs
  · split
    next tab htab => exact .moved n call _ hcall (.greeted tab hstage htab)
    next htab => exact .introduced n call hcall hstage htab
  · exact .moved n call _ hcall (.lost hstage)

theorem change_conclude {n : ℕ} {call : Serve} {due : ℚ} {looks : ℕ} {result : Option ServeReply}
    (hcall : s.serves[n]? = some call) (hstage : call.stage = .forwarded due looks (some result)) :
    Change site s (s.conclude site n call result) := by
  cases result with
  | none => exact .moved n call _ hcall (.elsewhere due looks none .fallback _ hstage (by decide))
  | some r =>
    cases r with
    | fallback reason => exact .moved n call _ hcall (.elsewhere due looks _ .fallback reason hstage (by decide))
    | platform reason => exact .moved n call _ hcall (.elsewhere due looks _ .platform reason hstage (by decide))
    | http4 status headers body stream length =>
      exact .recorded n call _ _ hcall (.page due looks status headers body stream length hstage)

theorem change_resume {n : ℕ} {call : Serve} (hcall : s.serves[n]? = some call)
    (h : s.resume site n call = some s') : Change site s s' := by
  unfold ServiceWorker.resume at h
  split at h
  next hstage =>
    obtain ⟨tab, htab, h⟩ := Option.bind_eq_some_iff.mp h
    obtain ⟨acked, hacked, h⟩ := Option.bind_eq_some_iff.mp h
    obtain rfl := Option.some.inj h
    exact .moved n call _ hcall (.waited tab acked hstage htab hacked)
  next due info hstage =>
    obtain rfl := Option.some.inj h
    exact .moved n call _ hcall (.chosen due info hstage)
  next due hstage =>
    obtain rfl := Option.some.inj h
    exact .gaveUp n call due hcall hstage
  next due looks result hstage =>
    obtain rfl := Option.some.inj h
    exact change_conclude hcall hstage
  · cases h

/-- **Every step is one of the changes listed.** -/
theorem step_change (h : s.step site e = some s') : Change site s s' := by
  cases e with
  | elapse d =>
    obtain rfl := Option.some.inj h
    exact .clock d
  | fetch clientId request =>
    obtain rfl := Option.some.inj h
    unfold ServiceWorker.fetch
    split
    · exact .same
    next skip hskip => exact .leftAlone request clientId skip hskip
    next hnone => exact .begun request clientId hnone
  | found n alive =>
    obtain ⟨call, hcall, h⟩ := Option.bind_eq_some_iff.mp h
    split_ifs at h with hstage
    obtain rfl := Option.some.inj h
    exact change_found hcall hstage
  | helloReply clientId r =>
    obtain ⟨tab, htab, h⟩ := Option.bind_eq_some_iff.mp h
    split_ifs at h with hinfo
    obtain rfl := Option.some.inj h
    cases r with
    | connecting => exact .acked clientId tab true htab
    | ready info => exact .readied clientId tab info htab hinfo
  | ackTimeout clientId =>
    obtain ⟨tab, htab, h⟩ := Option.bind_eq_some_iff.mp h
    split_ifs at h
    obtain rfl := Option.some.inj h
    exact .acked clientId tab false htab
  | sleepOver n =>
    obtain ⟨call, hcall, h⟩ := Option.bind_eq_some_iff.mp h
    split at h
    next due hstage =>
      split_ifs at h with hdue
      obtain rfl := Option.some.inj h
      exact .moved n call _ hcall (.slept due hstage hdue)
    · cases h
  | reply n r =>
    obtain ⟨call, hcall, h⟩ := Option.bind_eq_some_iff.mp h
    split at h
    next due looks hstage =>
      obtain rfl := Option.some.inj h
      exact .moved n call _ hcall (.replied due looks r hstage)
    · cases h
  | watchdog n =>
    obtain ⟨call, hcall, h⟩ := Option.bind_eq_some_iff.mp h
    split at h
    next due looks hstage =>
      split_ifs at h with hdue
      obtain rfl := Option.some.inj h
      exact .moved n call _ hcall (.looked due looks hstage hdue)
    · cases h
  | watchdogFound n alive =>
    obtain ⟨call, hcall, h⟩ := Option.bind_eq_some_iff.mp h
    split at h
    next due looks result hstage =>
      obtain rfl := Option.some.inj h
      refine .moved n call _ hcall (.watched due looks result _ hstage ?_)
      split_ifs
      · exact .inl rfl
      · exact .inr rfl
    · cases h
  | resume n =>
    obtain ⟨call, hcall, h⟩ := Option.bind_eq_some_iff.mp h
    exact change_resume hcall h
  | network n r =>
    obtain ⟨call, hcall, h⟩ := Option.bind_eq_some_iff.mp h
    split at h
    next transport reason hstage =>
      obtain rfl := Option.some.inj h
      cases r with
      | none => exact .moved n call _ hcall (.failed transport reason hstage)
      | some r => exact .recorded n call _ _ hcall (.network transport reason r hstage)
    · cases h
  | mirror i found =>
    obtain ⟨r, hr, h⟩ := Option.bind_eq_some_iff.mp h
    obtain rfl := Option.some.inj h
    exact .mirrored i r found hr

end Change

/-! ## What was recorded -/

/-- The entries recorded for a call. -/
def ServiceWorker.recordsOf (s : ServiceWorker) (n : ℕ) : List SwRequestReport :=
  (s.records.filter fun e => decide (e.1 = some n)).map Prod.snd

/-- The tab of a call has answered that its session serves the request's path. -/
def Serve.Admitted (site : Site) (s : ServiceWorker) (call : Serve) : Prop :=
  ∃ tab info, s.tabs.get? call.clientId = some tab ∧ tab.info = some info ∧ info.available = true ∧
    ∀ under, info.assetPrefix = some under →
      ∃ url, site.parseUrl call.request.url = some url ∧ under <+: url.pathname

/-- What holds of a call and the entries recorded for it, wherever it stands. -/
def Serve.Accounted (site : Site) (s : ServiceWorker) (call : Serve) (entries : List SwRequestReport) : Prop :=
  match call.stage with
  | .lookup => entries = []
  | .acked => entries = [] ∧ ∃ tab, s.tabs.get? call.clientId = some tab
  | .ready _ won => entries = [] ∧ ∃ tab, s.tabs.get? call.clientId = some tab ∧
      ∀ info, won = some (some info) → tab.info = some info
  | .forwarded _ _ _ => entries = [] ∧ call.Admitted site s
  | .network transport _ => entries = [] ∧ transport ≠ .http4
  | .answered transport reason (.network r) => transport ≠ .http4 ∧ reason.isSome ∧
      ∃ at', call.t0 ≤ at' ∧ at' ≤ s.now ∧ entries = [call.report at' transport reason r.status r.contentLength]
  | .answered transport reason (.page status _ body stream) =>
      transport = .http4 ∧ reason = none ∧ call.Admitted site s ∧
      ∃ at' length, call.t0 ≤ at' ∧ at' ≤ s.now ∧
        entries = [call.report at' .http4 none status (replyBytes body stream length)]
  | .rejected none => entries = []
  | .rejected (some reply) => site.constructs reply = false ∧ call.Admitted site s ∧
      ∃ entry, entries = [entry] ∧ entry.transport = .http4

/-- What holds of the calls. -/
structure Calls (site : Site) (s : ServiceWorker) : Prop where
  eligible : ∀ (n : ℕ) (call : Serve), s.serves[n]? = some call → leaveToNetwork site call.request call.clientId = some none
  begun : ∀ (n : ℕ) (call : Serve), s.serves[n]? = some call → call.t0 ≤ s.now
  accounted : ∀ (n : ℕ) (call : Serve), s.serves[n]? = some call → call.Accounted site s (s.recordsOf n)
  known : ∀ (n : ℕ) (r : SwRequestReport), (some n, r) ∈ s.records → n < s.serves.length

/-- What holds of the tabs: each was greeted once. -/
structure Tabs (s : ServiceWorker) : Prop where
  nodup : s.hellos.Nodup
  greeted : ∀ id, id ∈ s.hellos ↔ (s.tabs.get? id).isSome

/-- What holds of the log. -/
structure Log (site : Site) (s : ServiceWorker) : Prop where
  newest : s.log = (s.records.map Prod.snd).rtake reportLimit
  leftAlone : ∀ r, (none, r) ∈ s.records → ∃ request skip,
    leaveToNetwork site request r.clientId = some (some skip) ∧
      r = { url := request.url, method := request.method, destination := request.destination,
            transport := .platform, reason := some skip, status := 0, ms := 0, bytes := none, clientId := r.clientId }
  mirrored : ((s.posted.map Prod.snd) ++ s.mirrors).Subperm (s.records.map Prod.snd)
  owner : ∀ e ∈ s.posted, e.1 = e.2.clientId

/-- What is known of the tabs stays known, and time goes on. -/
structure Grows (s s' : ServiceWorker) : Prop where
  now : s.now ≤ s'.now
  tabs : ∀ id tab, s.tabs.get? id = some tab →
    ∃ tab', s'.tabs.get? id = some tab' ∧ ∀ info, tab.info = some info → tab'.info = some info

section Accounted

variable {site : Site} {s s' : ServiceWorker} {call : Serve} {n : ℕ}

theorem Grows.refl (s : ServiceWorker) : Grows s s := ⟨le_refl _, fun _ tab htab => ⟨tab, htab, fun _ h => h⟩⟩

/-- Setting a tab to one that knows as much. -/
theorem grows_set {clientId : JsString} {tab : Tab} (hnow : s'.now = s.now)
    (htabs : s'.tabs = s.tabs.set clientId tab)
    (h : ∀ tab₀, s.tabs.get? clientId = some tab₀ → ∀ info, tab₀.info = some info → tab.info = some info) :
    Grows s s' := by
  refine ⟨hnow.ge, fun id tab₀ htab => ?_⟩
  rw [htabs, OrderedMap.get?_set]
  split_ifs with hid
  · subst hid
    exact ⟨tab, rfl, h tab₀ htab⟩
  · exact ⟨tab₀, htab, fun _ h => h⟩

theorem Serve.Admitted.mono (h : call.Admitted site s) (hgrows : Grows s s') : call.Admitted site s' := by
  obtain ⟨tab, info, htab, hinfo, hrest⟩ := h
  obtain ⟨tab', htab', hkeep⟩ := hgrows.tabs _ tab htab
  exact ⟨tab', info, htab', hkeep info hinfo, hrest⟩

theorem Serve.Accounted.mono {entries : List SwRequestReport} (h : call.Accounted site s entries)
    (hgrows : Grows s s') : call.Accounted site s' entries := by
  unfold Serve.Accounted at h ⊢
  have hnow := hgrows.now
  cases hstage : call.stage with
  | lookup | network => rw [hstage] at h; exact h
  | acked =>
    rw [hstage] at h
    obtain ⟨hnone, tab, htab⟩ := h
    obtain ⟨tab', htab', -⟩ := hgrows.tabs _ tab htab
    exact ⟨hnone, tab', htab'⟩
  | ready due won =>
    rw [hstage] at h
    obtain ⟨hnone, tab, htab, hwon⟩ := h
    obtain ⟨tab', htab', hkeep⟩ := hgrows.tabs _ tab htab
    exact ⟨hnone, tab', htab', fun info hinfo => hkeep info (hwon info hinfo)⟩
  | forwarded =>
    rw [hstage] at h
    exact ⟨h.1, h.2.mono hgrows⟩
  | answered transport reason response =>
    rw [hstage] at h
    cases response with
    | network r =>
      obtain ⟨hnot, hreason, at', hle, hle', heq⟩ := h
      exact ⟨hnot, hreason, at', hle, hle'.trans hnow, heq⟩
    | page =>
      obtain ⟨hhttp4, hreason, hadmitted, at', length, hle, hle', heq⟩ := h
      exact ⟨hhttp4, hreason, hadmitted.mono hgrows, at', length, hle, hle'.trans hnow, heq⟩
  | rejected reply =>
    rw [hstage] at h
    cases reply with
    | none => exact h
    | some reply => exact ⟨h.1, h.2.1.mono hgrows, h.2.2⟩

theorem recordsOf_record_self (s : ServiceWorker) (n : ℕ) (r : SwRequestReport) :
    (s.record (some n) r).recordsOf n = s.recordsOf n ++ [r] := by
  simp [ServiceWorker.record, ServiceWorker.recordsOf, List.filter_append]

theorem recordsOf_record_of_ne (s : ServiceWorker) {n : ℕ} {m : Option ℕ} (h : m ≠ some n) (r : SwRequestReport) :
    (s.record m r).recordsOf n = s.recordsOf n := by
  simp [ServiceWorker.record, ServiceWorker.recordsOf, List.filter_append, h]

theorem getElem?_enter (s : ServiceWorker) (n m : ℕ) (stage : Stage) :
    (s.enter n stage).serves[m]? =
      if n = m then s.serves[m]?.map fun call => { call with stage := stage } else s.serves[m]? := by
  show (s.serves.modify n _)[m]? = _
  rw [List.getElem?_modify]
  split_ifs
  · rfl
  · exact id_map' _

/-- What a call needs of the state, wherever it goes: its stage may change, the others
    keep theirs. -/
theorem Calls.enter {t : ServiceWorker} {stage : Stage} (h : Calls site s) (hcall : s.serves[n]? = some call)
    (hgrows : Grows s t) (hserves : t.serves = s.serves) (hrest : ∀ m, m ≠ n → t.recordsOf m = s.recordsOf m)
    (hknown : ∀ m r, (some m, r) ∈ t.records → m < s.serves.length)
    (hself : ({ call with stage := stage } : Serve).Accounted site t (t.recordsOf n)) :
    Calls site (t.enter n stage) := by
  have hold {m : ℕ} {call' : Serve} (h' : (t.enter n stage).serves[m]? = some call') :
      (n = m ∧ call' = { call with stage := stage }) ∨ n ≠ m ∧ s.serves[m]? = some call' := by
    rw [getElem?_enter, hserves] at h'
    split_ifs at h' with hm
    · subst hm
      rw [hcall] at h'
      exact .inl ⟨rfl, (Option.some.inj h').symm⟩
    · exact .inr ⟨hm, h'⟩
  refine ⟨fun m call' h' => ?_, fun m call' h' => ?_, fun m call' h' => ?_, fun m r hr => ?_⟩
  · rcases hold h' with ⟨rfl, rfl⟩ | ⟨-, h'⟩
    · exact h.eligible n call hcall
    · exact h.eligible m call' h'
  · rcases hold h' with ⟨rfl, rfl⟩ | ⟨-, h'⟩
    · exact (h.begun n call hcall).trans hgrows.now
    · exact (h.begun m call' h').trans hgrows.now
  · rcases hold h' with ⟨rfl, rfl⟩ | ⟨hm, h'⟩
    · exact hself
    · show call'.Accounted site t (t.recordsOf m)
      rw [hrest m hm.symm]
      exact (h.accounted m call' h').mono hgrows
  · show m < (t.serves.modify n _).length
    rw [List.length_modify, hserves]
    exact hknown m r hr

/-- The tabs and the clock change, the calls do not. -/
theorem Calls.grows (h : Calls site s) (hgrows : Grows s s') (hserves : s'.serves = s.serves)
    (hrecords : ∀ m, s'.recordsOf m = s.recordsOf m) (hknown : ∀ m r, (some m, r) ∈ s'.records → (some m, r) ∈ s.records) :
    Calls site s' := by
  refine ⟨fun n call h' => ?_, fun n call h' => ?_, fun n call h' => ?_, fun n r hr => ?_⟩
  · exact h.eligible n call (hserves ▸ h')
  · exact (h.begun n call (hserves ▸ h')).trans hgrows.now
  · rw [hrecords]
    exact (h.accounted n call (hserves ▸ h')).mono hgrows
  · rw [hserves]
    exact h.known n r (hknown n r hr)

/-! ## Every change -/

theorem grows_of_eq (hnow : s'.now = s.now) (htabs : s'.tabs = s.tabs) : Grows s s' :=
  ⟨hnow.ge, fun id tab htab => ⟨tab, by rw [htabs]; exact htab, fun _ h => h⟩⟩

/-- Where a call of a tab with a session goes on to. -/
theorem accounted_choose {tab : Tab} {info : Ready} (htab : s.tabs.get? call.clientId = some tab)
    (hinfo : tab.info = some info) :
    ({ call with stage := call.choose site s.now info } : Serve).Accounted site s [] := by
  have hnetwork (transport : Transport) (reason : JsString) (hnot : transport ≠ .http4) :
      ({ call with stage := .network transport reason } : Serve).Accounted site s [] := by
    show [] = [] ∧ transport ≠ .http4
    exact ⟨rfl, hnot⟩
  unfold Serve.choose
  split_ifs with havailable
  · split
    next hunder =>
      show [] = [] ∧ call.Admitted site s
      exact ⟨rfl, tab, info, htab, hinfo, havailable, fun under h => by rw [hunder] at h; cases h⟩
    next under hunder =>
      split
      next => rfl
      next url hurl =>
        split_ifs with hpath
        · show [] = [] ∧ call.Admitted site s
          refine ⟨rfl, tab, info, htab, hinfo, havailable, fun under' h => ⟨url, hurl, ?_⟩⟩
          rw [hunder] at h
          exact Option.some.inj h ▸ hpath
        · exact hnetwork .platform _ (by decide)
  · exact hnetwork .fallback _ (by decide)

theorem Move.accounted {stage : Stage} {entries : List SwRequestReport} (hmove : Move site s call stage)
    (h : call.Accounted site s entries) : ({ call with stage := stage } : Serve).Accounted site s entries := by
  unfold Serve.Accounted at h
  cases hmove with
  | lost hstage =>
    rw [hstage] at h
    show entries = [] ∧ Transport.fallback ≠ .http4
    exact ⟨h, by decide⟩
  | greeted tab hstage htab =>
    rw [hstage] at h
    obtain rfl := h
    unfold Serve.greet
    split
    next info hinfo => exact accounted_choose htab hinfo
    next =>
      show [] = [] ∧ ∃ tab, s.tabs.get? call.clientId = some tab
      exact ⟨rfl, tab, htab⟩
  | waited tab acked hstage htab hacked =>
    rw [hstage] at h
    obtain ⟨rfl, -⟩ := h
    unfold Serve.wait
    split_ifs
    · show [] = [] ∧ Transport.fallback ≠ .http4
      exact ⟨rfl, by decide⟩
    · show [] = [] ∧ ∃ tab', s.tabs.get? call.clientId = some tab' ∧
        ∀ info, tab.info.map some = some (some info) → tab'.info = some info
      refine ⟨rfl, tab, htab, fun info hinfo => ?_⟩
      obtain ⟨info', hinfo', heq⟩ := Option.map_eq_some_iff.mp hinfo
      rw [hinfo', Option.some.inj heq]
    · show [] = [] ∧ Transport.fallback ≠ .http4
      exact ⟨rfl, by decide⟩
  | slept due hstage hdue =>
    rw [hstage] at h
    obtain ⟨rfl, tab, htab, -⟩ := h
    show [] = [] ∧ ∃ tab, s.tabs.get? call.clientId = some tab ∧
      ∀ info, some none = some (some info) → tab.info = some info
    exact ⟨rfl, tab, htab, fun info hinfo => by cases hinfo⟩
  | chosen due info hstage =>
    rw [hstage] at h
    obtain ⟨rfl, tab, htab, hwon⟩ := h
    exact accounted_choose htab (hwon info rfl)
  | replied _ _ _ hstage | looked _ _ hstage | watched _ _ _ _ hstage =>
    rw [hstage] at h
    exact h
  | elsewhere due looks result transport reason hstage hnot =>
    rw [hstage] at h
    show entries = [] ∧ transport ≠ .http4
    exact ⟨h.1, hnot⟩
  | failed transport reason hstage =>
    rw [hstage] at h
    exact h.1

theorem Ends.accounted {r : SwRequestReport} {stage : Stage} {t : ServiceWorker} (hends : Ends site s call r stage)
    (hbegun : call.t0 ≤ s.now) (h : call.Accounted site s (s.recordsOf n)) (hgrows : Grows s t)
    (hnow : t.now = s.now) :
    ({ call with stage := stage } : Serve).Accounted site t (s.recordsOf n ++ [r]) := by
  unfold Serve.Accounted at h
  cases hends with
  | network transport reason r hstage =>
    rw [hstage] at h
    rw [h.1, List.nil_append]
    show transport ≠ .http4 ∧ (some reason).isSome ∧ ∃ at', call.t0 ≤ at' ∧ at' ≤ t.now ∧
      [call.report s.now transport (some reason) r.status r.contentLength] =
        [call.report at' transport (some reason) r.status r.contentLength]
    exact ⟨h.2, rfl, s.now, hbegun, hnow.ge, rfl⟩
  | page due looks status headers body stream length hstage =>
    rw [hstage] at h
    obtain ⟨hnone, hadmitted⟩ := h
    rw [hnone, List.nil_append]
    have hpage (body' : Option Bytes) (hbytes : replyBytes body stream length = replyBytes body' stream length) :
        ({ call with stage := .answered .http4 none (.page status headers body' stream) } : Serve).Accounted site t
          [call.report s.now .http4 none status (replyBytes body stream length)] := by
      show Transport.http4 = .http4 ∧ (none : Option JsString) = none ∧ call.Admitted site t ∧
        ∃ at' length', call.t0 ≤ at' ∧ at' ≤ t.now ∧
          [call.report s.now .http4 none status (replyBytes body stream length)] =
            [call.report at' .http4 none status (replyBytes body' stream length')]
      exact ⟨rfl, rfl, hadmitted.mono hgrows, s.now, length, hbegun, hnow.ge, by rw [hbytes]⟩
    by_cases hok : site.constructs (.http4 status headers body stream length)
    · rw [if_pos hok]
      cases stream with
      | true => exact hpage none rfl
      | false => exact hpage body rfl
    · rw [if_neg hok]
      refine ⟨by simpa using hok, hadmitted.mono hgrows, _, rfl, rfl⟩

/-- A call after its tab has become ready: only a race has changed. -/
theorem getElem?_readied {clientId : JsString} {tab : Tab} {info : Ready} {call' : Serve}
    (h : (s.helloReply clientId tab (.ready info)).serves[n]? = some call') :
    s.serves[n]? = some call' ∨ ∃ call due, s.serves[n]? = some call ∧ call.stage = .ready due none ∧
      call.clientId = clientId ∧ call' = { call with stage := .ready due (some (some info)) } := by
  unfold ServiceWorker.helloReply at h
  rw [List.getElem?_map] at h
  obtain ⟨call, hcall, h⟩ := Option.map_eq_some_iff.mp h
  split at h
  next due hstage =>
    split_ifs at h with hid
    · exact .inr ⟨call, due, hcall, hstage, hid, h.symm⟩
    · exact .inl (h ▸ hcall)
  · exact .inl (h ▸ hcall)

theorem Calls.readied {clientId : JsString} {tab : Tab} {info : Ready} (h : Calls site s)
    (htab : s.tabs.get? clientId = some tab) (hinfo : tab.info = none) :
    Calls site (s.helloReply clientId tab (.ready info)) := by
  have hgrows : Grows s (s.helloReply clientId tab (.ready info)) := by
    refine grows_set rfl rfl fun tab₀ htab₀ info₀ h₀ => ?_
    obtain rfl := Option.some.inj (htab.symm.trans htab₀)
    rw [hinfo] at h₀
    cases h₀
  have hknows : (s.helloReply clientId tab (.ready info)).tabs.get? clientId =
      some { tab with acked := tab.acked.or (some true), info := some info } := by
    show (s.tabs.set clientId _).get? clientId = _
    rw [OrderedMap.get?_set, if_pos rfl]
  refine ⟨fun n call' h' => ?_, fun n call' h' => ?_, fun n call' h' => ?_, fun n r hr => ?_⟩
  · rcases getElem?_readied h' with h' | ⟨call, due, hcall, hstage, hid, rfl⟩
    · exact h.eligible n call' h'
    · exact h.eligible n call hcall
  · rcases getElem?_readied h' with h' | ⟨call, due, hcall, hstage, hid, rfl⟩
    · exact h.begun n call' h'
    · exact h.begun n call hcall
  · show call'.Accounted site _ (s.recordsOf n)
    rcases getElem?_readied h' with h' | ⟨call, due, hcall, hstage, hid, rfl⟩
    · exact (h.accounted n call' h').mono hgrows
    · have hold := h.accounted n call hcall
      unfold Serve.Accounted at hold
      rw [hstage] at hold
      rw [hold.1]
      show [] = [] ∧ ∃ tab', (s.helloReply clientId tab (.ready info)).tabs.get? call.clientId = some tab' ∧
        ∀ info', some (some info) = some (some info') → tab'.info = some info'
      rw [hid]
      refine ⟨rfl, _, hknows, fun info' heq => ?_⟩
      obtain rfl := Option.some.inj (Option.some.inj heq)
      rfl
  · show n < (s.serves.map _).length
    rw [List.length_map]
    exact h.known n r hr

theorem Calls.change (h : Calls site s) (hchange : Change site s s') : Calls site s' := by
  have hrecord {n m : ℕ} {r r' : SwRequestReport} (hmem : (some m, r') ∈ (s.record (some n) r).records)
      (hn : n < s.serves.length) : m < s.serves.length := by
    rcases List.mem_append.mp hmem with hmem | hmem
    · exact h.known m r' hmem
    · obtain ⟨heq, -⟩ := Prod.mk.inj (List.mem_singleton.mp hmem)
      exact Option.some.inj heq ▸ hn
  cases hchange with
  | same => exact h
  | clock d =>
    refine h.grows ⟨?_, fun id tab htab => ⟨tab, htab, fun _ h => h⟩⟩ rfl (fun _ => rfl) fun _ _ h => h
    show s.now ≤ s.now + d
    exact le_add_of_nonneg_right d.2
  | leftAlone request clientId skip hskip =>
    refine h.grows (grows_of_eq rfl rfl) rfl (fun m => recordsOf_record_of_ne s (by simp) _) fun m r hr => ?_
    rcases List.mem_append.mp hr with hr | hr
    · exact hr
    · cases (Prod.mk.inj (List.mem_singleton.mp hr)).1
  | begun request clientId hnone =>
    have hnew {n : ℕ} {call' : Serve}
        (h' : (s.serves ++ [{ clientId := clientId, request := request, t0 := s.now, stage := .lookup }])[n]? =
          some call') : s.serves[n]? = some call' ∨ n = s.serves.length ∧
            call' = { clientId := clientId, request := request, t0 := s.now, stage := .lookup } := by
      rcases Nat.lt_or_ge n s.serves.length with hlt | hge
      · rw [List.getElem?_append_left hlt] at h'
        exact .inl h'
      · rw [List.getElem?_append_right hge, List.getElem?_singleton] at h'
        split_ifs at h' with hzero
        exact .inr ⟨by omega, (Option.some.inj h').symm⟩
    refine ⟨fun n call' h' => ?_, fun n call' h' => ?_, fun n call' h' => ?_, fun n r hr => ?_⟩
    · rcases hnew h' with h' | ⟨-, rfl⟩
      · exact h.eligible n call' h'
      · exact hnone
    · rcases hnew h' with h' | ⟨-, rfl⟩
      · exact h.begun n call' h'
      · exact le_refl _
    · rcases hnew h' with h' | ⟨rfl, rfl⟩
      · exact (h.accounted n call' h').mono (grows_of_eq rfl rfl)
      · show s.recordsOf s.serves.length = []
        unfold ServiceWorker.recordsOf
        rw [List.map_eq_nil_iff, List.filter_eq_nil_iff]
        intro e he heq
        have hlt := h.known s.serves.length e.2 (by rw [← of_decide_eq_true heq]; exact he)
        omega
    · show n < (s.serves ++ [_]).length
      rw [List.length_append]
      exact Nat.lt_add_right _ (h.known n r hr)
  | moved n call stage hcall hmove =>
    exact h.enter hcall (.refl s) rfl (fun _ _ => rfl) h.known (hmove.accounted (h.accounted n call hcall))
  | introduced n call hcall hstage hnone =>
    have hgrows : Grows s (s.hello call.clientId) := by
      refine grows_set rfl rfl fun tab₀ htab₀ => ?_
      rw [hnone] at htab₀
      cases htab₀
    refine h.enter hcall hgrows rfl (fun _ _ => rfl) h.known ?_
    have hold := h.accounted n call hcall
    unfold Serve.Accounted at hold
    rw [hstage] at hold
    show s.recordsOf n = [] ∧ ∃ tab, (s.tabs.set call.clientId _).get? call.clientId = some tab
    rw [OrderedMap.get?_set, if_pos rfl]
    exact ⟨hold, _, rfl⟩
  | acked clientId tab acked htab =>
    refine h.grows (grows_set rfl rfl fun tab₀ htab₀ info h₀ => ?_) rfl (fun _ => rfl) fun _ _ h => h
    obtain rfl := Option.some.inj (htab.symm.trans htab₀)
    exact h₀
  | readied clientId tab info htab hinfo => exact h.readied htab hinfo
  | gaveUp n call due hcall hstage =>
    refine h.enter hcall (t := { s with tabs := s.tabs.modify call.clientId fun tab => { tab with gaveUp := true } })
      ⟨le_refl _, fun id tab htab => ?_⟩ rfl (fun _ _ => rfl) h.known ?_
    · show ∃ tab', (s.tabs.modify call.clientId _).get? id = some tab' ∧ _
      rw [OrderedMap.get?_modify, htab]
      split_ifs
      · exact ⟨_, rfl, fun _ h => h⟩
      · exact ⟨_, rfl, fun _ h => h⟩
    · have hold := h.accounted n call hcall
      unfold Serve.Accounted at hold
      rw [hstage] at hold
      show s.recordsOf n = [] ∧ Transport.fallback ≠ .http4
      exact ⟨hold.1, by decide⟩
  | recorded n call r stage hcall hends =>
    have hn : n < s.serves.length := (List.getElem?_eq_some_iff.mp hcall).1
    refine h.enter hcall (grows_of_eq rfl rfl) rfl (fun m hm => recordsOf_record_of_ne s ?_ r)
      (fun m r' hr => hrecord hr hn) ?_
    · exact fun heq => hm (Option.some.inj heq).symm
    · rw [recordsOf_record_self]
      exact hends.accounted (h.begun n call hcall) (h.accounted n call hcall) (grows_of_eq rfl rfl) rfl
  | mirrored i r found hr => exact h.grows (grows_of_eq rfl rfl) rfl (fun _ => rfl) fun _ _ h => h

/-! ## The tabs and the log -/

theorem Tabs.change (h : Tabs s) (hchange : Change site s s') : Tabs s' := by
  have hset {clientId : JsString} {tab tab' : Tab} (htab : s.tabs.get? clientId = some tab) (id : JsString) :
      id ∈ s.hellos ↔ ((s.tabs.set clientId tab').get? id).isSome := by
    rw [h.greeted, OrderedMap.get?_set]
    split_ifs with hid
    · rw [hid, htab]
      exact iff_of_true rfl rfl
    · exact Iff.rfl
  cases hchange with
  | same | clock | leftAlone | begun | moved | recorded | mirrored => exact ⟨h.nodup, h.greeted⟩
  | introduced n call hcall hstage hnone =>
    have hnot : call.clientId ∉ s.hellos := by
      rw [h.greeted, hnone]
      exact Bool.false_ne_true
    refine ⟨List.nodup_append.mpr ⟨h.nodup, List.nodup_singleton _, fun a ha b hb heq => ?_⟩, fun id => ?_⟩
    · rw [List.mem_singleton] at hb
      exact hnot (hb ▸ heq ▸ ha)
    · show id ∈ s.hellos ++ [call.clientId] ↔ ((s.tabs.set call.clientId _).get? id).isSome
      rw [List.mem_append, List.mem_singleton, h.greeted, OrderedMap.get?_set]
      split_ifs with hid
      · exact iff_of_true (.inr hid) rfl
      · exact or_iff_left hid
  | acked clientId tab acked htab => exact ⟨h.nodup, hset htab⟩
  | readied clientId tab info htab hinfo => exact ⟨h.nodup, hset htab⟩
  | gaveUp n call due hcall hstage =>
    refine ⟨h.nodup, fun id => ?_⟩
    show id ∈ s.hellos ↔ ((s.tabs.modify call.clientId _).get? id).isSome
    rw [h.greeted, OrderedMap.get?_modify]
    split_ifs
    · rw [Option.isSome_map]
    · exact Iff.rfl

/-- The newest entries, after one more. -/
theorem rtake_concat {α : Type*} {k : ℕ} (hk : 0 < k) (l : List α) (a : α) :
    (if (l.rtake k ++ [a]).length > k then (l.rtake k ++ [a]).tail else l.rtake k ++ [a]) = (l ++ [a]).rtake k := by
  unfold List.rtake
  rw [List.length_append, List.length_drop, List.length_singleton]
  split_ifs with hlong
  · rw [← List.drop_one, List.drop_append_of_le_length (by rw [List.length_drop]; omega), List.drop_drop,
      List.length_append, List.length_singleton, List.drop_append_of_le_length (by omega),
      show l.length - k + 1 = l.length + 1 - k by omega]
  · rw [List.length_append, List.length_singleton, show l.length - k = 0 by omega,
      show l.length + 1 - k = 0 by omega, List.drop_zero, List.drop_zero]

theorem Log.record {m : Option ℕ} {r : SwRequestReport} (h : Log site s)
    (hr : m = none → ∃ request skip, leaveToNetwork site request r.clientId = some (some skip) ∧
      r = { url := request.url, method := request.method, destination := request.destination,
            transport := .platform, reason := some skip, status := 0, ms := 0, bytes := none,
            clientId := r.clientId }) : Log site (s.record m r) := by
  refine ⟨?_, fun r' hr' => ?_, ?_, h.owner⟩
  · show (if (s.log ++ [r]).length > reportLimit then (s.log ++ [r]).tail else s.log ++ [r]) =
      ((s.records ++ [(m, r)]).map Prod.snd).rtake reportLimit
    rw [h.newest, rtake_concat (by decide), List.map_append]
    rfl
  · rcases List.mem_append.mp hr' with hr' | hr'
    · exact h.leftAlone r' hr'
    · obtain ⟨hm, rfl⟩ := Prod.mk.inj (List.mem_singleton.mp hr')
      exact hr hm.symm
  · show (s.posted.map Prod.snd ++ if r.clientId ≠ [] then s.mirrors ++ [r] else s.mirrors).Subperm
      ((s.records ++ [(m, r)]).map Prod.snd)
    rw [List.map_append]
    split_ifs
    · rw [← List.append_assoc]
      exact (List.subperm_append_right _).mpr h.mirrored
    · exact h.mirrored.trans (List.sublist_append_left _ _).subperm

theorem Log.change (h : Log site s) (hchange : Change site s s') : Log site s' := by
  cases hchange with
  | same | clock | begun | moved | introduced | acked | readied | gaveUp =>
    exact ⟨h.newest, h.leftAlone, h.mirrored, h.owner⟩
  | leftAlone request clientId skip hskip => exact h.record fun _ => ⟨request, skip, hskip, rfl⟩
  | recorded n call r stage hcall hends =>
    have hlog := h.record (m := some n) (r := r) fun heq => by cases heq
    exact ⟨hlog.newest, hlog.leftAlone, hlog.mirrored, hlog.owner⟩
  | mirrored i r found hr =>
    obtain ⟨hi, rfl⟩ := List.getElem?_eq_some_iff.mp hr
    have hperm := List.getElem_cons_eraseIdx_perm hi
    refine ⟨h.newest, h.leftAlone, ?_, ?_⟩
    · show ((if found then s.posted ++ [(_, s.mirrors[i])] else s.posted).map Prod.snd ++
        s.mirrors.eraseIdx i).Subperm (s.records.map Prod.snd)
      split_ifs
      · rw [List.map_append, List.append_assoc]
        exact ((hperm.append_left _).subperm).trans h.mirrored
      · exact ((List.Sublist.refl _).append (List.eraseIdx_sublist _ _)).subperm.trans h.mirrored
    · show ∀ e ∈ if found then s.posted ++ [(_, s.mirrors[i])] else s.posted, e.1 = e.2.clientId
      split_ifs
      · exact List.forall_mem_append.mpr ⟨h.owner, by simp⟩
      · exact h.owner

/-- The worker's invariant. -/
structure Inv (site : Site) (s : ServiceWorker) : Prop where
  calls : Calls site s
  tabs : Tabs s
  log : Log site s

theorem inv_init : Inv site .init where
  calls := by
    refine ⟨?_, ?_, ?_, ?_⟩ <;> simp [ServiceWorker.init]
  tabs := by
    refine ⟨List.nodup_nil, fun id => ?_⟩
    simp [ServiceWorker.init]
  log := by
    refine ⟨rfl, ?_, ?_, ?_⟩ <;> simp [ServiceWorker.init]

theorem Inv.step {e : Event} (h : Inv site s) (hstep : s.step site e = some s') : Inv site s' :=
  let hchange := step_change hstep
  ⟨h.calls.change hchange, h.tabs.change hchange, h.log.change hchange⟩

theorem inv_run {es : List Event} (hrun : Machine.run (ServiceWorker.step site) .init es = some s) : Inv site s :=
  Machine.run_invariant (P := Inv site) (fun _ _ _ h hstep => h.step hstep) inv_init hrun

/-- **Every intercepted request is served once**, in every run of the worker:

    * a request that a call of `serve` is for is one that the worker forwards, and the
      entries recorded for the call are none before it is answered, and exactly one once
      it is, which tells how: by the platform, with its reason and the response's status,
      or by the tab, whose session had said it serves the path;
    * an entry without a call is for a request that was left alone;
    * "hello" is posted once to each tab;
    * the log is the newest `REPORT_LIMIT` entries, and what tabs have been sent of it are
      entries for their own requests, each sent once. -/
theorem served_once (site : Site) (es : List Event) (s : ServiceWorker)
    (hrun : Machine.run (ServiceWorker.step site) .init es = some s) :
    (∀ (n : ℕ) (call : Serve), s.serves[n]? = some call →
      leaveToNetwork site call.request call.clientId = some none ∧ call.Accounted site s (s.recordsOf n)) ∧
    (∀ r, (none, r) ∈ s.records → r.transport = .platform ∧ r.status = 0 ∧
      ∃ request skip, leaveToNetwork site request r.clientId = some (some skip) ∧ r.url = request.url ∧
        r.reason = some skip) ∧
    (s.hellos.Nodup ∧ ∀ id, id ∈ s.hellos ↔ (s.tabs.get? id).isSome) ∧
    (s.log = (s.records.map Prod.snd).rtake reportLimit ∧
      ((s.posted.map Prod.snd) ++ s.mirrors).Subperm (s.records.map Prod.snd) ∧
      ∀ e ∈ s.posted, e.1 = e.2.clientId) := by
  have h := inv_run hrun
  refine ⟨fun n call hcall => ⟨h.calls.eligible n call hcall, h.calls.accounted n call hcall⟩, fun r hr => ?_,
    ⟨h.tabs.nodup, h.tabs.greeted⟩, h.log.newest, h.log.mirrored, h.log.owner⟩
  obtain ⟨request, skip, hskip, heq⟩ := h.log.leftAlone r hr
  rw [heq]
  exact ⟨rfl, rfl, request, skip, hskip, rfl, rfl⟩

end Accounted

/-! ## A small run -/

/-- A site whose URLs are paths. -/
def smallSite : Site :=
  { origin := jsLit "o", parseUrl := fun url => some { origin := jsLit "o", pathname := url },
    constructs := fun _ => true }

/-- An image of the tab "t". -/
def smallFetch : Event :=
  .fetch (jsLit "t")
    { url := jsLit "/a.png", method := jsLit "GET", mode := jsLit "no-cors", destination := jsLit "image",
      hasRange := false }

/-- The tab answers "hello", its session comes up, and it serves the request. -/
def smallServed : List Event :=
  [smallFetch, .found 0 true, .helloReply (jsLit "t") .connecting, .resume 0,
    .helloReply (jsLit "t") (.ready { available := true, reason := none, assetPrefix := some (jsLit "/") }),
    .resume 0, .reply 0 (.http4 200 [] (some [1, 2, 3]) false none), .resume 0, .mirror 0 true]

/-- The request is recorded once, and the tab has the entry. -/
theorem served_once_image : ∃ s, Machine.run (ServiceWorker.step smallSite) .init smallServed = some s ∧
    s.hellos = [jsLit "t"] ∧ ∃ r, s.recordsOf 0 = [r] ∧ r.transport = .http4 ∧ r.bytes = some 3 := by
  have hany : (Machine.run (ServiceWorker.step smallSite) .init smallServed).any fun s =>
      decide (s.hellos = [jsLit "t"]) && s.serves[0]?.any fun call : Serve =>
        decide (call.stage = .answered .http4 none (.page 200 [] (some [1, 2, 3]) false)) := by decide +kernel
  obtain ⟨s, hrun, hs⟩ := (Option.any_eq_true _ _).mp hany
  rw [Bool.and_eq_true] at hs
  obtain ⟨call, hcall, hstage⟩ := (Option.any_eq_true _ _).mp hs.2
  obtain ⟨-, haccounted⟩ := (served_once smallSite _ s hrun).1 0 call hcall
  unfold Serve.Accounted at haccounted
  rw [of_decide_eq_true hstage] at haccounted
  obtain ⟨-, -, -, at', length, -, -, heq⟩ := haccounted
  exact ⟨s, hrun, of_decide_eq_true hs.1, _, heq, rfl, rfl⟩

end Http4.Worker
