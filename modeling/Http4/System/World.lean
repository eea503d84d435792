import Http4.System.Crossing

/-!
# A client, a session and the network

One client with the session that serves it, over a network that loses, duplicates,
delays and reorders datagrams: whatever was sent may arrive at any time, any number of
times, or never, and nothing else arrives.

Main results:

* `client_reachable`, `exists_server_run`: in every run each end does what it does alone.
* `linked_reachable`: the session gets only what the client sent, and every reply can be
  sent by a session that got no more than this one had.
-/

namespace Http4.System

open Wire (Packet)
open Client
open Sender

/-! ## Runs -/

/-- A datagram the session has sent. -/
structure Reply where
  bytes : Bytes
  /-- The datagrams the session had got by then; no step reads them. -/
  after : List Bytes
  deriving DecidableEq

/-- The two ends, and what the session has sent. -/
structure World where
  client : Http4Client
  server : Sys
  replies : List Reply

/-- The steps of the two ends. -/
inductive WorldAct
  /-- What happens to the client, of which a datagram has to be a reply. -/
  | client (a : Http4Client.Step)
  /-- A datagram of the client reaches the session. -/
  | deliver (b : Bytes) (now : ℤ) (got : GetResult)
  /-- The session takes a step of its own. -/
  | server (a : Act)

/-- The steps a session takes by itself. -/
def Act.own : Act → Bool
  | .offer _ | .receive _ _ _ => false
  | .pick _ | .hold | .check | .handOver _ | .record | .evictIdle _ => true

namespace World

/-- The datagrams the client has sent. -/
def sent (w : World) : List Bytes := w.client.handed.filterMap Outgoing.encode

/-- Whether the network can bring about the event. -/
def brings (w : World) : Http4Client.Event → Bool
  | .datagram b _ => w.replies.any fun r => r.bytes = b
  | _ => true

/-- What the session sent between two states. -/
def repliesBetween (s s' : Sys) : List Reply :=
  (s'.handed.drop s.handed.length).filterMap fun h =>
    if h.lost then none
    else (Wire.Go.marshal h.packet).toOption.map fun b => { bytes := b, after := s'.offered }

/-- The client of a `connect` and the session that is opened for it. -/
def init (opts : ClientOptions) (maxDatagramSize : ℕ) (cfg : Config) : World :=
  { client := connect opts maxDatagramSize, server := Sys.init cfg, replies := [] }

/-- One step. -/
def step (cfg : Config) (w : World) : WorldAct → Option World
  | .client a =>
    if w.brings a.event then (w.client.step a).map fun c => { w with client := c } else none
  | .deliver b now got =>
    if b ∈ w.sent then
      ((Sys.step cfg w.server (.offer b)).bind fun s => Sys.step cfg s (.receive b now got)).map
        fun s => { w with server := s }
    else none
  | .server a =>
    if Act.own a then
      (Sys.step cfg w.server a).map fun s =>
        { w with server := s, replies := w.replies ++ repliesBetween w.server s }
    else none

/-! ## What each step does -/

/-- What a step changes. -/
inductive Effect (cfg : Config) (w : World) : WorldAct → World → Prop
  | client (a : Http4Client.Step) (c : Http4Client) (hstep : w.client.step a = some c)
      (hbrings : ∀ b alloc, a.event = .datagram b alloc → ∃ r ∈ w.replies, r.bytes = b) :
      Effect cfg w (.client a) { w with client := c }
  | deliver (b : Bytes) (now : ℤ) (got : GetResult) (s s' : Sys) (hb : b ∈ w.sent)
      (hoffer : Sys.step cfg w.server (.offer b) = some s)
      (hreceive : Sys.step cfg s (.receive b now got) = some s') :
      Effect cfg w (.deliver b now got) { w with server := s' }
  | server (a : Act) (s : Sys) (hown : Act.own a = true) (hstep : Sys.step cfg w.server a = some s) :
      Effect cfg w (.server a) { w with server := s, replies := w.replies ++ repliesBetween w.server s }

variable {cfg : Config} {opts : ClientOptions} {maxDatagramSize : ℕ} {w w' : World} {a : WorldAct}

/-- Every step has one of these effects. -/
theorem effect_of_step (h : step cfg w a = some w') : Effect cfg w a w' := by
  cases a with
  | client a =>
    rw [step] at h
    split_ifs at h with hbrings
    obtain ⟨c, hc, rfl⟩ := Option.map_eq_some_iff.mp h
    refine .client a c hc fun b alloc hevent => ?_
    rw [hevent, brings, List.any_eq_true] at hbrings
    obtain ⟨r, hr, heq⟩ := hbrings
    exact ⟨r, hr, of_decide_eq_true heq⟩
  | deliver b now got =>
    rw [step] at h
    split_ifs at h with hb
    obtain ⟨s', hs', rfl⟩ := Option.map_eq_some_iff.mp h
    obtain ⟨s, hs, hs'⟩ := Option.bind_eq_some_iff.mp hs'
    exact .deliver b now got s s' hb hs hs'
  | server a =>
    rw [step] at h
    split_ifs at h with hown
    obtain ⟨s, hs, rfl⟩ := Option.map_eq_some_iff.mp h
    exact .server a s hown hs

/-- The client does what it does alone. -/
theorem client_reachable (h : Machine.Reachable (step cfg) (init opts maxDatagramSize cfg) w) :
    Machine.Reachable Http4Client.step (connect opts maxDatagramSize) w.client := by
  obtain ⟨acts, hrun⟩ := h
  refine Machine.run_invariant
    (P := fun w : World => Machine.Reachable Http4Client.step (connect opts maxDatagramSize) w.client)
    (fun w a w' hw hstep => ?_) ⟨[], rfl⟩ hrun
  cases effect_of_step hstep with
  | client a c hc => exact hw.next hc
  | deliver | server => exact hw

end World

/-- `Assets.Get` returns only an asset that `A` allows for the asset ID. -/
def WorldAct.Serves (A : Bytes → Asset → Prop) : WorldAct → Prop
  | .deliver b now got => (Act.receive b now got).Serves A
  | .client _ | .server _ => True

namespace World

variable {cfg : Config} {opts : ClientOptions} {maxDatagramSize : ℕ} {w w' : World} {A : Bytes → Asset → Prop}

/-- The session does what it does alone. -/
theorem exists_server_run {acts : List WorldAct} (hserves : ∀ a ∈ acts, a.Serves A)
    (hrun : Machine.run (step cfg) (init opts maxDatagramSize cfg) acts = some w) :
    ∃ bs, Machine.run (Sys.step cfg) (Sys.init cfg) bs = some w.server ∧ ∀ b ∈ bs, b.Serves A := by
  refine Machine.run_while (P := fun w : World => ∃ bs, Machine.run (Sys.step cfg) (Sys.init cfg) bs = some w.server ∧
    ∀ b ∈ bs, b.Serves A) (fun w a w' ha ⟨bs, hbs, hall⟩ hstep => ?_) hserves ⟨[], rfl, by simp⟩ hrun
  cases effect_of_step hstep with
  | client => exact ⟨bs, hbs, hall⟩
  | deliver b now got s s' hb hoffer hreceive =>
    refine ⟨bs ++ [.offer b, .receive b now got], Machine.run_append_iff.mpr ⟨_, hbs, ?_⟩, ?_⟩
    · exact Machine.run_cons_iff.mpr ⟨s, hoffer, Machine.run_cons_iff.mpr ⟨s', hreceive, rfl⟩⟩
    · refine List.forall_mem_append.mpr ⟨hall, List.forall_mem_cons.mpr ⟨trivial, ?_⟩⟩
      exact List.forall_mem_singleton.mpr ha
  | server a s hown hs =>
    refine ⟨bs ++ [a], Machine.run_concat_iff.mpr ⟨_, hbs, hs⟩, List.forall_mem_append.mpr ⟨hall, ?_⟩⟩
    rw [List.forall_mem_singleton]
    cases a with
    | offer | receive => cases hown
    | pick | hold | check | handOver | record | evictIdle => trivial

theorem server_reachable (h : Machine.Reachable (step cfg) (init opts maxDatagramSize cfg) w) :
    Machine.Reachable (Sys.step cfg) (Sys.init cfg) w.server := by
  obtain ⟨acts, hrun⟩ := h
  obtain ⟨bs, hbs, -⟩ := exists_server_run (A := fun _ _ => True) (fun a _ => by
    cases a with
    | deliver b now got =>
      cases got with
      | found a => exact fun _ _ => trivial
      | notFound | failed => trivial
    | client | server => trivial) hrun
  exact ⟨bs, hbs⟩

/-! ## What the ends exchange -/

/-- The session gets only what the client has sent, and every reply can be sent by a
    session that got no more than this one had got by then. -/
structure Linked (cfg : Config) (w : World) : Prop where
  offered : ∀ d ∈ w.server.offered, d ∈ w.sent
  replies : ∀ r ∈ w.replies, CanReply cfg {d | d ∈ r.after} r.bytes ∧ ∀ d ∈ r.after, d ∈ w.sent

/-- A step of a session adds to what it handed over; only the client adds to what it
    can get. -/
theorem frame_step {s s' : Sys} {b : Act} (hs : Machine.Reachable (Sys.step cfg) (Sys.init cfg) s)
    (h : Sys.step cfg s b = some s') :
    (∃ more, s'.handed = s.handed ++ more) ∧ ((∀ d, b ≠ .offer d) → s'.offered = s.offered) := by
  cases (Sender.inv_reachable hs).effect h with
  | offer d => exact ⟨⟨[], (List.append_nil _).symm⟩, fun hd => absurd rfl (hd d)⟩
  | sent => exact ⟨⟨_, rfl⟩, fun _ => rfl⟩
  | malformed | packet | nothing | pick | hold | check | refused | ended | recordReply | record | evictIdle =>
    exact ⟨⟨[], (List.append_nil _).symm⟩, fun _ => rfl⟩

/-- What the client has sent stays so. -/
theorem sent_client {c : Http4Client} {a : Http4Client.Step}
    (hw : Machine.Reachable (step cfg) (init opts maxDatagramSize cfg) w) (h : w.client.step a = some c) :
    ∃ more, ({ w with client := c } : World).sent = w.sent ++ more := by
  have hc := client_reachable hw
  obtain ⟨l, heq, -⟩ := (Http4Client.grows_step hc h).stamped
  have hc' := hc.next h
  refine ⟨(l.map Prod.fst).filterMap Outgoing.encode, ?_⟩
  rw [sent, sent, ← List.filterMap_append, ← (Http4Client.timely_reachable hc).handed,
    ← (Http4Client.timely_reachable hc').handed, heq, List.map_append]

theorem Linked.step {a : WorldAct} (hw : Machine.Reachable (step cfg) (init opts maxDatagramSize cfg) w)
    (h : Linked cfg w) (hstep : World.step cfg w a = some w') : Linked cfg w' := by
  have hs := server_reachable hw
  cases effect_of_step hstep with
  | client a c hc =>
    obtain ⟨more, hmore⟩ := sent_client hw hc
    refine ⟨fun d hd => ?_, fun r hr => ⟨(h.replies r hr).1, fun d hd => ?_⟩⟩ <;> rw [hmore]
    · exact List.mem_append_left _ (h.offered d hd)
    · exact List.mem_append_left _ ((h.replies r hr).2 d hd)
  | deliver b now got s s' hb hoffer hreceive =>
    have hs' := hs.next hoffer
    obtain rfl := Option.some.inj hoffer
    refine ⟨?_, h.replies⟩
    rw [(frame_step hs' hreceive).2 (by simp)]
    exact List.forall_mem_append.mpr ⟨h.offered, List.forall_mem_singleton.mpr hb⟩
  | server a s hown hs' =>
    obtain ⟨⟨more, hmore⟩, hoffered⟩ := frame_step hs hs'
    have hsame : s.offered = w.server.offered := hoffered fun d hd => by rw [hd] at hown; cases hown
    refine ⟨by rw [hsame]; exact h.offered, List.forall_mem_append.mpr ⟨h.replies, fun r hr => ?_⟩⟩
    obtain ⟨g, hg, hr⟩ := List.mem_filterMap.mp hr
    split_ifs at hr
    obtain ⟨bytes, hbytes, rfl⟩ := Option.map_eq_some_iff.mp hr
    obtain ⟨bs, hbs⟩ := hs
    refine ⟨⟨bs ++ [a], s, Machine.run_concat_iff.mpr ⟨_, hbs, hs'⟩, fun d hd => hd, g, List.mem_of_mem_drop hg, ?_⟩, ?_⟩
    · cases hmarshal : Wire.Go.marshal g.packet with
      | error e => rw [hmarshal] at hbytes; cases hbytes
      | ok bytes' => rw [hmarshal] at hbytes; rw [Option.some.inj hbytes]
    · change ∀ d ∈ s.offered, d ∈ w.sent
      rw [hsame]
      exact h.offered

/-- **In every run** the ends are linked. -/
theorem linked_reachable (h : Machine.Reachable (step cfg) (init opts maxDatagramSize cfg) w) : Linked cfg w := by
  let P (w : World) : Prop := Machine.Reachable (step cfg) (init opts maxDatagramSize cfg) w ∧ Linked cfg w
  obtain ⟨acts, hrun⟩ := h
  refine (Machine.run_invariant (P := P) (fun w a w' ⟨hw, hlinked⟩ hstep => ⟨?_, hlinked.step hw hstep⟩)
    ⟨⟨[], rfl⟩, ?_⟩ hrun).2
  · exact hw.next hstep
  · exact ⟨by simp [init, Sys.init], by simp [init]⟩

end World

end Http4.System
