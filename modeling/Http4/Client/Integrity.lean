import Http4.Client.Readers

/-!
# What a transfer delivers

A client whose packets all come from the asset that it asked for. `Faithful` says what
then holds of a transfer: its reassembly holds bytes of that asset, its stream was given a
prefix of the body, and it was settled with the whole.

Main results:

* `Faithful.change`: every change of a transfer keeps it.
* `Intact.step`: a step on an honest packet keeps it of every transfer.
-/

namespace Http4.Client

open Wire.Ts (JsString)

/-! ## Assets as a client sees them -/

/-- The body of an asset and the fields of its META. -/
structure Content where
  body : Bytes
  headers : List (JsString × JsString)

/-- DATA cut from a body. -/
structure Slice (d : Wire.Ts.Data) (body : Bytes) : Prop where
  size : d.totalSize = body.length
  payload : d.payload = Bytes.sub body d.offset.toNat (d.offset.toNat + d.payload.length)

/-- The bytes received are those of the body. -/
def Contents.Of (w : Contents) (body : Bytes) : Prop := ∀ k b, w k = some b → body[k]? = some b

namespace Contents

theorem of_empty (body : Bytes) : Contents.empty.Of body := fun _ _ h => by cases h

/-- A slice of the body adds bytes of the body. -/
theorem Of.put {w : Contents} {body payload : Bytes} {offset : ℕ} (h : w.Of body)
    (hpayload : payload = Bytes.sub body offset (offset + payload.length)) : (w.put offset payload).Of body := by
  intro k b hk
  rw [Contents.put] at hk
  split_ifs at hk with hin
  · have hlt : offset + (k - offset) < offset + payload.length := by omega
    rw [hpayload, Bytes.getElem?_sub hlt] at hk
    rwa [show offset + (k - offset) = k by omega] at hk
  · exact h k b hk

end Contents

namespace Reassembly

variable {s : Reassembly} {w : Contents} {body : Bytes}

/-- In the gap-free prefix the buffer is the body. -/
theorem Represents.getElem?_eq (h : Represents s w) (hof : w.Of body) {k : ℕ} (hk : k < s.contiguous) :
    s.bytes[k]? = body[k]? := by
  have hmem : k ∈ w.dom := h.contiguous.1 hk
  obtain ⟨b, hb⟩ := Option.ne_none_iff_exists'.mp hmem
  rw [h.bytes k b hb, hof k b hb]

/-- What is cut from the gap-free prefix is cut from the body. -/
theorem Represents.sub_eq (h : Represents s w) (hof : w.Of body) (i : ℕ) :
    Bytes.sub s.bytes i s.contiguous = Bytes.sub body i s.contiguous := by
  apply List.ext_getElem?
  intro k
  by_cases hk : i + k < s.contiguous
  · rw [Bytes.getElem?_sub hk, Bytes.getElem?_sub hk, h.getElem?_eq hof hk]
  · unfold Bytes.sub
    rw [List.getElem?_take_eq_none (by omega), List.getElem?_take_eq_none (by omega)]

/-- A complete reassembly has no gap. -/
theorem Represents.size_le_contiguous (h : Represents s w) (hcomplete : s.complete = true) :
    s.size ≤ s.contiguous := by
  apply h.contiguous.2
  show Set.Iio s.size ⊆ w.dom
  rw [h.complete_iff.mp hcomplete]

/-- A complete reassembly is the body. -/
theorem Represents.bytes_eq (h : Represents s w) (hof : w.Of body) (hsize : s.size = body.length)
    (hcomplete : s.complete = true) : s.bytes = body := by
  have hall := h.size_le_contiguous hcomplete
  apply List.ext_getElem?
  intro k
  rcases lt_or_ge k s.size with hk | hk
  · exact h.getElem?_eq hof (hk.trans_le hall)
  · rw [List.getElem?_eq_none (by rw [h.length_bytes]; exact hk), List.getElem?_eq_none (by omega)]

end Reassembly

/-! ## One transfer -/

/-- What a stream was given, of an asset with this content. -/
structure StreamState.Gives (st : StreamState) (x : Content) : Prop where
  isPrefix : st.chunks.flatten <+: x.body
  takes : st.body.canEnqueue = true → st.chunks.flatten = x.body.take st.emitted
  whole : st.body.closeRequested = true → st.chunks.flatten = x.body

/-- A stream that nothing was done with. -/
def StreamState.Fresh (st : StreamState) : Prop :=
  st.chunks = [] ∧ st.body.closeRequested = false ∧ (st.body.canEnqueue = true → st.emitted = 0)

/-- A promise is resolved with the content. -/
def Settlement.Gives (X : Set Content) : Settlement → Prop
  | .response body headers => ∃ x ∈ X, body = x.body ∧ headers = x.headers
  | .stream size headers => ∃ x ∈ X, size = x.body.length ∧ headers = x.headers
  | .rejected _ => True

/-- A transfer of an asset whose content is one of `X`. -/
structure Faithful (X : Set Content) (t : Transfer) : Prop where
  asm : ∀ asm, t.asm = some asm → ∃ x ∈ X, asm.size = x.body.length ∧ ∃ w, asm.Represents w ∧ w.Of x.body
  headers : ∀ headers, t.headers = some headers → ∃ x ∈ X, headers = x.headers
  stream : ∀ st, t.stream = some st → st.Fresh ∨ ∃ x ∈ X, st.Gives x
  settlements : ∀ y ∈ t.settlements, y.Gives X
  once : t.settlements.length = if t.settled then 1 else 0

section Stream

open Http4Client

variable {c : Http4Client} {t : Transfer} {st st' : StreamState} {x : Content} {X : Set Content}

/-- A stream that takes more now took more before. -/
theorem SameStream.canEnqueue (h : SameStream st st') (hbody : st'.body.canEnqueue = true) :
    st.body.canEnqueue = true := by
  by_contra hnot
  have hnot := ReadableStream.canEnqueue_eq_false_iff.mp (Bool.eq_false_of_not_eq_true hnot)
  refine absurd hbody (Bool.eq_false_iff.mp (ReadableStream.canEnqueue_eq_false_iff.mpr ?_))
  rw [h.closeRequested]
  rcases h.phase with heq | ⟨hclose, -⟩
  · rwa [heq]
  · exact .inr hclose

/-- What ends a stream takes nothing from what it was given. -/
theorem StreamState.Gives.shut (h : st.Gives x) (hchunks : st'.chunks = st.chunks)
    (hclose : st'.body.closeRequested = st.body.closeRequested) (hbody : st'.body.canEnqueue = false) :
    st'.Gives x := by
  refine ⟨?_, fun h' => ?_, fun h' => ?_⟩
  · rw [hchunks]
    exact h.isPrefix
  · rw [hbody] at h'
    cases h'
  · rw [hchunks]
    exact h.whole (hclose ▸ h')

theorem StreamState.Fresh.shut (h : st.Fresh) (hchunks : st'.chunks = st.chunks)
    (hclose : st'.body.closeRequested = st.body.closeRequested) (hbody : st'.body.canEnqueue = false) :
    st'.Fresh :=
  ⟨hchunks.trans h.1, hclose.trans h.2.1, fun h' => absurd h' (Bool.eq_false_iff.mp hbody)⟩

theorem closeRequested_error (s : ReadableStream) : s.error.closeRequested = s.closeRequested := by
  unfold ReadableStream.error
  split_ifs <;> rfl

/-- What a stream that is left as it is but for its end was given. -/
theorem gives_shut (h : st.Fresh ∨ ∃ x ∈ X, st.Gives x) (hchunks : st'.chunks = st.chunks)
    (hclose : st'.body.closeRequested = st.body.closeRequested) (hbody : st'.body.canEnqueue = false) :
    st'.Fresh ∨ ∃ x ∈ X, st'.Gives x := by
  rcases h with h | ⟨x, hx, h⟩
  · exact .inl (h.shut hchunks hclose hbody)
  · exact .inr ⟨x, hx, h.shut hchunks hclose hbody⟩

/-- What an open stream was given is as much of the body as it was told. -/
theorem flatten_eq_take (h : st.Fresh ∨ ∃ x ∈ X, st.Gives x) (hX : X.Subsingleton) (hx : x ∈ X)
    (hbody : st.body.canEnqueue = true) : st.chunks.flatten = x.body.take st.emitted := by
  rcases h with ⟨hchunks, -, hemitted⟩ | ⟨y, hy, h⟩
  · rw [hchunks, hemitted hbody]
    rfl
  · rw [hX hx hy]
    exact h.takes hbody

/-- Every change of a stream keeps what it was given a prefix of the body. -/
theorem Faithful.streamChange (h : Faithful X t) (hX : X.Subsingleton) (hemitted : EmittedOk t)
    (hst : t.stream = some st) (hchange : StreamChange c t st st') : st'.Fresh ∨ ∃ x ∈ X, st'.Gives x := by
  have hold := h.stream st hst
  cases hchange with
  | body hsame =>
    rcases hold with ⟨hchunks, hclose, hzero⟩ | ⟨x, hx, hgives⟩
    · refine .inl ⟨hsame.chunks.trans hchunks, hsame.closeRequested.trans hclose, fun hbody => ?_⟩
      rw [hsame.emitted]
      exact hzero (hsame.canEnqueue hbody)
    · refine .inr ⟨x, hx, ?_, fun hbody => ?_, fun hclose => ?_⟩ <;> rw [hsame.chunks]
      · exact hgives.isPrefix
      · rw [hsame.emitted]
        exact hgives.takes (hsame.canEnqueue hbody)
      · exact hgives.whole (hsame.closeRequested ▸ hclose)
  | pullFailed =>
    rcases hold with hfresh | ⟨x, hx, hgives⟩
    · exact .inl hfresh
    · exact .inr ⟨x, hx, hgives.isPrefix, hgives.takes, hgives.whole⟩
  | pullRejected | error =>
    exact gives_shut hold rfl (closeRequested_error st.body) st.body.canEnqueue_error
  | enqueue asm hasm hopen hbody =>
    obtain ⟨x, hx, hsize, w, hrep, hof⟩ := h.asm asm hasm
    have hle : st.emitted ≤ asm.contiguous := by
      have hle := hemitted st hst hbody
      rwa [Transfer.contiguous, hasm] at hle
    have hall : (st.chunks ++ [Bytes.sub asm.bytes st.emitted asm.contiguous]).flatten =
        x.body.take asm.contiguous := by
      have htake : x.body.take st.emitted = Bytes.sub x.body 0 st.emitted := by simp [Bytes.sub]
      rw [List.flatten_append, List.flatten_singleton, flatten_eq_take hold hX hx hbody, hrep.sub_eq hof,
        htake, Bytes.sub_append_sub (Nat.zero_le _) hle]
      simp [Bytes.sub]
    have hclose : (st.body.enqueue (Bytes.sub asm.bytes st.emitted asm.contiguous)).closeRequested = false := by
      have hno : st.body.closeRequested = false := by
        unfold ReadableStream.canEnqueue at hbody
        simp only [Bool.and_eq_true, Bool.not_eq_true'] at hbody
        exact hbody.2
      unfold ReadableStream.enqueue
      split_ifs <;> exact hno
    refine .inr ⟨x, hx, ?_, fun _ => hall, fun h' => ?_⟩
    · show (st.chunks ++ [_]).flatten <+: x.body
      rw [hall]
      exact List.take_prefix _ _
    · rw [show _ = false from hclose] at h'
      cases h'
  | skip n hbody => exact gives_shut hold rfl rfl hbody
  | drop hbody => exact gives_shut hold rfl rfl hbody
  | cancel => exact gives_shut hold rfl rfl rfl
  | close asm hdone hasm hall hbody =>
    obtain ⟨x, hx, hsize, w, hrep, hof⟩ := h.asm asm hasm
    have hcomplete : asm.complete = true := by
      obtain ⟨⟨asm', hasm', hcomplete⟩, -⟩ := hdone
      obtain rfl := Option.some.inj (hasm.symm.trans hasm')
      exact hcomplete
    have hlen : x.body.length ≤ st.emitted := by
      rw [← hsize]
      exact (hrep.size_le_contiguous hcomplete).trans hall
    have hwhole : st.chunks.flatten = x.body := by
      rw [flatten_eq_take hold hX hx hbody, List.take_of_length_le hlen]
    refine .inr ⟨x, hx, ?_, fun h' => ?_, fun _ => hwhole⟩
    · show st.chunks.flatten <+: x.body
      rw [hwhole]
    · exact absurd h' (Bool.eq_false_iff.mp st.body.canEnqueue_close)

end Stream

section Transfer

open Http4Client

variable {inc : Option Wire.Ts.Packet} {c c' : Http4Client} {id : ℤ} {t t' : Transfer} {X : Set Content}

/-- The packet handled carries the asset of the transfer. -/
structure Carries (inc : Option Wire.Ts.Packet) (id : ℤ) (X : Set Content) : Prop where
  data : ∀ d, Carried inc d → d.rpcId = id → ∃ x ∈ X, Slice d x.body
  metaData : ∀ m, inc = some (.metaData m) → m.rpcId = id → ∃ x ∈ X, m.fields = x.headers

theorem Faithful.settle {y : Settlement} (h : Faithful X t) (hX : X.Subsingleton) (hnot : t.settled = false)
    (hy : Settles t y) : Faithful X { t with settled := true, settlements := t.settlements ++ [y] } := by
  refine ⟨h.asm, h.headers, h.stream, List.forall_mem_append.mpr ⟨h.settlements, ?_⟩, ?_⟩
  · rw [List.forall_mem_singleton]
    cases hy with
    | response hstream hasm hcomplete hheaders =>
      obtain ⟨x, hx, hsize, w, hrep, hof⟩ := h.asm _ hasm
      obtain ⟨x', hx', hfields⟩ := h.headers _ hheaders
      exact ⟨x, hx, hrep.bytes_eq hof hsize hcomplete, hX hx hx' ▸ hfields⟩
    | stream hstream hasm hheaders =>
      obtain ⟨x, hx, hsize, -⟩ := h.asm _ hasm
      obtain ⟨x', hx', hfields⟩ := h.headers _ hheaders
      exact ⟨x, hx, hsize, hX hx hx' ▸ hfields⟩
    | rejected e => trivial
  · have honce := h.once
    rw [hnot] at honce
    rw [List.length_append, honce]
    rfl

/-- **Every change of a transfer keeps it faithful**, if the packet handled carries its asset. -/
theorem Faithful.change {s : SrptScheduler} (h : Faithful X t) (hX : X.Subsingleton)
    (hemitted : EmittedOk t) (hcarries : Carries inc id X)
    (hchange : Change inc c id t t' s) : Faithful X t' := by
  cases hchange with
  | progress | claim | remove => exact ⟨h.asm, h.headers, h.stream, h.settlements, h.once⟩
  | learn d hinc hid hlive hasm =>
    refine ⟨fun asm heq => ?_, h.headers, h.stream, h.settlements, h.once⟩
    obtain rfl := Option.some.inj heq
    obtain ⟨x, hx, hslice⟩ := hcarries.data d hinc hid
    refine ⟨x, hx, ?_, _, Reassembly.represents_new _, Contents.of_empty _⟩
    show d.totalSize.toNat = x.body.length
    rw [hslice.size]
    rfl
  | store d asm asm' fresh hinc hid hlive hasm hsize hadd =>
    refine ⟨fun asm₁ heq => ?_, h.headers, h.stream, h.settlements, h.once⟩
    obtain rfl := Option.some.inj heq
    obtain ⟨x, hx, hlen, w, hrep, hof⟩ := h.asm asm hasm
    obtain ⟨x', hx', hslice⟩ := hcarries.data d hinc hid
    obtain rfl := hX hx hx'
    obtain ⟨-, hsize', -, -, hrep'⟩ := hrep.of_add hadd
    exact ⟨x, hx, hsize'.trans hlen, _, hrep', hof.put hslice.payload⟩
  | headers m p hinc hid hlive hnone =>
    refine ⟨h.asm, fun headers heq => ?_, h.stream, h.settlements, h.once⟩
    obtain rfl := Option.some.inj heq
    exact hcarries.metaData m hinc hid
  | stream st st' hst hchange =>
    refine ⟨h.asm, h.headers, fun st₁ heq => ?_, h.settlements, h.once⟩
    obtain rfl := Option.some.inj heq
    exact h.streamChange hX hemitted hst hchange
  | pause asm st hasm hst | unpause st hst =>
    refine ⟨h.asm, h.headers, fun st₁ heq => ?_, h.settlements, h.once⟩
    obtain rfl := Option.some.inj heq
    rcases h.stream st hst with hfresh | ⟨x, hx, hgives⟩
    · exact .inl hfresh
    · exact .inr ⟨x, hx, hgives.isPrefix, hgives.takes, hgives.whole⟩
  | settle y hnot hy => exact h.settle hX hnot hy

/-- What names a transfer does not change. -/
theorem Http4Client.Change.name {s : SrptScheduler} (h : Change inc c id t t' s) :
    t'.assetId = t.assetId ∧ t'.initialGrant = t.initialGrant := by
  cases h with
  | progress | learn | store | headers | claim | stream | pause | unpause | remove | settle => exact ⟨rfl, rfl⟩

end Transfer

/-! ## The client -/

namespace Http4Client

variable {inc : Option Wire.Ts.Packet} {c c' : Http4Client} {X : ℤ → JsString → Set Content}

/-- A packet with DATA or META for a transfer carries the asset that the transfer is for. -/
structure Honest (X : ℤ → JsString → Set Content) (c : Http4Client) (inc : Option Wire.Ts.Packet) : Prop where
  data : ∀ d, Carried inc d → ∃ t, c.objects.get? d.rpcId = some t ∧ ∃ x ∈ X d.rpcId t.assetId, Slice d x.body
  metaData : ∀ m, inc = some (.metaData m) →
    ∃ t, c.objects.get? m.rpcId = some t ∧ ∃ x ∈ X m.rpcId t.assetId, m.fields = x.headers

/-- A REQ names the asset of its transfer, and its grant is that of the transfer. -/
def Named (c : Http4Client) : Prop :=
  ∀ id g assetId, Outgoing.req id g assetId ∈ c.handed →
    ∃ t, c.objects.get? id = some t ∧ t.assetId = assetId ∧ t.initialGrant = g

/-- What holds of a client whose packets were honest. -/
structure Intact (X : ℤ → JsString → Set Content) (c : Http4Client) : Prop where
  inv : Inv c
  emitted : ∀ id t, c.objects.get? id = some t → EmittedOk t
  faithful : ∀ id t, c.objects.get? id = some t → Faithful (X id t.assetId) t
  named : Named c

/-- A transfer keeps its name. -/
theorem Move.name (h : Move inc c c') {id : ℤ} {t : Transfer} (ht : c.objects.get? id = some t) :
    ∃ t', c'.objects.get? id = some t' ∧ t'.assetId = t.assetId ∧ t'.initialGrant = t.initialGrant := by
  obtain ⟨t', ht', rfl | ⟨s, hchange⟩⟩ := h.object ht
  · exact ⟨t', ht', rfl, rfl⟩
  · exact ⟨t', ht', hchange.name⟩

theorem Honest.move (h : Honest X c inc) (hm : Move inc c c') : Honest X c' inc := by
  refine ⟨fun d hd => ?_, fun m hinc => ?_⟩
  · obtain ⟨t, ht, hx⟩ := h.data d hd
    obtain ⟨t', ht', hname, -⟩ := hm.name ht
    exact ⟨t', ht', hname ▸ hx⟩
  · obtain ⟨t, ht, hx⟩ := h.metaData m hinc
    obtain ⟨t', ht', hname, -⟩ := hm.name ht
    exact ⟨t', ht', hname ▸ hx⟩

/-- An honest packet carries the asset of every transfer that it is for. -/
theorem Honest.carries (h : Honest X c inc) {id : ℤ} {t : Transfer} (ht : c.objects.get? id = some t) :
    Carries inc id (X id t.assetId) := by
  refine ⟨fun d hd hid => ?_, fun m hinc hid => ?_⟩ <;> subst hid
  · obtain ⟨t', ht', hx⟩ := h.data d hd
    obtain rfl := Option.some.inj (ht.symm.trans ht')
    exact hx
  · obtain ⟨t', ht', hx⟩ := h.metaData m hinc
    obtain rfl := Option.some.inj (ht.symm.trans ht')
    exact hx

theorem Named.move (h : Named c) (hm : Move inc c c') : Named c' := by
  intro id g assetId hmem
  have hold (hmem : Outgoing.req id g assetId ∈ c.handed) :
      ∃ t, c'.objects.get? id = some t ∧ t.assetId = assetId ∧ t.initialGrant = g := by
    obtain ⟨t, ht, hname, hgrant⟩ := h id g assetId hmem
    obtain ⟨t', ht', hname', hgrant'⟩ := hm.name ht
    exact ⟨t', ht', hname'.trans hname, hgrant'.trans hgrant⟩
  cases hm with
  | hand p hp =>
    rcases List.mem_append.mp hmem with hmem | hmem
    · exact hold hmem
    · obtain rfl := List.mem_singleton.mp hmem
      cases hp with
      | req ht => exact ⟨_, ht, rfl, rfl⟩
  | estimate | ticker | budget | arrive | detect | repeats | register | change | pump => exact hold hmem

theorem faithful_new {Y : Set Content} {t : Transfer} (hasm : t.asm = none) (hheaders : t.headers = none)
    (hsettled : t.settled = false) (hsettlements : t.settlements = [])
    (hstream : ∀ st, t.stream = some st → ∃ h, st = { body := { highWaterMark := h } }) : Faithful Y t := by
  refine ⟨fun asm h => ?_, fun headers h => ?_, fun st hst => ?_, fun y hy => ?_, ?_⟩
  · rw [hasm] at h
    cases h
  · rw [hheaders] at h
    cases h
  · obtain ⟨m, rfl⟩ := hstream st hst
    exact .inl ⟨rfl, rfl, fun _ => rfl⟩
  · rw [hsettlements] at hy
    cases hy
  · rw [hsettlements, hsettled]
    rfl

/-- Every move on an honest packet keeps the client intact. -/
theorem Intact.move (hX : ∀ id assetId, (X id assetId).Subsingleton) (hdec : Decoded inc) (h : Intact X c)
    (hhonest : Honest X c inc) (hm : Move inc c c') : Intact X c' := by
  have hobject {id : ℤ} {t t' : Transfer} (ht : c.objects.get? id = some t)
      (hchange : t' = t ∨ ∃ s, Change inc c id t t' s) : EmittedOk t' ∧ Faithful (X id t'.assetId) t' := by
    rcases hchange with rfl | ⟨s, hchange⟩
    · exact ⟨h.emitted id t' ht, h.faithful id t' ht⟩
    · refine ⟨(h.emitted id t ht).change (h.inv.transfer id t ht).1 hchange, ?_⟩
      rw [hchange.name.1]
      exact (h.faithful id t ht).change (hX id t.assetId) (h.emitted id t ht) (hhonest.carries ht) hchange
  have hboth (id : ℤ) (t' : Transfer) (ht' : c'.objects.get? id = some t') :
      EmittedOk t' ∧ Faithful (X id t'.assetId) t' := by
    cases ht : c.objects.get? id with
    | some t =>
      obtain ⟨t₁, ht₁, hchange⟩ := hm.object ht
      obtain rfl := Option.some.inj (ht'.symm.trans ht₁)
      exact hobject ht hchange
    | none =>
      -- only a new request makes an object
      cases hm with
      | register id' assetId cls stream progress hfresh hopen hencode hstream =>
        rw [OrderedMap.get?_set] at ht'
        split_ifs at ht'
        · obtain rfl := Option.some.inj ht'
          refine ⟨fun st hst _ => ?_, faithful_new rfl rfl rfl rfl hstream⟩
          obtain ⟨highWaterMark, rfl⟩ := hstream st hst
          exact Nat.zero_le _
        · rw [ht] at ht'
          cases ht'
      | change id' t₀ t₁ s ht₀ hchange =>
        have hne : id ≠ id' := fun heq => by rw [heq, ht₀] at ht; cases ht
        change (c.objects.modify id' _).get? id = _ at ht'
        rw [OrderedMap.get?_modify, if_neg hne, ht] at ht'
        cases ht'
      | estimate | ticker | budget | hand | arrive | detect | repeats | pump =>
        have hnone : none = some t' := ht.symm.trans ht'
        cases hnone
  exact ⟨h.inv.move hdec hm, fun id t ht => (hboth id t ht).1, fun id t ht => (hboth id t ht).2, h.named.move hm⟩

theorem Intact.flag (h : Intact X c) (hf : Flag c c') : Intact X c' := by
  have hinv := h.inv.flag hf
  cases hf with
  | stopReading | close | endSession => exact ⟨hinv, h.emitted, h.faithful, h.named⟩

theorem Honest.flag (h : Honest X c inc) (hf : Flag c c') : Honest X c' inc := by
  cases hf with
  | stopReading | close | endSession => exact ⟨h.data, h.metaData⟩

/-- **A step on an honest packet keeps the client intact.** -/
theorem Intact.step (hX : ∀ id assetId, (X id assetId).Subsingleton) {a : Step} (h : Intact X c)
    (hhonest : Honest X c a.event.packet) (hstep : c.step a = some c') : Intact X c' := by
  let P (c : Http4Client) : Prop := Intact X c ∧ Honest X c a.event.packet
  have hP : P c' := by
    refine Walk.preserves (P := P) (fun s s' ⟨hs, hhonest⟩ hm => ?_) (fun s s' ⟨hs, hhonest⟩ hf => ?_)
      (step_walk hstep) ⟨h, hhonest⟩
    · exact ⟨hs.move hX a.event.decoded_packet hhonest hm, hhonest.move hm⟩
    · exact ⟨hs.flag hf, hhonest.flag hf⟩
  exact hP.1

theorem honest_none : Honest X c none := by
  refine ⟨fun d hd => ?_, fun m hm => by cases hm⟩
  rcases hd with hd | ⟨s, hs, -⟩
  · cases hd
  · cases hs

/-- A client that has done nothing is intact. -/
theorem intact_connect (hX : ∀ id assetId, (X id assetId).Subsingleton) (opts : ClientOptions)
    (maxDatagramSize : ℕ) : Intact X (connect opts maxDatagramSize) := by
  refine Reaches.preserves (P := Intact X) (fun s s' hs hm => ?_) (connect_reaches opts maxDatagramSize) ?_
  · refine hs.move hX (fun p hp => ?_) honest_none hm
    cases hp
  · refine ⟨inv_new opts maxDatagramSize, ?_, ?_, ?_⟩
    · intro id t ht
      cases ht
    · intro id t ht
      cases ht
    · intro id g assetId hmem
      cases hmem

end Http4Client

end Http4.Client
