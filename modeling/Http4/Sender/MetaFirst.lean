import Http4.Sender.Grants
import Http4.Sender.Queue

/-!
# META leads packet 0

Each REQ asks for a META and a packet 0. An RPC counts its REQs, and the send loop
answers with the count it found at `pick`; a REQ that arrives while an answer is on
its way has a higher count and is answered again.

Main results:

* `Answers.step`: what holds of the answers handed over, at every step.
* `meta_leads`: no DATA before META, no packet 0 before a META as recent, no more
  answers than REQs, and both answers to the last REQ before there is no work.
-/

namespace Http4.Sender

open Wire (Packet)

/-- The last REQ of the RPC at `p` that was answered with a work of the kind, `sent`
    being what is recorded of it. -/
def Session.level (s : Session) (kind : WorkKind) (p : ℕ) (sent : ℕ) : ℕ :=
  match s.flying p with
  | some w => if w.kind = kind then w.packet0 else sent
  | none => sent

/-- The answers of one kind to the REQs of the RPC at `p`: the last one was handed
    over, and there are no more than REQs answered. -/
structure AnsweredLast (s : Sys) (kind : WorkKind) (p sent : ℕ) : Prop where
  last : s.session.level kind p sent = 0 ∨
    ∃ h ∈ s.handed, h.Is kind p ∧ h.work.packet0 = s.session.level kind p sent
  count : s.handed.countP (fun h => h.Is kind p) ≤ s.session.level kind p sent

/-- What holds of the answers handed over. -/
structure Answers (s : Sys) : Prop where
  known : ∀ h ∈ s.handed, ∀ p, h.work.r = some p → p < s.session.heap.length
  shape : ∀ h ∈ s.handed, ∀ p, h.work.r = some p →
    h.work.kind = .workMeta ∧ (∃ m, h.packet = .metaData m) ∨
      h.work.kind ≠ .workMeta ∧ (dataIn h.packet).isSome
  owned : ∀ h ∈ s.handed, (dataIn h.packet).isSome → ∃ p, h.work.r = some p
  asked : ∀ (p : ℕ) (r : Rpc), s.session.heap[p]? = some r → 0 < r.packet0Req
  metas : ∀ (p : ℕ) (r : Rpc), s.session.heap[p]? = some r → AnsweredLast s .workMeta p r.metaSent
  packet0s : ∀ (p : ℕ) (r : Rpc), s.session.heap[p]? = some r → AnsweredLast s .workPacket0 p r.packet0Sent
  recent : ∀ (p : ℕ) (r : Rpc), s.session.heap[p]? = some r → ∀ h ∈ s.handed,
    h.Is .workMeta p ∨ h.Is .workPacket0 p → h.work.packet0 ≤ r.packet0Req
  busy : ∀ (w : Work) (p : ℕ) (r : Rpc), s.session.busy = some w → w.r = some p → w.data?.isSome →
    s.session.heap[p]? = some r → 0 < r.metaSent
  led : ∀ before h after, s.handed = before ++ h :: after → ∀ p, h.work.r = some p → h.work.kind ≠ .workMeta →
    ∃ m ∈ before, m.Is .workMeta p ∧ (h.work.kind = .workPacket0 → h.work.packet0 ≤ m.work.packet0)

section MetaFirst

variable {cfg : Config} {s s' : Sys} {a : Act} {r r' : Rpc} {w : Work} {p : ℕ}

theorem level_of_flying_none {s : Session} (h : s.flying p = none) (kind : WorkKind) (sent : ℕ) :
    s.level kind p sent = sent := by
  rw [Session.level, h]

theorem level_of_flying {s : Session} (h : s.flying p = some w) (kind : WorkKind) (sent : ℕ) :
    s.level kind p sent = if w.kind = kind then w.packet0 else sent := by
  rw [Session.level, h]

theorem AnsweredLast.congr {kind : WorkKind} {sent sent' : ℕ} (h : AnsweredLast s kind p sent)
    (hhanded : s'.handed = s.handed)
    (hlevel : s'.session.level kind p sent' = s.session.level kind p sent) : AnsweredLast s' kind p sent' := by
  refine ⟨?_, ?_⟩
  · rw [hlevel, hhanded]
    exact h.last
  · rw [hlevel, hhanded]
    exact h.count

/-- Handing over a work of another kind, or for another RPC. -/
theorem AnsweredLast.append {kind : WorkKind} {sent : ℕ} {g : Handed} (h : AnsweredLast s kind p sent)
    (hhanded : s'.handed = s.handed ++ [g]) (hg : ¬ g.Is kind p)
    (hlevel : s'.session.level kind p sent = s.session.level kind p sent) : AnsweredLast s' kind p sent := by
  refine ⟨?_, ?_⟩
  · rw [hlevel, hhanded]
    exact h.last.imp_right fun ⟨m, hm, hrest⟩ => ⟨m, List.mem_append_left _ hm, hrest⟩
  · rw [hlevel, hhanded, List.countP_append, List.countP_singleton, if_neg (by simpa using hg)]
    exact h.count

/-- Handing over an answer to a later REQ. -/
theorem AnsweredLast.answer {kind : WorkKind} {sent : ℕ} {g : Handed} (h : AnsweredLast s kind p sent)
    (hhanded : s'.handed = s.handed ++ [g]) (hg : g.Is kind p)
    (hlevel : s.session.level kind p sent < g.work.packet0)
    (hlevel' : s'.session.level kind p sent = g.work.packet0) : AnsweredLast s' kind p sent := by
  refine ⟨.inr ⟨g, ?_, hg, hlevel'.symm⟩, ?_⟩
  · rw [hhanded]
    exact List.mem_append_right _ List.mem_cons_self
  · have hcount := h.count
    rw [hlevel', hhanded, List.countP_append, List.countP_singleton, if_pos (by simpa using hg)]
    omega

/-- Nothing was handed over for an RPC that is not there. -/
theorem AnsweredLast.of_unknown {kind : WorkKind} (hnew : ∀ h ∈ s.handed, h.work.r ≠ some p)
    (hflying : s.session.flying p = none) : AnsweredLast s kind p 0 := by
  have hlevel := level_of_flying_none hflying kind 0
  refine ⟨.inl hlevel, ?_⟩
  rw [hlevel, Nat.le_zero, List.countP_eq_zero]
  intro h hh
  rw [decide_eq_true_eq]
  exact fun his => hnew h hh his.2

theorem Touch.answers {pkt : Packet} {now : ℤ} (ht : Touch pkt now r r') :
    r'.metaSent = r.metaSent ∧ r'.packet0Sent = r.packet0Sent ∧ r.packet0Req ≤ r'.packet0Req :=
  ⟨ht.sameSend.metaSent, ht.sameSend.packet0Sent, ht.grows.2.1⟩

/-- What is due besides META is due once META is sent. -/
theorem metaSent_of_due {kind : WorkKind} (hdue : r.due = some kind) (hkind : kind ≠ .workMeta) :
    r.packet0Req ≤ r.metaSent := by
  unfold Rpc.due at hdue
  split_ifs at hdue with h1 <;> first | exact not_lt.mp h1 | exact absurd (Option.some.inj hdue).symm hkind

/-- Where nothing is handed over and no RPC is changed. -/
theorem Answers.congr (h : Answers s) (hheap : s'.session.heap = s.session.heap) (hhanded : s'.handed = s.handed)
    (hflying : ∀ p, s'.session.flying p = s.session.flying p)
    (hbusy : ∀ w p r, s'.session.busy = some w → w.r = some p → w.data?.isSome →
      s.session.heap[p]? = some r → 0 < r.metaSent) : Answers s' where
  known := by rw [hhanded, hheap]; exact h.known
  shape := by rw [hhanded]; exact h.shape
  owned := by rw [hhanded]; exact h.owned
  asked := by rw [hheap]; exact h.asked
  metas := by
    rw [hheap]
    exact fun p r hr => (h.metas p r hr).congr hhanded (by rw [Session.level, hflying, Session.level])
  packet0s := by
    rw [hheap]
    exact fun p r hr => (h.packet0s p r hr).congr hhanded (by rw [Session.level, hflying, Session.level])
  recent := by rw [hheap, hhanded]; exact h.recent
  busy := by rw [hheap]; exact hbusy
  led := by rw [hhanded]; exact h.led

/-- Where only the place of the send loop changes and nothing is in flight. -/
theorem Answers.move (h : Answers s) (hheap : s'.session.heap = s.session.heap) (hhanded : s'.handed = s.handed)
    (hphase : ∀ w seq, s.session.phase ≠ .handed w seq) (hphase' : ∀ w seq, s'.session.phase ≠ .handed w seq)
    (hbusy : ∀ w p r, s'.session.busy = some w → w.r = some p → w.data?.isSome →
      s.session.heap[p]? = some r → 0 < r.metaSent) : Answers s' :=
  h.congr hheap hhanded
    (fun p => (flying_eq_none_of_phase hphase' p).trans (flying_eq_none_of_phase hphase p).symm) hbusy

/-- Handling a packet. -/
theorem Answers.handle {now : ℤ} {got : GetResult} {pkt : Packet} {m : Metrics} (hinv : Inv cfg s.session)
    (h : Answers s) (hsession : s'.session = Session.handle cfg { s.session with metrics := m } now got pkt)
    (hhanded : s'.handed = s.handed) : Answers s' := by
  have hmap : MapOk { s.session with metrics := m } := ⟨hinv.map.mem, hinv.map.nodup⟩
  have hphase : s'.session.phase = s.session.phase := by
    rw [hsession]
    exact (sameLoop_handle cfg { s.session with metrics := m } now got pkt).phase
  have hflying (p : ℕ) : s'.session.flying p = s.session.flying p := flying_congr hphase p
  have hlevel (kind : WorkKind) (p sent : ℕ) : s'.session.level kind p sent = s.session.level kind p sent := by
    rw [Session.level, hflying, Session.level]
  -- an RPC was touched, or is new and nothing was handed over for it
  have hrpc {p : ℕ} {r' : Rpc} (hr' : s'.session.heap[p]? = some r') :
      (∃ r, s.session.heap[p]? = some r ∧ r'.metaSent = r.metaSent ∧ r'.packet0Sent = r.packet0Sent ∧
        r.packet0Req ≤ r'.packet0Req) ∨
      (s.session.heap.length = p ∧ r'.metaSent = 0 ∧ r'.packet0Sent = 0 ∧ 0 < r'.packet0Req) := by
    rw [hsession] at hr'
    rcases heap_handle hmap hr' with ⟨r, hr, ht⟩ | ⟨hp, q, asset, -, -, -, rfl⟩
    · exact .inl ⟨r, hr, ht.answers⟩
    · exact .inr ⟨hp.symm, rfl, rfl, Nat.succ_pos _⟩
  have hunknown {p : ℕ} (hp : s.session.heap.length = p) : ∀ g ∈ s.handed, g.work.r ≠ some p :=
    fun g hg hr => absurd (h.known g hg p hr) (by omega)
  refine ⟨?_, by rw [hhanded]; exact h.shape, by rw [hhanded]; exact h.owned, ?_, ?_, ?_, ?_, ?_, by rw [hhanded]; exact h.led⟩
  · rw [hhanded, hsession]
    intro g hg p hp
    obtain ⟨r, hr⟩ : ∃ r, s.session.heap[p]? = some r := ⟨_, List.getElem?_eq_getElem (h.known g hg p hp)⟩
    obtain ⟨r', hr', -⟩ := exists_touch cfg now got pkt hmap hr
    exact (List.getElem?_eq_some_iff.mp hr').1
  · intro p r' hr'
    rcases hrpc hr' with ⟨r, hr, -, -, hreq⟩ | ⟨-, -, -, hpos⟩
    · exact (h.asked p r hr).trans_le hreq
    · exact hpos
  · intro p r' hr'
    rcases hrpc hr' with ⟨r, hr, hmeta, -, -⟩ | ⟨hp, hmeta, -, -⟩
    · rw [hmeta]
      exact (h.metas p r hr).congr hhanded (hlevel _ _ _)
    · rw [hmeta]
      exact (AnsweredLast.of_unknown (hunknown hp) (hinv.flying_of_length hp.le)).congr hhanded (hlevel _ _ _)
  · intro p r' hr'
    rcases hrpc hr' with ⟨r, hr, -, hsent, -⟩ | ⟨hp, -, hsent, -⟩
    · rw [hsent]
      exact (h.packet0s p r hr).congr hhanded (hlevel _ _ _)
    · rw [hsent]
      exact (AnsweredLast.of_unknown (hunknown hp) (hinv.flying_of_length hp.le)).congr hhanded (hlevel _ _ _)
  · intro p r' hr' g hg his
    rw [hhanded] at hg
    rcases hrpc hr' with ⟨r, hr, -, -, hreq⟩ | ⟨hp, -⟩
    · exact (h.recent p r hr g hg his).trans hreq
    · exact absurd (his.elim And.right And.right) (hunknown hp g hg)
  · intro w p r' hw hp hdata hr'
    have hw' : s.session.busy = some w := by rwa [Session.busy, hphase] at hw
    rcases hrpc hr' with ⟨r, hr, hmeta, -, -⟩ | ⟨hlen, -⟩
    · rw [hmeta]
      exact h.busy w p r hw' hp hdata hr
    · obtain ⟨t, ht, -⟩ := hinv.exists_workOk hw' hp
      have := (List.getElem?_eq_some_iff.mp ht).1
      omega

/-- Which REQ a META or a packet 0 answers. -/
theorem WorkOk.answers (hw : WorkOk r w) :
    (w.kind = .workMeta → r.metaSent < w.packet0 ∧ w.packet0 ≤ r.packet0Req) ∧
      (w.kind = .workPacket0 → r.packet0Sent < w.packet0 ∧ w.packet0 ≤ r.metaSent) := by
  cases hw with
  | metaData hkind hpkt hlo hhi =>
    refine ⟨fun _ => ⟨hlo, hhi⟩, fun h => ?_⟩
    rw [hkind] at h
    cases h
  | packet0 d n hkind hpkt hd hn hlo hhi =>
    refine ⟨fun h => ?_, fun _ => ⟨hlo, hhi⟩⟩
    rw [hkind] at h
    cases h
  | resend _ _ _ _ hkind | new _ _ hkind | tailDup _ _ _ hkind =>
    constructor <;> intro h <;> rw [hkind] at h <;> cases h

/-- A META of an RPC is handed over as META, all else as DATA. -/
theorem shape_out (hinv : Inv cfg s.session) (hbusy : s.session.busy = some w) (hp : w.r = some p) :
    w.kind = .workMeta ∧ (∃ m, s.session.out w = .metaData m) ∨
      w.kind ≠ .workMeta ∧ (dataIn (s.session.out w)).isSome := by
  obtain ⟨r, -, hw⟩ := hinv.exists_workOk hbusy hp
  rcases hw.kind_data with ⟨hmeta, hnodata, -⟩ | ⟨d, hd, -, hmeta⟩
  · refine .inl ⟨hmeta, ?_⟩
    cases hw with
    | metaData hkind hpkt hlo hhi => exact ⟨r.metaData, by simp only [Session.out, hnodata, hpkt]⟩
    | packet0 _ _ hkind | resend _ _ _ _ hkind | new _ _ hkind | tailDup _ _ _ hkind =>
      rw [hmeta] at hkind
      cases hkind
  · exact .inr ⟨hmeta, by rw [hinv.dataIn_out (hinv.work w hbusy), hd]; rfl⟩

/-- Only works of an RPC carry DATA. -/
theorem owned_out (hinv : Inv cfg s.session) (hbusy : s.session.busy = some w)
    (hdata : (dataIn (s.session.out w)).isSome) : ∃ p, w.r = some p := by
  have hdoing := hinv.work w hbusy
  rw [hinv.dataIn_out hdoing] at hdata
  cases hdoing with
  | reply rest hpending =>
    rw [data?_eq_none_of_pending hinv hpending] at hdata
    cases hdata
  | data q t hq => exact ⟨q, hq⟩

/-- Handing over a work, which answers a later REQ than the last one of its kind did. -/
theorem AnsweredLast.sent {kind : WorkKind} {sent : ℕ} {g : Handed} (h : AnsweredLast s kind p sent)
    (hhanded : s'.handed = s.handed ++ [g]) (hnone : s.session.flying p = none)
    (hflying : s'.session.flying p = if g.work.r = some p then some g.work else none)
    (hsent : g.Is kind p → sent < g.work.packet0) : AnsweredLast s' kind p sent := by
  have hlevel := level_of_flying_none hnone kind sent
  by_cases hp : g.work.r = some p
  · rw [if_pos hp] at hflying
    by_cases hkind : g.work.kind = kind
    · refine h.answer hhanded ⟨hkind, hp⟩ (by rw [hlevel]; exact hsent ⟨hkind, hp⟩) ?_
      rw [level_of_flying hflying, if_pos hkind]
    · refine h.append hhanded (fun his => hkind his.1) ?_
      rw [level_of_flying hflying, if_neg hkind, hlevel]
  · rw [if_neg hp] at hflying
    refine h.append hhanded (fun his => hp his.2) ?_
    rw [level_of_flying_none hflying, hlevel]

/-- A META as recent was handed over before the work in hand, if that is DATA. -/
theorem Answers.exists_meta (hinv : Inv cfg s.session) (h : Answers s) (hbusy : s.session.busy = some w)
    (hnone : s.session.flying p = none) (hp : w.r = some p) (hkind : w.kind ≠ .workMeta) :
    ∃ m ∈ s.handed, m.Is .workMeta p ∧ (w.kind = .workPacket0 → w.packet0 ≤ m.work.packet0) := by
  obtain ⟨r, hr, hw⟩ := hinv.exists_workOk hbusy hp
  have hdata : w.data?.isSome := by
    rcases hw.kind_data with ⟨hmeta, -⟩ | ⟨d, hd, -⟩
    · exact absurd hmeta hkind
    · rw [hd]
      rfl
  have hpos := h.busy w p r hbusy hp hdata hr
  rcases (h.metas p r hr).last with hzero | ⟨m, hm, his, hlast⟩
  · rw [level_of_flying_none hnone] at hzero
    omega
  · rw [level_of_flying_none hnone] at hlast
    exact ⟨m, hm, his, fun hkind0 => hlast ▸ (hw.answers.2 hkind0).2⟩

/-- Handing over the work in hand. -/
theorem Answers.sent {g : Handed} (hinv : Inv cfg s.session) (h : Answers s) (hphase : s.session.phase = .checked w)
    (hphase' : ∃ seq, s'.session.phase = .handed w seq) (hheap : s'.session.heap = s.session.heap)
    (hg : g.work = w) (hpacket : g.packet = s.session.out w) (hhanded : s'.handed = s.handed ++ [g]) :
    Answers s' := by
  obtain ⟨seq, hphase'⟩ := hphase'
  subst hg
  have hbusy : s.session.busy = some g.work := by rw [Session.busy, hphase]
  have hnone (p : ℕ) : s.session.flying p = none := flying_eq_none_of_phase (by simp [hphase]) p
  have hflying (p : ℕ) : s'.session.flying p = if g.work.r = some p then some g.work else none := by
    rw [Session.flying, hphase']
  refine ⟨?_, ?_, ?_, by rw [hheap]; exact h.asked, ?_, ?_, ?_, ?_, ?_⟩
  · rw [hhanded, hheap]
    refine List.forall_mem_append.mpr ⟨h.known, List.forall_mem_singleton.mpr fun p hp => ?_⟩
    obtain ⟨r, hr, -⟩ := hinv.exists_workOk hbusy hp
    exact (List.getElem?_eq_some_iff.mp hr).1
  · rw [hhanded]
    refine List.forall_mem_append.mpr ⟨h.shape, List.forall_mem_singleton.mpr fun p hp => ?_⟩
    rw [hpacket]
    exact shape_out hinv hbusy hp
  · rw [hhanded]
    refine List.forall_mem_append.mpr ⟨h.owned, List.forall_mem_singleton.mpr fun hdata => ?_⟩
    exact owned_out hinv hbusy (hpacket ▸ hdata)
  · rw [hheap]
    exact fun p r hr => (h.metas p r hr).sent hhanded (hnone p) (hflying p) fun his =>
      ((hinv.workOk hbusy his.2 hr).answers.1 his.1).1
  · rw [hheap]
    exact fun p r hr => (h.packet0s p r hr).sent hhanded (hnone p) (hflying p) fun his =>
      ((hinv.workOk hbusy his.2 hr).answers.2 his.1).1
  · rw [hheap, hhanded]
    intro p r hr
    refine List.forall_mem_append.mpr ⟨h.recent p r hr, List.forall_mem_singleton.mpr fun his => ?_⟩
    obtain ⟨hmeta, hpacket0⟩ := (hinv.workOk hbusy (his.elim And.right And.right) hr).answers
    rcases his with his | his
    · exact (hmeta his.1).2
    · exact (hpacket0 his.1).2.trans (hinv.rpc p r hr).meta_le
  · rw [hheap]
    intro w p r hw
    rw [Session.busy, hphase', Option.some.injEq] at hw
    subst hw
    exact h.busy g.work p r hbusy
  · rw [hhanded]
    intro before x after heq p hp hkind
    rcases List.eq_nil_or_concat' after with rfl | ⟨after, y, rfl⟩
    · obtain ⟨rfl, hx⟩ := List.append_inj' heq rfl
      obtain rfl := (List.cons.inj hx).1
      exact h.exists_meta hinv hbusy (hnone p) hp hkind
    · rw [← List.cons_append, ← List.append_assoc] at heq
      obtain ⟨hbefore, -⟩ := List.append_inj' heq rfl
      exact h.led before x after hbefore p hp hkind

/-- Recording the work in hand. -/
theorem Answers.record {seq : ℕ} (h : Answers s) (hphase : s.session.phase = .handed w seq) (hp : w.r = some p)
    (hr : s.session.heap[p]? = some r) (hrec : Recorded cfg r w r')
    (hheap : s'.session.heap = s.session.heap.set p r') (hphase' : s'.session.phase = .idle)
    (hhanded : s'.handed = s.handed) : Answers s' := by
  have hself : s.session.flying p = some w := by
    rw [Session.flying, hphase]
    exact if_pos hp
  have hother {q : ℕ} (hq : p ≠ q) : s.session.flying q = none := by
    rw [Session.flying, hphase]
    exact if_neg fun hr => hq (Option.some.inj (hp.symm.trans hr))
  have hidle (q : ℕ) : s'.session.flying q = none := flying_idle hphase' q
  have hrpc {q : ℕ} {t : Rpc} (ht : s'.session.heap[q]? = some t) :
      p = q ∧ t = r' ∨ p ≠ q ∧ s.session.heap[q]? = some t := by
    rw [hheap] at ht
    by_cases hpq : p = q
    · subst hpq
      rw [heap_set_self hr, Option.some.injEq] at ht
      exact .inl ⟨rfl, ht.symm⟩
    · rw [List.getElem?_set_ne hpq] at ht
      exact .inr ⟨hpq, ht⟩
  refine ⟨?_, by rw [hhanded]; exact h.shape, by rw [hhanded]; exact h.owned, ?_, ?_, ?_, ?_, ?_, by rw [hhanded]; exact h.led⟩
  · rw [hhanded, hheap, List.length_set]
    exact h.known
  · intro q t ht
    rcases hrpc ht with ⟨rfl, rfl⟩ | ⟨hpq, ht⟩
    · rw [hrec.packet0Req]
      exact h.asked p r hr
    · exact h.asked q t ht
  · intro q t ht
    rcases hrpc ht with ⟨rfl, rfl⟩ | ⟨hpq, ht⟩
    · refine (h.metas p r hr).congr hhanded ?_
      rw [level_of_flying_none (hidle p), level_of_flying hself, hrec.metaSent]
    · refine (h.metas q t ht).congr hhanded ?_
      rw [level_of_flying_none (hidle q), level_of_flying_none (hother hpq)]
  · intro q t ht
    rcases hrpc ht with ⟨rfl, rfl⟩ | ⟨hpq, ht⟩
    · refine (h.packet0s p r hr).congr hhanded ?_
      rw [level_of_flying_none (hidle p), level_of_flying hself, hrec.packet0Sent]
    · refine (h.packet0s q t ht).congr hhanded ?_
      rw [level_of_flying_none (hidle q), level_of_flying_none (hother hpq)]
  · intro q t ht
    rw [hhanded]
    rcases hrpc ht with ⟨rfl, rfl⟩ | ⟨hpq, ht⟩
    · rw [hrec.packet0Req]
      exact h.recent p r hr
    · exact h.recent q t ht
  · intro w' q t hw
    rw [Session.busy, hphase'] at hw
    cases hw

/-- **What holds of the answers, at every step.** -/
theorem Answers.step (hinv : Inv cfg s.session) (h : Answers s) (heff : Effect cfg s a s') : Answers s' := by
  have hsame {w : Work} (hw : s.session.busy = some w) : ∀ w' p r, some w = some w' → w'.r = some p →
      w'.data?.isSome → s.session.heap[p]? = some r → 0 < r.metaSent := by
    intro w' p r heq
    obtain rfl := Option.some.inj heq
    exact h.busy w p r hw
  cases heff with
  | offer | malformed | nothing | evictIdle => exact h.congr rfl rfl (fun _ => rfl) h.busy
  | packet b now got pkt m hb hdecode hm => exact h.handle hinv rfl rfl
  | pick order w hphase hperm hsome hpicked =>
    refine h.move rfl rfl (by simp [hphase]) (by simp) ?_
    intro w' p r hw' hp hdata hr
    obtain rfl := Option.some.inj hw'
    cases hpicked with
    | reply rest hpending hnone => rw [hp] at hnone; cases hnone
    | data q t hempty horder ht hdue hok hfor =>
      obtain rfl := Option.some.inj (hp.symm.trans hfor.rpc)
      obtain rfl := Option.some.inj (hr.symm.trans ht)
      have hkind : w.kind ≠ .workMeta := by
        intro hmeta
        rcases hok.kind_data with ⟨-, hnone, -⟩ | ⟨-, -, -, hne⟩
        · rw [hnone] at hdata
          cases hdata
        · exact hne hmeta
      exact (h.asked p r hr).trans_le (metaSent_of_due hdue hkind)
  | hold w hphase => exact h.move rfl rfl (by simp [hphase]) (by simp) (by simp [Session.busy])
  | check w hphase =>
    exact h.move rfl rfl (by simp [hphase]) (by simp) (hsame (by rw [Session.busy, hphase]))
  | sent w o m hphase ho hm => exact h.sent hinv hphase ⟨_, rfl⟩ rfl rfl rfl rfl
  | refused w limit m hphase hm => exact h.move rfl rfl (by simp [hphase]) (by simp) (by simp [Session.busy])
  | ended w o hphase => exact h.move rfl rfl (by simp [hphase]) (by simp) (by simp [Session.busy])
  | recordReply w seq rest m hphase hpending hkind hr hseq hm =>
    refine h.congr rfl rfl (fun p => ?_) (by simp [Session.busy])
    rw [flying_idle rfl, Session.flying, hphase]
    simp [hr]
  | record w seq p r r' m hphase hp hr hw hrec hseq hm => exact h.record hphase hp hr hrec rfl rfl rfl

theorem answers_reachable (h : Machine.Reachable (Sys.step cfg) (Sys.init cfg) s) : Answers s := by
  refine reachable_induction (P := Answers) ?_ (fun _ _ _ hinv h heff => h.step hinv heff) h
  refine ⟨by simp [Sys.init], by simp [Sys.init], by simp [Sys.init], ?_, ?_, ?_, ?_, ?_, by simp [Sys.init]⟩ <;>
    simp [Sys.init, Session.init]

/-! ## No more answers than REQs -/

/-- The REQs for an identifier. -/
def reqsFor (id : UInt64) (handled : List Packet) : ℕ :=
  handled.countP fun pkt => match pkt with
    | .req q => q.rpcId == id
    | _ => false

/-- The works of a kind handed over for RPCs of an identifier. -/
def Sys.answersFor (s : Sys) (kind : WorkKind) (id : UInt64) : ℕ :=
  s.handed.countP fun h => h.work.kind = kind ∧
    (h.work.r.bind fun p => s.session.heap[p]?).map Rpc.id = some id

/-- The REQs that the RPCs of an identifier count. -/
def Session.asked (s : Session) (id : UInt64) : ℕ :=
  (s.heap.map fun r => if r.id = id then r.packet0Req else 0).sum

theorem packet0Req_eq_of_touch {pkt : Packet} {now : ℤ} (hpkt : ∀ q, pkt ≠ .req q) (ht : Touch pkt now r r') :
    r'.packet0Req = r.packet0Req := by
  induction ht with
  | none | grant | resend => rfl
  | request q heq => exact absurd heq (hpkt _)
  | resendSeq _ _ _ _ ih => exact ih

/-- A REQ is counted by one RPC of its identifier at most. -/
theorem asked_handle {s : Session} (hmap : MapOk s) (now : ℤ) (got : GetResult) (pkt : Packet) (id : UInt64) :
    (s.handle cfg now got pkt).asked id ≤ s.asked id + reqsFor id [pkt] := by
  by_cases hreq : ∃ q, pkt = .req q
  · obtain ⟨q, rfl⟩ := hreq
    have hone : reqsFor id [.req q] = if q.rpcId = id then 1 else 0 := by
      simp [reqsFor, List.countP_singleton]
    rw [hone]
    cases hq : s.lookup q.rpcId with
    | some t =>
      obtain ⟨r, hr, hid⟩ := hmap.lookup hq
      have hset (f : Rpc → Rpc) : s.heap.modify t f = s.heap.set t (f r) := by
        rw [List.modify_eq_set_getElem?, hr]
        rfl
      simp only [Session.handle, hq, Session.asked, Session.update, hset]
      have hsum := sum_map_set (fun r => if r.id = id then r.packet0Req else 0)
        (r.request q.initialGrant.toNat now) hr
      have hreq : (r.request q.initialGrant.toNat now).packet0Req = r.packet0Req + 1 := rfl
      simp only [id_request, hid, hreq] at hsum
      split_ifs at hsum ⊢ <;> omega
    | none =>
      cases got with
      | notFound | failed => simp only [Session.handle, hq]; exact Nat.le_add_right _ _
      | found a =>
        simp only [Session.handle, hq, Session.asked, List.map_append, List.sum_append, List.map_singleton,
          List.sum_singleton]
        exact Nat.add_le_add_left (le_of_eq rfl) _
  · have hnone : ∀ q, pkt ≠ .req q := fun q heq => hreq ⟨q, heq⟩
    have hlen : (s.handle cfg now got pkt).heap.length = s.heap.length := by
      rcases rpcs_handle cfg s now got pkt with ⟨-, hlen⟩ | ⟨q, a, heq, -⟩
      · exact hlen
      · exact absurd heq (hnone q)
    rw [Session.asked, map_heap_handle cfg now got pkt hmap _ (fun r r' ht => by
      rw [ht.id, packet0Req_eq_of_touch hnone ht]) hlen]
    exact Nat.le_add_right _ _

theorem asked_step (hinv : Inv cfg s.session) (heff : Effect cfg s a s') (id : UInt64)
    (h : s.session.asked id ≤ reqsFor id s.handled) : s'.session.asked id ≤ reqsFor id s'.handled := by
  cases heff with
  | packet b now got pkt m hb hdecode hm =>
    have hmap : MapOk { s.session with metrics := m } := ⟨hinv.map.mem, hinv.map.nodup⟩
    have hle : (Session.handle cfg { s.session with metrics := m } now got pkt).asked id ≤
        s.session.asked id + reqsFor id [pkt] := asked_handle hmap now got pkt id
    have hsum : reqsFor id (s.handled ++ [pkt]) = reqsFor id s.handled + reqsFor id [pkt] := List.countP_append ..
    exact hle.trans (hsum ▸ Nat.add_le_add_right h _)
  | record w seq p r r' m hphase hp hr hw hrec hseq hm =>
    have hsum := sum_map_set (fun r => if r.id = id then r.packet0Req else 0) r' hr
    simp only [hrec.id, hrec.packet0Req] at hsum
    exact (Nat.add_right_cancel hsum).trans_le h
  | offer | malformed | nothing | pick | hold | check | sent | refused | ended | recordReply | evictIdle =>
    exact h

theorem AnsweredLast.count_le {kind : WorkKind} {sent : ℕ} (h : AnsweredLast s kind p sent)
    (hrecent : ∀ g ∈ s.handed, g.Is kind p → g.work.packet0 ≤ r.packet0Req) :
    s.handed.countP (fun g => g.Is kind p) ≤ r.packet0Req := by
  refine h.count.trans ?_
  rcases h.last with hzero | ⟨g, hg, his, hlast⟩
  · rw [hzero]
    exact Nat.zero_le _
  · rw [← hlast]
    exact hrecent g hg his

/-- **An RPC has no more METAs and no more packet 0s than REQs.** -/
theorem Answers.count_le (h : Answers s) (hr : s.session.heap[p]? = some r) {kind : WorkKind}
    (hkind : kind = .workMeta ∨ kind = .workPacket0) :
    s.handed.countP (fun g => g.Is kind p) ≤ r.packet0Req := by
  rcases hkind with rfl | rfl
  · exact (h.metas p r hr).count_le fun g hg his => h.recent p r hr g hg (.inl his)
  · exact (h.packet0s p r hr).count_le fun g hg his => h.recent p r hr g hg (.inr his)

/-- What was handed over for an identifier was handed over for its RPCs. -/
theorem countP_le_sum (heap : List Rpc) (kind : WorkKind) (id : UInt64) (l : List Handed) :
    l.countP (fun h => h.work.kind = kind ∧ (h.work.r.bind fun p => heap[p]?).map Rpc.id = some id) ≤
      ∑ i : Fin heap.length, if heap[i.1].id = id then l.countP (fun h => h.Is kind i.1) else 0 := by
  induction l with
  | nil => simp
  | cons g l ih =>
    have hmono (i : Fin heap.length) :
        (if heap[i.1].id = id then l.countP (fun h => h.Is kind i.1) else 0) ≤
          if heap[i.1].id = id then (g :: l).countP (fun h => h.Is kind i.1) else 0 := by
      split_ifs
      · exact (List.sublist_cons_self g l).countP_le
      · exact le_refl _
    by_cases hg : g.work.kind = kind ∧ (g.work.r.bind fun p => heap[p]?).map Rpc.id = some id
    · rw [List.countP_cons_of_pos (by simpa using hg)]
      obtain ⟨r, hr, hid⟩ := Option.map_eq_some_iff.mp hg.2
      obtain ⟨p, hp, hget⟩ := Option.bind_eq_some_iff.mp hr
      obtain ⟨hlt, rfl⟩ := List.getElem?_eq_some_iff.mp hget
      refine Nat.succ_le_of_lt (ih.trans_lt (Finset.sum_lt_sum (fun i _ => hmono i) ⟨⟨p, hlt⟩, Finset.mem_univ _, ?_⟩))
      rw [if_pos hid, if_pos hid, List.countP_cons_of_pos (by simpa using ⟨hg.1, hp⟩)]
      exact Nat.lt_succ_self _
    · rw [List.countP_cons_of_neg (by simpa using hg)]
      exact ih.trans (Finset.sum_le_sum fun i _ => hmono i)

/-- There are no more answers for an identifier than its RPCs count REQs. -/
theorem Answers.answersFor_le (h : Answers s) {kind : WorkKind}
    (hkind : kind = .workMeta ∨ kind = .workPacket0) (id : UInt64) :
    s.answersFor kind id ≤ s.session.asked id := by
  refine (countP_le_sum s.session.heap kind id s.handed).trans ?_
  rw [Session.asked, ← Fin.sum_univ_fun_getElem]
  refine Finset.sum_le_sum fun i _ => ?_
  split_ifs
  · exact h.count_le (List.getElem?_eq_getElem i.isLt) hkind
  · exact le_refl _

/-! ## The last REQ -/

/-- What is handed over stays so, and an RPC stays where it is and counts no fewer
    REQs. -/
theorem handed_run {acts : List Act} (hinv : Inv cfg s.session) (hrun : Machine.run (Sys.step cfg) s acts = some s')
    (hr : s.session.heap[p]? = some r) :
    Inv cfg s'.session ∧ (∃ more, s'.handed = s.handed ++ more) ∧
      ∃ r', s'.session.heap[p]? = some r' ∧ r.packet0Req ≤ r'.packet0Req := by
  refine Machine.run_invariant (P := fun t => Inv cfg t.session ∧ (∃ more, t.handed = s.handed ++ more) ∧
      ∃ r', t.session.heap[p]? = some r' ∧ r.packet0Req ≤ r'.packet0Req)
    (fun t a t' ⟨hinv, ⟨more, hmore⟩, r₁, hr₁, hle⟩ hstep => ⟨hinv.step hstep, ?_⟩)
    ⟨hinv, ⟨[], (List.append_nil _).symm⟩, r, hr, le_refl _⟩ hrun
  cases hinv.effect hstep with
  | packet b now got pkt m hb hdecode hm =>
    have hmap : MapOk { t.session with metrics := m } := ⟨hinv.map.mem, hinv.map.nodup⟩
    obtain ⟨r', hr', ht⟩ := exists_touch cfg now got pkt hmap hr₁
    exact ⟨⟨more, hmore⟩, r', hr', hle.trans ht.answers.2.2⟩
  | sent w o m hphase ho hm =>
    exact ⟨⟨more ++ [_], by rw [hmore, List.append_assoc]⟩, r₁, hr₁, hle⟩
  | record w seq q t₁ r' m hphase hp ht hw hrec hseq hm =>
    refine ⟨⟨more, hmore⟩, ?_⟩
    by_cases hqp : q = p
    · subst hqp
      obtain rfl := Option.some.inj (hr₁.symm.trans ht)
      exact ⟨r', heap_set_self ht, by rw [hrec.packet0Req]; exact hle⟩
    · exact ⟨r₁, by rw [List.getElem?_set_ne hqp]; exact hr₁, hle⟩
  | offer | malformed | nothing | pick | hold | check | refused | ended | recordReply | evictIdle =>
    exact ⟨⟨more, hmore⟩, r₁, hr₁, hle⟩

/-- Once a REQ was handled, its RPC counts more REQs than were answered. -/
theorem Answers.lt_of_req (hinv : Inv cfg s.session) (h : Answers s) {b : Bytes} {now : ℤ} {got : GetResult}
    {q : Wire.Req} (hstep : Sys.step cfg s (.receive b now got) = some s')
    (hdecode : Wire.Go.decode b = .ok (.req q)) (hp : s'.session.lookup q.rpcId = some p) :
    ∃ r, s'.session.heap[p]? = some r ∧
      ∀ g ∈ s'.handed, g.Is .workMeta p ∨ g.Is .workPacket0 p → g.work.packet0 < r.packet0Req := by
  obtain ⟨-, m, -, rfl⟩ := step_receive hdecode hstep
  have hmap : MapOk { s.session with metrics := m } := ⟨hinv.map.mem, hinv.map.nodup⟩
  cases hq : Session.lookup { s.session with metrics := m } q.rpcId with
  | some t =>
    obtain ⟨r, hr, -⟩ := hmap.lookup hq
    simp only [Session.handle, hq] at hp ⊢
    obtain rfl := Option.some.inj (hq.symm.trans hp)
    refine ⟨r.request q.initialGrant.toNat now, ?_, fun g hg his => ?_⟩
    · rw [Session.heap_update, if_pos rfl, hr]
      rfl
    · exact Nat.lt_succ_of_le (h.recent _ r hr g hg his)
  | none =>
    cases got with
    | notFound | failed =>
      simp only [Session.handle, hq] at hp
      exact absurd (hq.symm.trans hp) (Option.some_ne_none _).symm
    | found asset =>
      have hmap' : MapOk (Session.handle cfg { s.session with metrics := m } now (.found asset) (.req q)) := hmap.handle
      have hlookup : (Session.handle cfg { s.session with metrics := m } now (.found asset) (.req q)).lookup
          q.rpcId = some s.session.heap.length := by
        refine hmap'.lookup_of_mem ?_
        simp only [Session.handle, hq]
        exact List.mem_append_right _ List.mem_cons_self
      obtain rfl := Option.some.inj (hlookup.symm.trans hp)
      simp only [Session.handle, hq]
      refine ⟨_, List.getElem?_concat_length .., fun g hg his => ?_⟩
      exact absurd (h.known g hg _ (his.elim And.right And.right)) (lt_irrefl _)

/-- When there is no work, every REQ was answered with a META and then a packet 0. -/
theorem Answers.of_due_none (hinv : Inv cfg s.session) (h : Answers s) (hidle : s.session.phase = .idle)
    (hr : s.session.heap[p]? = some r) (hdue : r.due = none) :
    ∃ before g after, s.handed = before ++ g :: after ∧ g.Is .workPacket0 p ∧ g.work.packet0 = r.packet0Req ∧
      ∃ m ∈ before, m.Is .workMeta p ∧ r.packet0Req ≤ m.work.packet0 := by
  obtain ⟨-, -, -, -, hsent⟩ := due_eq_none (hinv.rpc p r hr) hdue
  have hlevel := level_of_flying_none (flying_idle hidle p) .workPacket0 r.packet0Sent
  have hpos := h.asked p r hr
  rcases (h.packet0s p r hr).last with hzero | ⟨g, hg, his, hlast⟩
  · omega
  · obtain ⟨before, after, hsplit⟩ := List.append_of_mem hg
    have heq : g.work.packet0 = r.packet0Req := by omega
    obtain ⟨m, hm, hmeta, hle⟩ := h.led before g after hsplit p his.2 (by rw [his.1]; decide)
    exact ⟨before, g, after, hsplit, his, heq, m, hm, hmeta, heq ▸ hle his.1⟩

/-- **META leads packet 0.** In every run:

    * a DATA of an RPC is handed over after a META of it, and a packet 0 that answers a
      REQ after a META that answers that REQ or a later one;
    * for each identifier, and each RPC, there are no more METAs and no more packet 0s
      than REQs;
    * once `pick` reports no work, every live RPC was handed over a META and then a
      packet 0 since its last REQ was handled. -/
theorem meta_leads (cfg : Config) (acts : List Act) (s : Sys)
    (hrun : Machine.run (Sys.step cfg) (Sys.init cfg) acts = some s) :
    (∀ before h after, s.handed = before ++ h :: after → (dataIn h.packet).isSome →
      ∃ p, h.work.r = some p ∧ ∃ m ∈ before, m.Is .workMeta p ∧ (∃ q, m.packet = .metaData q) ∧
        (h.work.kind = .workPacket0 → h.work.packet0 ≤ m.work.packet0)) ∧
    (∀ kind, kind = .workMeta ∨ kind = .workPacket0 →
      (∀ id, s.answersFor kind id ≤ reqsFor id s.handled) ∧
      ∀ p r, s.session.heap[p]? = some r → s.handed.countP (fun h => h.Is kind p) ≤ r.packet0Req) ∧
    (∀ before b now got q after t p order, acts = before ++ .receive b now got :: after →
      Machine.run (Sys.step cfg) (Sys.init cfg) (before ++ [.receive b now got]) = some t →
      Wire.Go.decode b = .ok (.req q) → t.session.lookup q.rpcId = some p →
      s.session.phase = .idle → order.Perm s.session.live → p ∈ s.session.live →
      s.session.pick order = .ok none →
      ∃ more, s.handed = t.handed ++ more ∧ ∃ more₁ m more₂ h more₃, more = more₁ ++ m :: more₂ ++ h :: more₃ ∧
        m.Is .workMeta p ∧ h.Is .workPacket0 p) := by
  have hreach : Machine.Reachable (Sys.step cfg) (Sys.init cfg) s := ⟨acts, hrun⟩
  have hinv := inv_reachable hreach
  have hanswers := answers_reachable hreach
  have hasked (id : UInt64) : s.session.asked id ≤ reqsFor id s.handled :=
    reachable_induction (P := fun s => s.session.asked id ≤ reqsFor id s.handled)
      (by simp [Sys.init, Session.init, Session.asked])
      (fun _ _ _ hinv h heff => asked_step hinv heff id h) hreach
  refine ⟨?_, fun kind hkind => ⟨fun id => (hanswers.answersFor_le hkind id).trans (hasked id),
    fun p r hr => hanswers.count_le hr hkind⟩, ?_⟩
  · intro before h after hsplit hdata
    have hmem : h ∈ s.handed := by rw [hsplit]; exact List.mem_append_right _ List.mem_cons_self
    obtain ⟨p, hp⟩ := hanswers.owned h hmem hdata
    have hkind : h.work.kind ≠ .workMeta := by
      rcases hanswers.shape h hmem p hp with ⟨-, m, hm⟩ | ⟨hkind, -⟩
      · rw [hm] at hdata
        cases hdata
      · exact hkind
    obtain ⟨m, hm, his, hle⟩ := hanswers.led before h after hsplit p hp hkind
    refine ⟨p, hp, m, hm, his, ?_, hle⟩
    rcases hanswers.shape m (by rw [hsplit]; exact List.mem_append_left _ hm) p his.2 with ⟨-, hpacket⟩ | ⟨hno, -⟩
    · exact hpacket
    · exact absurd his.1 hno
  · intro before b now got q after t p order hacts hrun' hdecode hp hidle hperm hlive hnone
    obtain ⟨u, hu, hstep⟩ := Machine.run_concat_iff.mp hrun'
    have hreach' : Machine.Reachable (Sys.step cfg) (Sys.init cfg) u := ⟨before, hu⟩
    obtain ⟨r₁, hr₁, hlt⟩ := (answers_reachable hreach').lt_of_req (inv_reachable hreach') hstep hdecode hp
    rw [hacts, ← List.singleton_append, ← List.append_assoc, Machine.run_append_iff] at hrun
    obtain ⟨t', ht', hafter⟩ := hrun
    obtain rfl := Option.some.inj (hrun'.symm.trans ht')
    obtain ⟨-, ⟨more, hmore⟩, r, hr, hreq⟩ :=
      handed_run (inv_reachable ⟨_, hrun'⟩) hafter hr₁
    obtain ⟨r₂, hr₂, hdue⟩ := (pick_eq_none hnone).2 p (hperm.mem_iff.mpr hlive)
    obtain rfl := Option.some.inj (hr.symm.trans hr₂)
    obtain ⟨front, h, back, hsplit, his, heq, m, hm, hmeta, hle⟩ := hanswers.of_due_none hinv hidle hr hdue
    -- the META answers the REQ or a later one, so it was not handed over before
    have hnew : m ∉ t.handed := fun hold => absurd (hlt m hold (.inl hmeta)) (by omega)
    obtain ⟨front₁, front₂, rfl⟩ := List.append_of_mem hm
    rw [hmore, List.append_assoc, List.cons_append, List.append_eq_append_iff] at hsplit
    refine ⟨more, hmore, ?_⟩
    rcases hsplit with ⟨more₁, -, heq⟩ | ⟨rest, hold, heq⟩
    · exact ⟨more₁, m, front₂, h, back, by rw [heq]; simp, hmeta, his⟩
    · cases rest with
      | nil => exact ⟨[], m, front₂, h, back, by rw [← List.nil_append more, ← heq]; simp, hmeta, his⟩
      | cons x rest =>
        obtain rfl := (List.cons.inj heq).1
        exact absurd (by rw [hold]; exact List.mem_append_right _ List.mem_cons_self) hnew

end MetaFirst

/-- A REQ that is repeated while the first META is on its way is answered with both
    packets again. -/
theorem meta_leads_repeated : ∃ s, Machine.run (Sys.step smallConfig) (Sys.init smallConfig)
      (clientSends (smallReq 5) 0 ++ [.pick [0]] ++ clientSends (smallReq 5) 1 ++ [.check, .handOver .sent, .record] ++
        serverSends [0] ++ serverSends [0]) = some s ∧
    s.handed.map (fun h => h.work.kind) = [.workMeta, .workMeta, .workPacket0] ∧
    s.answersFor .workMeta 7 ≤ reqsFor 7 s.handled := by
  obtain ⟨s, hrun, hkinds⟩ := exists_run_of_any smallConfig
    (clientSends (smallReq 5) 0 ++ [.pick [0]] ++ clientSends (smallReq 5) 1 ++
      [.check, .handOver .sent, .record] ++ serverSends [0] ++ serverSends [0])
    (P := fun s => s.handed.map (fun h => h.work.kind) = [.workMeta, .workMeta, .workPacket0]) (by decide +kernel)
  exact ⟨s, hrun, of_decide_eq_true hkinds, ((meta_leads smallConfig _ s hrun).2.1 .workMeta (.inl rfl)).1 7⟩

end Http4.Sender
