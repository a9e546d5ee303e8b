import Yukino.Raft.Delivery

set_option autoImplicit false

/-!
# The queue of pending reads

`read.go` keeps the contexts of the pending reads in a queue and their statuses in a map.
Both agree: every queued context has a status, whose request has the context as its first
entry. So the panic in `advance` and the index errors on the entries of requests are never
reached.

## Main definitions

* `ReadOnly.WF` — the queue and the map agree.
* `Raft.ReadWF` — the queue of a node agrees with its map, and the messages of a node that are about
  proposals or reads have entries.

## Main results

* `ReadOnly.WF.advance_returns` — what `advance` releases.
* `Raft.Actions.readWF` — reactions keep the queue consistent.
-/

namespace Yukino.Replica

open Outcome List AList

/-! ## The methods of `readOnly` -/

/-- The request of a status has its context as first entry. -/
def ReadIndexStatus.For (rs : ReadIndexStatus) (ctx : Bytes) : Prop :=
  ∃ e es, rs.req.entries = e :: es ∧ e.data = ctx

namespace ReadOnly

/-- No context is queued twice, and every queued context has a status of its own. -/
structure WF (ro : ReadOnly) : Prop where
  nodup : ro.readIndexQueue.Nodup
  pending : ∀ ctx ∈ ro.readIndexQueue, ∃ rs, ro.pendingReadIndex.lookup ctx = some rs ∧ rs.For ctx

/-- The statuses of the contexts `xs`. -/
def Statuses (pending : AList fun _ : Bytes => ReadIndexStatus) :
    List Bytes → List ReadIndexStatus → Prop :=
  List.Forall₂ fun x rs => pending.lookup x = some rs

variable {pending : AList fun _ : Bytes => ReadIndexStatus} {ctx : Bytes}

/-- The first loop of `advance` finds the statuses of all contexts up to `ctx`. -/
lemma collect_returns (ctx : Bytes) {q : List Bytes}
    (hq : ∀ x ∈ q, ∃ rs, pending.lookup x = some rs) :
    (ctx ∉ q ∧ ∃ rss, collect pending ctx q = .ok (rss, false)) ∨
    ∃ pre rest rss, q = pre ++ ctx :: rest ∧ Statuses pending (pre ++ [ctx]) rss ∧
      collect pending ctx q = .ok (rss, true) := by
  induction q with
  | nil => exact .inl ⟨by simp, [], rfl⟩
  | cons x q ih =>
    obtain ⟨rs, hrs⟩ := hq x (by simp)
    have hcollect : collect pending ctx (x :: q) = if x = ctx then .ok ([rs], true)
        else collect pending ctx q >>= fun p => .ok (rs :: p.1, p.2) := by
      rw [collect, hrs]
    by_cases hx : x = ctx
    · subst hx
      rw [if_pos rfl] at hcollect
      exact .inr ⟨[], q, [rs], rfl, List.Forall₂.cons hrs List.Forall₂.nil, hcollect⟩
    · rw [if_neg hx] at hcollect
      rcases ih fun y hy => hq y (by simp [hy]) with ⟨hmem, rss, h⟩ | ⟨pre, rest, rss, rfl, hst, h⟩
      · refine .inl ⟨?_, rs :: rss, by rw [hcollect, h]; rfl⟩
        rw [mem_cons, not_or]
        exact ⟨fun heq => hx heq.symm, hmem⟩
      · exact .inr ⟨x :: pre, rest, rs :: rss, rfl, List.Forall₂.cons hrs hst,
          by rw [hcollect, h]; rfl⟩

variable {xs : List Bytes} {rss : List ReadIndexStatus} {x : Bytes} {rs : ReadIndexStatus}

/-- The second loop of `advance` forgets the released contexts. -/
lemma release_eq
    (h : List.Forall₂ (fun x rs => ReadIndexStatus.For rs x) xs rss) :
    release pending rss = .ok (xs.foldl (fun p x => p.erase x) pending) := by
  induction h generalizing pending with
  | nil => rfl
  | @cons x rs xs rss hx _ ih =>
    obtain ⟨e, es, he, rfl⟩ := hx
    rw [release, he]
    exact ih

lemma lookup_foldl_erase (hx : x ∉ xs) :
    (xs.foldl (fun p x => p.erase x) pending).lookup x = pending.lookup x := by
  induction xs generalizing pending with
  | nil => rfl
  | cons y xs ih =>
    rw [mem_cons, not_or] at hx
    rw [foldl_cons, ih hx.2, lookup_erase_ne hx.1]

lemma Statuses.exists_mem
    (h : Statuses pending xs rss) (hrs : rs ∈ rss) :
    ∃ x ∈ xs, pending.lookup x = some rs := by
  induction h with
  | nil => simp at hrs
  | @cons x rs' xs rss hx _ ih =>
    rcases mem_cons.1 hrs with rfl | hrs
    · exact ⟨x, by simp, hx⟩
    · obtain ⟨y, hy, hlook⟩ := ih hrs
      exact ⟨y, by simp [hy], hlook⟩

lemma Statuses.mem_of_lookup
    (h : Statuses pending xs rss) (hx : x ∈ xs)
    (hrs : pending.lookup x = some rs) : rs ∈ rss := by
  induction h with
  | nil => cases hx
  | @cons y rs' xs rss hy _ ih =>
    rcases mem_cons.1 hx with rfl | hx
    · rw [hrs] at hy
      cases hy
      exact mem_cons_self
    · exact mem_cons_of_mem _ (ih hx)

lemma Statuses.forall_for
    (h : Statuses pending xs rss)
    (hfor : ∀ x ∈ xs, ∃ rs, pending.lookup x = some rs ∧ rs.For x) :
    List.Forall₂ (fun x rs => ReadIndexStatus.For rs x) xs rss := by
  induction h with
  | nil => exact List.Forall₂.nil
  | @cons x rs xs rss hx _ ih =>
    obtain ⟨rs', hrs', hx'⟩ := hfor x (by simp)
    rw [hx] at hrs'
    cases hrs'
    exact List.Forall₂.cons hx' (ih fun y hy => hfor y (by simp [hy]))

namespace WF

variable {ro : ReadOnly}

/-- **What `advance` does.** It does not panic. When `ctx` is queued, the contexts up to it
are taken from the queue with their statuses, and the others keep theirs. -/
lemma advance_returns (h : ro.WF) (ctx : Bytes) :
    (ctx ∉ ro.readIndexQueue ∧ ro.advance ctx = .ok (ro, [])) ∨
    ∃ pre rest rss ro', ro.readIndexQueue = pre ++ ctx :: rest ∧
      Statuses ro.pendingReadIndex (pre ++ [ctx]) rss ∧ ro.advance ctx = .ok (ro', rss) ∧
      ro'.readIndexQueue = rest ∧
      ∀ x ∈ rest, ro'.pendingReadIndex.lookup x = ro.pendingReadIndex.lookup x := by
  have hq : ∀ x ∈ ro.readIndexQueue, ∃ rs, ro.pendingReadIndex.lookup x = some rs := by
    intro x hx
    obtain ⟨rs, hrs, -⟩ := h.pending x hx
    exact ⟨rs, hrs⟩
  rcases collect_returns ctx hq with ⟨hmem, rss, hc⟩ | ⟨pre, rest, rss, heq, hst, hc⟩
  · refine .inl ⟨hmem, ?_⟩
    unfold advance
    rw [hc]
    rfl
  · right
    have hqueue : ro.readIndexQueue = pre ++ [ctx] ++ rest := by rw [heq, append_cons]
    have hfor : List.Forall₂ (fun x rs => ReadIndexStatus.For rs x) (pre ++ [ctx]) rss := by
      refine hst.forall_for fun x hx => h.pending x ?_
      rw [hqueue]
      exact mem_append_left _ hx
    have hlen : rss.length = (pre ++ [ctx]).length := hst.length_eq.symm
    set pending := (pre ++ [ctx]).foldl (fun p x => p.erase x) ro.pendingReadIndex with hpending
    refine ⟨pre, rest, rss, { pendingReadIndex := pending, readIndexQueue := rest }, heq, hst,
      ?_, rfl, fun x hx => ?_⟩
    · unfold advance
      rw [hc]
      change (release _ _ >>= _) = _
      rw [release_eq hfor]
      change Except.ok _ = _
      rw [hqueue, hlen, drop_left]
    · refine lookup_foldl_erase fun hmem => ?_
      have hnodup := h.nodup
      rw [hqueue] at hnodup
      exact (nodup_append.1 hnodup).2.2 x hmem x hx rfl

/-- `advance` does not panic. -/
lemma advance_succeeds (h : ro.WF) {ctx : Bytes} : Succeeds (ro.advance ctx) := by
  rcases h.advance_returns ctx with ⟨-, heq⟩ | ⟨pre, rest, rss, ro', -, -, heq, -⟩
  · exact Succeeds.of_eq heq
  · exact Succeeds.of_eq heq

/-- `advance` keeps the queue consistent, and what it releases was queued. -/
lemma advance (h : ro.WF) {ctx : Bytes} {ro' : ReadOnly} {rss : List ReadIndexStatus}
    (ha : ro.advance ctx = .ok (ro', rss)) :
    ro'.WF ∧ ∀ rs ∈ rss, ∃ x ∈ ro.readIndexQueue, ro.pendingReadIndex.lookup x = some rs := by
  rcases h.advance_returns ctx with
    ⟨-, heq⟩ | ⟨pre, rest, rss', ro₁, hqueue, hst, heq, hrest, hkeep⟩
  · rw [heq] at ha
    cases ha
    exact ⟨h, by simp⟩
  · rw [heq] at ha
    cases ha
    rw [append_cons] at hqueue
    refine ⟨⟨?_, fun x hx => ?_⟩, fun rs hrs => ?_⟩
    · rw [hrest]
      have := h.nodup
      rw [hqueue] at this
      exact (nodup_append.1 this).2.1
    · rw [hrest] at hx
      rw [hkeep x hx]
      exact h.pending x (by rw [hqueue]; exact mem_append_right _ hx)
    · obtain ⟨x, hx, hlook⟩ := hst.exists_mem hrs
      exact ⟨x, by rw [hqueue]; exact mem_append_left _ hx, hlook⟩

lemma recvAck (h : ro.WF) (ctx : Bytes) (fromID : ℕ) : (ro.recvAck ctx fromID).1.WF := by
  unfold ReadOnly.recvAck
  split
  · exact h
  · rename_i rs hrs
    refine ⟨h.nodup, fun x hx => ?_⟩
    rcases eq_or_ne x ctx with rfl | hne
    · obtain ⟨rs', hrs', hfor⟩ := h.pending x hx
      rw [hrs] at hrs'
      cases hrs'
      exact ⟨_, lookup_insert _, hfor⟩
    · rw [lookup_insert_ne hne]
      exact h.pending x hx

lemma addRequest (h : ro.WF) {m : Message} {e : Entry} {es : List Entry}
    (he : m.entries = e :: es) (index : ℕ) : (ro.addRequest e.data index m).1.WF := by
  unfold ReadOnly.addRequest
  split
  · exact h
  · rename_i hnew
    have hfresh : e.data ∉ ro.readIndexQueue := by
      intro hmem
      obtain ⟨rs, hrs, -⟩ := h.pending _ hmem
      exact hnew (lookup_isSome.1 (by rw [hrs]; rfl))
    refine ⟨?_, fun x hx => ?_⟩
    · exact nodup_append.2 ⟨h.nodup, by simp, fun x hx y hy heq => by
        rw [mem_singleton.1 hy] at heq
        exact hfresh (heq ▸ hx)⟩
    · rw [mem_append, mem_singleton] at hx
      rcases hx with hx | rfl
      · have hne : x ≠ e.data := fun heq => hfresh (heq ▸ hx)
        rw [lookup_insert_ne hne]
        exact h.pending x hx
      · exact ⟨_, lookup_insert _, e, es, he, rfl⟩

end WF

end ReadOnly

/-! ## Nodes -/

/-- Proposals, reads and the answers to reads have entries. -/
def Message.Filled (m : Message) : Prop :=
  m.type = .msgProp ∨ m.type = .msgReadIndex ∨ m.type = .msgReadIndexResp → m.entries ≠ []

namespace Raft

variable {m : Message} {r r' : Raft}

/-- The queue of pending reads is consistent, and so are the messages about proposals and
reads. -/
structure ReadWF (r : Raft) : Prop where
  queue : r.readOnly.WF
  msgs : ∀ m ∈ r.msgs, m.Filled

lemma ReadChange.wf {ro : ReadOnly} (hc : ReadChange m r ro) (h : r.readOnly.WF) : ro.WF := by
  cases hc with
  | same heq =>
    rw [heq]
    exact h
  | add he heq =>
    rw [heq]
    exact h.addRequest he _
  | ack heq =>
    rw [heq]
    exact h.recvAck _ _
  | release hadv => exact ((h.recvAck _ _).advance hadv).1

lemma Says.filled {x : Message} (hx : Says m r x) (h : r.readOnly.WF) (hm : m.Filled) :
    x.Filled := by
  cases hx with
  | request _ ht => exact fun hx => by rcases ht with ht | ht <;> simp [ht] at hx
  | append _ ht | heartbeat _ ht => exact fun hx => by simp [ht] at hx
  | answer _ ht => exact fun hx => by rcases hx with hx | hx | hx <;>
    simp [hx, MessageType.isAnswer] at ht
  | forward _ _ heq =>
    rw [heq]
    exact hm
  | read _ hrs heq hadv =>
    -- an answer carries the entries of a queued request
    have hack := h.recvAck m.context m.fromID
    obtain ⟨ctx, hctx, hlook⟩ := (hack.advance hadv).2 _ hrs
    obtain ⟨rs', hrs', e, es, he, -⟩ := hack.pending ctx hctx
    rw [hlook] at hrs'
    cases hrs'
    intro _
    simp [heq, readAnswer, he]

/-- **An action keeps the queue of reads consistent.** -/
lemma Action.readWF (ha : Action m r r') (h : r.ReadWF) (hm : m.Filled) : r'.ReadWF := by
  obtain ⟨-, hreads, ms, hms, hsays⟩ := ha.effect
  refine ⟨hreads.wf h.queue, fun x hx => ?_⟩
  rw [hms] at hx
  rcases mem_append.1 hx with hx | hx
  · exact h.msgs x hx
  · obtain ⟨y, hy, rfl⟩ := hsays x hx
    have hfilled := hy.filled h.queue hm
    unfold Message.Filled at hfilled ⊢
    rwa [stamp_type, stamp_entries]

lemma Actions.readWF (ha : Actions m r r') (h : r.ReadWF) (hm : m.Filled) : r'.ReadWF :=
  ha.invariant (fun _ _ hlast ih => hlast.readWF ih hm) h

end Raft

/-! ## Runs -/

/-- The queues of all nodes are consistent. -/
structure Cluster.ReadWF (s : Cluster) : Prop where
  nodes : ∀ i n, s.nodes.lookup i = some n → n.raft.ReadWF
  net : ∀ m ∈ s.net, m.Filled

namespace ClusterConfig

variable {c : ClusterConfig} {s s' : Cluster} {ev : Event}

/-- What a node reacts to has entries where it needs them. -/
lemma filled_of_event (h : s.ReadWF) {i : ℕ} {m : Message} (hm : ev.Gives s i m) : m.Filled := by
  cases ev with
  | tick j =>
    intro ht
    rcases hm.2.1 with h1 | h1
    all_goals simp [h1] at ht
  | campaign j => simp [hm.2, campaignMsg, Message.Filled]
  | propose j data => simp [hm.2, proposeMsg, Message.Filled]
  | proposeConfChange j data => simp [hm.2, proposeConfChangeMsg, Message.Filled]
  | readIndex j rctx => simp [hm.2, readIndexMsg, Message.Filled]
  | deliver m₀ =>
    obtain ⟨hmem, -, rfl⟩ := hm
    exact h.net m hmem
  | deliverStep m₀ =>
    obtain ⟨hmem, -, rfl | ⟨-, rfl⟩⟩ := hm
    · exact h.net m hmem
    · exact h.net m₀ hmem
  | ready | advance | applyConfChange | restart => exact absurd hm id

/-- **An event keeps the queues of reads consistent.** -/
lemma Change.readWF (hc : c.Change s ev s') (h : s.ReadWF) : s'.ReadWF := by
  refine ⟨?_, hc.forall_net h.net fun i n hn => (h.nodes i n hn).msgs⟩
  cases hc with
  | skip => exact h.nodes
  | idle i n rd hn => exact Cluster.forall_insert h.nodes (h.nodes i n hn)
  | react i n m rd r hn _ hm ha =>
    exact Cluster.forall_insert h.nodes (ha.readWF (h.nodes i n hn) (filled_of_event h hm))
  | ready i n rd hn =>
    exact Cluster.forall_insert h.nodes ⟨(h.nodes i n hn).queue, by simp [Node.takeReady]⟩
  | advance i n n' hn _ ha =>
    obtain ⟨l, rfl⟩ := Node.takeAdvance_ok ha
    exact Cluster.forall_insert h.nodes ⟨(h.nodes i n hn).queue, (h.nodes i n hn).msgs⟩
  | conf i index cc n rd _ hn =>
    have hf := n.raft.applyConfChange_frame cc
    have hwf : (n.raft.applyConfChange cc).ReadWF :=
      ⟨hf.readOnly ▸ (h.nodes i n hn).queue, hf.msgs ▸ (h.nodes i n hn).msgs⟩
    exact Cluster.forall_insert h.nodes hwf
  | restart i applied rand n n' _ _ _ hst =>
    refine Cluster.forall_insert h.nodes ⟨?_, by simp [hst.msgs]⟩
    rw [hst.readOnly]
    exact ⟨nodup_nil, by simp⟩

lemma Begun.readWF (h : c.Begun s) : s.ReadWF := by
  refine ⟨fun i n hn => ⟨?_, ?_⟩, by simp [h.net]⟩
  · rw [(h.nodes i n hn).2.readOnly]
    exact ⟨nodup_nil, by simp⟩
  · simp [(h.nodes i n hn).2.msgs]

end ClusterConfig

end Yukino.Replica
