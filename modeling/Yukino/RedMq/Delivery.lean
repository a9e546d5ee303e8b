import Yukino.RedMq.Consumer

set_option autoImplicit false

/-!
# Acknowledgements and retries

## Main definitions

* `AckedAfter` — a log in which every acknowledgement has its reason.
* `invocations` — how often the callback was called for a message.
* `served` — the replies that Redis documents, when its calls and those of the mailbox
  succeed and nothing is claimed.
* `sameFields` — a message is received with the same fields each time.

## Main results

* `acked_and_bounded` — a message is acknowledged only after the callback or the mailbox
  took it; and if it always comes with the same fields, the callback is called at most
  `maxRetryLimit` times before.
* `retried_too_often` — a message that was trimmed from the stream comes without its
  fields, and its failures are counted anew.

## Design

The failures of a message are counted under all of its fields. With the same fields each time, the
count of a message that is not acknowledged is the number of its callbacks (`Inv.count`). The range
over the counts stands between any callback on a pending message and the one before, so no count is
at the limit when a pending message is passed on (`Phase.Sound`).
-/

namespace Yukino.RedMq

open List AList

/-! ## Acknowledgements -/

/-- Every successful `XACK` comes after a callback or a delivery that succeeded, of a message with
that ID. -/
def AckedAfter : List Action → Prop
  | [] => True
  | .acked msgID true :: log => (∃ msg : MsgEntity, msg.msgID = msgID ∧
      (.invoked msg true ∈ log ∨ .delivered msg true ∈ log)) ∧ AckedAfter log
  | _ :: log => AckedAfter log

/-- The log, and what an `XACK` that comes next relies on. -/
structure Justified (s : State) : Prop where
  ackedAfter : AckedAfter s.log
  ack : ∀ msg rest stage, s.phase = .ack msg rest stage → .invoked msg true ∈ s.log
  ackDead : ∀ msg rest, s.phase = .ackDead msg rest → .delivered msg true ∈ s.log

section Acked

variable {opts : ConsumerOptions} {s : State}

/-- What an `XACK` with the outcome `ok` does to the counts and the log. -/
def State.settle (s : State) (msg : MsgEntity) (ok : Bool) : State :=
  { s with
    failureCnts := if ok then s.failureCnts.erase msg else s.failureCnts
    log := .acked msg.msgID ok :: s.log }

/-- No `XACK` comes first in a loop. -/
def Phase.noAck : Phase → Prop
  | .ack _ _ _ | .ackDead _ _ => False
  | _ => True

lemma noAck_handlerMsgs (stage : Stage) (msgs : List MsgEntity) :
    (handlerMsgs stage msgs).noAck := by
  cases msgs with
  | nil => cases stage <;> trivial
  | cons msg rest => trivial

lemma noAck_received (stage : Stage) (reply : Option (List MsgEntity)) :
    (received stage reply).noAck := by
  cases reply with
  | none => trivial
  | some msgs => exact noAck_handlerMsgs ..

lemma noAck_deliverDeadLetter (s : State) (order : List MsgEntity) :
    (s.deliverDeadLetter opts order).noAck := by
  induction order with
  | nil => trivial
  | cons msg rest ih =>
    unfold State.deliverDeadLetter
    split_ifs
    · exact ih
    · trivial

lemma Justified.of_noAck (hlog : AckedAfter s.log) (hphase : s.phase.noAck) : Justified s := by
  refine ⟨hlog, fun msg rest stage h => ?_, fun msg rest h => ?_⟩
  · rw [h] at hphase
    exact hphase.elim
  · rw [h] at hphase
    exact hphase.elim

/-- An acknowledgement that has its reason. -/
lemma AckedAfter.acked {msg : MsgEntity} {log : List Action} (h : AckedAfter log) (ok : Bool)
    (hmsg : .invoked msg true ∈ log ∨ .delivered msg true ∈ log) :
    AckedAfter (.acked msg.msgID ok :: log) := by
  cases ok with
  | false => exact h
  | true => exact ⟨⟨msg, rfl, hmsg⟩, h⟩

/-- **Proof sketch.** Only a callback and a delivery that succeed lead to an `XACK`, and they are
the reason of the one that comes next. -/
lemma Justified.step (s : State) (e : Event) (s' : State) (h : Justified s)
    (hstep : step opts s e = some s') : Justified s' := by
  unfold RedMq.step at hstep
  cases e with
  | autoClaim reply =>
    dsimp only at hstep
    split at hstep
    · split_ifs at hstep
      cases hstep
      exact .of_noAck h.ackedAfter (noAck_handlerMsgs ..)
    · cases hstep
  | readGroup reply =>
    have hreceived := Justified.of_noAck (s := { s with phase := received .received reply })
      h.ackedAfter (noAck_received ..)
    dsimp only at hstep
    split at hstep
    · split_ifs at hstep
      cases hstep
      exact hreceived
    · cases hstep
      exact hreceived
    · cases hstep
  | callback ok =>
    dsimp only at hstep
    split at hstep
    · cases ok <;> cases hstep
      · exact .of_noAck h.ackedAfter (noAck_handlerMsgs ..)
      · refine ⟨h.ackedAfter, fun msg' rest' stage' heq => ?_, nofun⟩
        cases heq
        exact mem_cons_self ..
    · cases hstep
  | xack ok =>
    dsimp only at hstep
    split at hstep <;> cases hstep
    · next hphase =>
      exact .of_noAck (h.ackedAfter.acked _ (.inl (h.ack _ _ _ hphase))) (noAck_handlerMsgs ..)
    · next hphase =>
      exact .of_noAck (h.ackedAfter.acked _ (.inr (h.ackDead _ _ hphase)))
        (noAck_deliverDeadLetter ..)
  | rangeMap order =>
    dsimp only at hstep
    split at hstep
    · split_ifs at hstep
      cases hstep
      exact .of_noAck h.ackedAfter (noAck_deliverDeadLetter ..)
    · cases hstep
  | mailbox ok =>
    dsimp only at hstep
    split at hstep
    · cases ok <;> cases hstep
      · exact .of_noAck h.ackedAfter (noAck_deliverDeadLetter ..)
      · refine ⟨h.ackedAfter, nofun, fun msg' rest' heq => ?_⟩
        cases heq
        exact mem_cons_self ..
    · cases hstep
  | readGroupPending reply =>
    dsimp only at hstep
    split at hstep <;> cases hstep
    exact .of_noAck h.ackedAfter (noAck_received ..)
  | stop =>
    dsimp only at hstep
    split at hstep <;> cases hstep
    exact .of_noAck h.ackedAfter trivial

end Acked

/-! ## Retries -/

/-- A call of the callback for a message with the ID. -/
def Action.invokes (msgID : String) : Action → Bool
  | .invoked msg _ => msg.msgID = msgID
  | _ => false

/-- How often the callback was called for messages with the ID. -/
def invocations (log : List Action) (msgID : String) : ℕ :=
  log.countP (Action.invokes msgID)

/-- The message has an ID, and is not acknowledged. -/
def unacked (log : List Action) (msg : MsgEntity) : Bool :=
  msg.msgID ≠ "" && .acked msg.msgID true ∉ log

/-- Nothing is claimed, and the calls to Redis and the mailbox succeed. Redis replies with one
message at most, which is not acknowledged; and to `receive` with one that it did not send
before. -/
def served (s : State) : Event → Bool
  | .autoClaim _ => false
  | .readGroup reply => reply.any fun msgs =>
    msgs.length ≤ 1 && msgs.all fun msg => unacked s.log msg && invocations s.log msg.msgID = 0
  | .readGroupPending reply => reply.any fun msgs =>
    msgs.length ≤ 1 && msgs.all (unacked s.log)
  | .xack ok => ok
  | .mailbox ok => ok
  | _ => true

/-- The callback got a message with this ID only as this one. -/
def sameAs (log : List Action) (msg : MsgEntity) : Bool :=
  log.all fun
    | .invoked msg' _ => msg'.msgID ≠ msg.msgID || msg' = msg
    | _ => true

/-- A message is received with the fields that it had before. -/
def sameFields (s : State) : Event → Bool
  | .readGroup reply => reply.all fun msgs => msgs.all (sameAs s.log)
  | .readGroupPending reply => reply.all fun msgs => msgs.all (sameAs s.log)
  | _ => true

/-- The callback was called for the message. -/
def Invoked (log : List Action) (msg : MsgEntity) : Prop :=
  ∃ ok, .invoked msg ok ∈ log

/-- The message is the one whose `XACK` comes next. -/
def Phase.acking (msg : MsgEntity) : Phase → Bool
  | .ack msg' _ _ => msg' = msg
  | _ => false

/-- Which counts may be at the limit, and what may be passed to the callback. -/
def Phase.Sound (limit : ℤ) (s : State) : Phase → Prop
  | .invoke msg rest _ => rest = [] ∧ msg.msgID ≠ "" ∧ .acked msg.msgID true ∉ s.log ∧
    (∀ msg', Invoked s.log msg' → msg'.msgID = msg.msgID → msg' = msg) ∧ s.failureCnt msg < limit
  | .ack msg rest _ => rest = [] ∧ Invoked s.log msg ∧ s.failureCnt msg < limit
  | .deliver msg rest | .ackDead msg rest =>
    (∀ msg' ∈ msg :: rest, Invoked s.log msg') ∧
      ∀ msg', limit ≤ s.failureCnt msg' → msg' ∈ msg :: rest
  | .receivePending => ∀ msg, s.failureCnt msg < limit
  | _ => True

/-- The invariant of the retries: an entry that is not acknowledged was invoked as often as its
failures are counted, and once more while its success waits for the `XACK`. -/
structure Inv (limit : ℤ) (s : State) : Prop where
  msgID_ne : ∀ msg, Invoked s.log msg → msg.msgID ≠ ""
  same : ∀ msg msg', Invoked s.log msg → Invoked s.log msg' → msg.msgID = msg'.msgID → msg = msg'
  known : ∀ msg ∈ s.failureCnts, Invoked s.log msg
  count : ∀ msg, Invoked s.log msg → .acked msg.msgID true ∉ s.log →
    (invocations s.log msg.msgID : ℤ) =
      s.failureCnt msg + if s.phase.acking msg then 1 else 0
  le_limit : ∀ msg, s.failureCnt msg ≤ limit
  sound : s.phase.Sound limit s

section Retries

variable {opts : ConsumerOptions} {s : State} {log : List Action}

variable {msgID : String} {msg msg' : MsgEntity} {ok : Bool} {limit : ℤ} {phase : Phase}
  {s' : State} {rest : List MsgEntity} {stage : Stage}

lemma invocations_eq_zero :
    invocations log msgID = 0 ↔ ∀ msg, Invoked log msg → msg.msgID ≠ msgID := by
  unfold invocations
  rw [countP_eq_zero]
  constructor
  · rintro h msg ⟨ok, hmem⟩ heq
    exact h _ hmem (decide_eq_true heq)
  · rintro h (⟨msg, ok⟩ | _ | _) hmem
    · exact fun heq => h msg ⟨ok, hmem⟩ (of_decide_eq_true heq)
    · exact Bool.false_ne_true
    · exact Bool.false_ne_true

lemma sameAs_iff :
    sameAs log msg = true ↔ ∀ msg', Invoked log msg' → msg'.msgID = msg.msgID → msg' = msg := by
  unfold sameAs
  rw [all_eq_true]
  constructor
  · rintro h msg' ⟨ok, hmem⟩ heq
    have h' := h _ hmem
    simpa [heq] using h'
  · rintro h (⟨msg', ok⟩ | _ | _) hmem
    · have h' := h msg' ⟨ok, hmem⟩
      by_cases heq : msg'.msgID = msg.msgID
      · simpa [heq] using h' heq
      · simp [heq]
    · rfl
    · rfl

lemma invoked_cons_iff : Invoked (.invoked msg ok :: log) msg' ↔ msg' = msg ∨ Invoked log msg' := by
  constructor
  · rintro ⟨ok', hmem⟩
    rcases mem_cons.1 hmem with heq | hmem
    · cases heq
      exact .inl rfl
    · exact .inr ⟨ok', hmem⟩
  · rintro (rfl | ⟨ok', hmem⟩)
    · exact ⟨ok, mem_cons_self ..⟩
    · exact ⟨ok', mem_cons_of_mem _ hmem⟩

lemma invoked_acked_iff : Invoked (.acked msgID ok :: log) msg' ↔ Invoked log msg' := by
  simp [Invoked]

lemma invoked_delivered_iff : Invoked (.delivered msg ok :: log) msg' ↔ Invoked log msg' := by
  simp [Invoked]

lemma Inv.failureCnt_eq_zero (hinv : Inv limit s)
    (h : ¬ Invoked s.log msg) : s.failureCnt msg = 0 := by
  have hnone : s.failureCnts.lookup msg = none :=
    lookup_eq_none.2 fun hmem => h (hinv.known msg hmem)
  unfold State.failureCnt
  rw [hnone]
  rfl

lemma Phase.Sound.congr (h : phase.Sound limit s)
    (hlog : s'.log = s.log) (hcnts : s'.failureCnts = s.failureCnts) : phase.Sound limit s' := by
  have hcnt : ∀ msg, s'.failureCnt msg = s.failureCnt msg := by
    intro msg
    unfold State.failureCnt
    rw [hcnts]
  unfold Phase.Sound at h ⊢
  simp only [hlog, hcnt]
  exact h

lemma Phase.noAck.acking (h : phase.noAck) (msg : MsgEntity) : phase.acking msg = false := by
  cases phase with
  | ack => exact h.elim
  | _ => rfl

/-- A step that leaves the counts and the log as they are. -/
lemma Inv.setPhase (hinv : Inv limit s) (hold : s.phase.noAck) (hnew : phase.noAck)
    (hsound : phase.Sound limit s) : Inv limit { s with phase } := by
  refine ⟨hinv.msgID_ne, hinv.same, hinv.known, fun msg hmsg hack => ?_, hinv.le_limit, ?_⟩
  · have h := hinv.count msg hmsg hack
    rw [hold.acking] at h
    rw [show ({ s with phase } : State).phase.acking msg = false from hnew.acking msg]
    exact h
  · exact hsound.congr rfl rfl

/-- The range over the counts comes to every one that is at the limit. -/
lemma sound_deliverDeadLetter {order : List MsgEntity} (hknown : ∀ msg ∈ order, Invoked s.log msg)
    (hall : ∀ msg, opts.maxRetryLimit ≤ s.failureCnt msg → msg ∈ order) :
    (s.deliverDeadLetter opts order).Sound opts.maxRetryLimit s := by
  induction order with
  | nil =>
    intro msg
    by_contra hlt
    cases hall msg (Int.not_lt.1 hlt)
  | cons msg rest ih =>
    unfold State.deliverDeadLetter
    split_ifs with hlt
    · refine ih (forall_mem_cons.1 hknown).2 fun msg' hmsg' => ?_
      rcases mem_cons.1 (hall msg' hmsg') with rfl | hmem
      · exact absurd hlt (Int.not_lt.2 hmsg')
      · exact hmem
    · exact ⟨hknown, hall⟩

/-- **The callback is called.** The count of the message goes up, or its `XACK` comes next. -/
lemma Inv.callback (hinv : Inv limit s) (hphase : s.phase = .invoke msg rest stage)
    (hlog : s'.log = .invoked msg ok :: s.log)
    (hself : (s'.failureCnt msg + if s'.phase.acking msg then 1 else 0) = s.failureCnt msg + 1)
    (hother : ∀ msg', msg' ≠ msg →
      s'.failureCnt msg' = s.failureCnt msg' ∧ s'.phase.acking msg' = false)
    (hkeys : ∀ msg' ∈ s'.failureCnts, msg' = msg ∨ msg' ∈ s.failureCnts)
    (hle : s'.failureCnt msg ≤ limit) (hsound : s'.phase.Sound limit s') : Inv limit s' := by
  have hold := hinv.sound
  rw [hphase] at hold
  obtain ⟨-, hne, -, hsame, -⟩ := hold
  have hinvoked : ∀ msg', Invoked s'.log msg' ↔ msg' = msg ∨ Invoked s.log msg' := by
    intro msg'
    rw [hlog, invoked_cons_iff]
  refine ⟨fun msg' h => ?_, fun m m' hm hm' hid => ?_, fun msg' h => ?_, fun msg' h hack => ?_,
    fun msg' => ?_, hsound⟩
  · rcases (hinvoked msg').1 h with rfl | h
    · exact hne
    · exact hinv.msgID_ne msg' h
  · rcases (hinvoked m).1 hm with rfl | hm <;> rcases (hinvoked m').1 hm' with rfl | hm'
    · rfl
    · exact (hsame m' hm' hid.symm).symm
    · exact hsame m hm hid
    · exact hinv.same m m' hm hm' hid
  · exact (hinvoked msg').2 ((hkeys msg' h).imp_right (hinv.known msg'))
  · have hack' : .acked msg'.msgID true ∉ s.log := fun hmem =>
      hack (by rw [hlog]; exact mem_cons_of_mem _ hmem)
    have hnot : ∀ m, s.phase.acking m = false := by
      intro m
      rw [hphase]
      rfl
    by_cases heq : msg' = msg
    · subst heq
      have hcount : (invocations s.log msg'.msgID : ℤ) = s.failureCnt msg' := by
        by_cases hold : Invoked s.log msg'
        · rw [hinv.count msg' hold hack', hnot msg', if_neg Bool.false_ne_true, Int.add_zero]
        · rw [hinv.failureCnt_eq_zero hold, invocations_eq_zero.2 fun m hm hid =>
            hold (hsame m hm hid ▸ hm)]
          rfl
      rw [hself, ← hcount, hlog]
      unfold invocations
      rw [countP_cons_of_pos
        (show Action.invokes msg'.msgID (.invoked msg' ok) = true from decide_eq_true rfl)]
      rfl
    · have hmem : Invoked s.log msg' := ((hinvoked msg').1 h).resolve_left heq
      have hid : msg.msgID ≠ msg'.msgID := fun hid => heq (hsame msg' hmem hid.symm)
      rw [(hother msg' heq).1, (hother msg' heq).2, hlog]
      have hcount := hinv.count msg' hmem hack'
      rw [hnot msg'] at hcount
      rw [← hcount]
      unfold invocations
      rw [countP_cons_of_neg (by simpa [Action.invokes] using hid)]
  · by_cases heq : msg' = msg
    · rw [heq]
      exact hle
    · rw [(hother msg' heq).1]
      exact hinv.le_limit msg'

/-- **A message is acknowledged**, and its count is dropped. -/
lemma Inv.acked (hinv : Inv limit s)
    (hlog : s'.log = .acked msg.msgID true :: s.log)
    (hcnts : s'.failureCnts = s.failureCnts.erase msg) (hlimit : 0 ≤ limit)
    (hold : ∀ msg', msg' ≠ msg → s.phase.acking msg' = false)
    (hnew : ∀ msg', s'.phase.acking msg' = false) (hsound : s'.phase.Sound limit s') :
    Inv limit s' := by
  have hinvoked : ∀ msg', Invoked s'.log msg' ↔ Invoked s.log msg' := by
    intro msg'
    rw [hlog, invoked_acked_iff]
  have hother : ∀ msg', msg' ≠ msg → s'.failureCnt msg' = s.failureCnt msg' := by
    intro msg' hne
    unfold State.failureCnt
    rw [hcnts, lookup_erase_ne hne]
  refine ⟨fun msg' h => hinv.msgID_ne msg' ((hinvoked msg').1 h), fun m m' hm hm' hid =>
    hinv.same m m' ((hinvoked m).1 hm) ((hinvoked m').1 hm') hid, fun msg' h => ?_,
    fun msg' h hack => ?_, fun msg' => ?_, hsound⟩
  · rw [hcnts] at h
    exact (hinvoked msg').2 (hinv.known msg' (mem_erase.1 h).2)
  · rw [hlog, mem_cons, not_or] at hack
    have hne : msg' ≠ msg := by
      rintro rfl
      exact hack.1 rfl
    have hcount := hinv.count msg' ((hinvoked msg').1 h) hack.2
    rw [hold msg' hne] at hcount
    rw [hother msg' hne, hnew msg', ← hcount, hlog]
    rfl
  · by_cases hne : msg' = msg
    · subst hne
      unfold State.failureCnt
      rw [hcnts, lookup_erase]
      exact hlimit
    · rw [hother msg' hne]
      exact hinv.le_limit msg'

/-- A message is delivered, which the counts do not show. -/
lemma Inv.delivered (hinv : Inv limit s)
    (hphase : s.phase = .deliver msg rest) :
    Inv limit { s with phase := .ackDead msg rest, log := .delivered msg true :: s.log } := by
  have hsound := hinv.sound
  rw [hphase] at hsound
  have hinvoked : ∀ msg', Invoked (.delivered msg true :: s.log) msg' ↔ Invoked s.log msg' :=
    fun _ => invoked_delivered_iff
  refine ⟨fun msg' h => hinv.msgID_ne msg' ((hinvoked msg').1 h), fun m m' hm hm' hid =>
    hinv.same m m' ((hinvoked m).1 hm) ((hinvoked m').1 hm') hid,
    fun msg' h => (hinvoked msg').2 (hinv.known msg' h), fun msg' h hack => ?_, hinv.le_limit,
    fun msg' h => (hinvoked msg').2 (hsound.1 msg' h), hsound.2⟩
  have hcount := hinv.count msg' ((hinvoked msg').1 h) fun hmem =>
    hack (mem_cons_of_mem _ hmem)
  rw [hphase] at hcount
  exact hcount

/-- What a read passes on: at most one message, which may be called once more. -/
lemma Inv.passOn (hinv : Inv limit s) {msgs : List MsgEntity} (hold : s.phase.noAck)
    (hlen : msgs.length ≤ 1)
    (hmsgs : ∀ msg ∈ msgs, unacked s.log msg = true ∧ sameAs s.log msg = true ∧
      s.failureCnt msg < limit) :
    Inv limit { s with phase := handlerMsgs stage msgs } := by
  refine hinv.setPhase hold (noAck_handlerMsgs ..) ?_
  cases msgs with
  | nil => cases stage <;> trivial
  | cons msg rest =>
    obtain ⟨hun, hsame, hlt⟩ := hmsgs msg (mem_cons_self ..)
    obtain ⟨hne, hack⟩ := Bool.and_eq_true_iff.1 hun
    have hrest : rest = [] := eq_nil_of_length_eq_zero (by simpa using hlen)
    exact ⟨hrest, of_decide_eq_true hne, of_decide_eq_true hack, sameAs_iff.1 hsame, hlt⟩

/-! ### The kinds of steps -/

variable {reply : Option (List MsgEntity)}

/-- A new message has no count yet. -/
lemma Inv.receive (hinv : Inv limit s) (hlimit : 0 < limit)
    (hphase : s.phase = .top ∨ s.phase = .receive) (hserved : served s (.readGroup reply) = true)
    (hsame : sameFields s (.readGroup reply) = true) :
    Inv limit { s with phase := received .received reply } := by
  have hold : s.phase.noAck := by
    rcases hphase with hphase | hphase <;> rw [hphase] <;> trivial
  cases reply with
  | none => cases hserved
  | some msgs =>
    obtain ⟨hlen, hnew⟩ := Bool.and_eq_true_iff.1 (show (_ && _) = true from hserved)
    refine hinv.passOn hold (of_decide_eq_true hlen) fun msg hmem => ?_
    obtain ⟨hun, hzero⟩ := Bool.and_eq_true_iff.1 (all_eq_true.1 hnew msg hmem)
    refine ⟨hun, all_eq_true.1 hsame msg hmem, ?_⟩
    rw [hinv.failureCnt_eq_zero fun h =>
      invocations_eq_zero.1 (of_decide_eq_true hzero) msg h rfl]
    exact hlimit

/-- After the range over the counts, that of a pending message is below the limit. -/
lemma Inv.pend (hinv : Inv limit s) (hphase : s.phase = .receivePending)
    (hserved : served s (.readGroupPending reply) = true)
    (hsame : sameFields s (.readGroupPending reply) = true) :
    Inv limit { s with phase := received .pended reply } := by
  have hsound := hinv.sound
  rw [hphase] at hsound
  cases reply with
  | none => cases hserved
  | some msgs =>
    obtain ⟨hlen, hun⟩ := Bool.and_eq_true_iff.1 (show (_ && _) = true from hserved)
    exact hinv.passOn (by rw [hphase]; trivial) (of_decide_eq_true hlen) fun msg hmem =>
      ⟨all_eq_true.1 hun msg hmem, all_eq_true.1 hsame msg hmem, hsound msg⟩

/-- The callback succeeds, and its `XACK` comes next. -/
lemma Inv.succeed (hinv : Inv limit s) (hphase : s.phase = .invoke msg rest stage) :
    Inv limit { s with phase := .ack msg rest stage, log := .invoked msg true :: s.log } := by
  have hsound := hinv.sound
  rw [hphase] at hsound
  obtain ⟨rfl, -, -, -, hlt⟩ := hsound
  refine hinv.callback hphase rfl ?_ (fun msg' hne => ⟨rfl, decide_eq_false (Ne.symm hne)⟩)
    (fun _ h => .inr h) (Int.le_of_lt hlt) ⟨rfl, ⟨true, mem_cons_self ..⟩, hlt⟩
  show _ + (if decide (msg = msg) = true then (1 : ℤ) else 0) = _
  rw [if_pos (decide_eq_true rfl)]
  rfl

lemma failureCnt_insert (s : State) (msg msg' : MsgEntity) (n : ℤ) (phase : Phase)
    (log : List Action) :
    State.failureCnt ⟨phase, s.failureCnts.insert msg n, log⟩ msg' =
      if msg' = msg then n else s.failureCnt msg' := by
  unfold State.failureCnt
  split_ifs with h
  · subst h
    rw [lookup_insert]
    rfl
  · rw [lookup_insert_ne h]

/-- The callback fails, and the count of the message goes up. -/
lemma Inv.fail (hinv : Inv limit s) (hphase : s.phase = .invoke msg rest stage) :
    Inv limit ⟨handlerMsgs stage rest, s.failureCnts.insert msg (s.failureCnt msg + 1),
      .invoked msg false :: s.log⟩ := by
  have hsound := hinv.sound
  rw [hphase] at hsound
  obtain ⟨rfl, -, -, -, hlt⟩ := hsound
  have hnew := (noAck_handlerMsgs stage []).acking
  refine hinv.callback hphase rfl ?_ (fun msg' hne => ⟨?_, hnew msg'⟩)
    (fun msg' h => (mem_insert _).1 h) ?_ (by cases stage <;> trivial)
  · rw [failureCnt_insert, if_pos rfl, hnew, if_neg Bool.false_ne_true, Int.add_zero]
  · rw [failureCnt_insert, if_neg hne]
  · rw [failureCnt_insert, if_pos rfl]
    exact hlt

/-- The `XACK` of a message with an ID succeeds if Redis does. -/
lemma Inv.acked_eq (hinv : Inv limit s) (hmsg : Invoked s.log msg) (hok : ok = true) :
    State.acked msg ok = true :=
  Bool.and_eq_true_iff.2 ⟨hok, decide_eq_true (hinv.msgID_ne msg hmsg)⟩

/-- The `XACK` after a callback. -/
lemma Inv.ack (hinv : Inv limit s) (hlimit : 0 < limit) (hphase : s.phase = .ack msg rest stage)
    (hok : ok = true) :
    Inv limit { s.settle msg (State.acked msg ok) with phase := handlerMsgs stage rest } := by
  have hsound := hinv.sound
  rw [hphase] at hsound
  obtain ⟨rfl, hinvoked, -⟩ := hsound
  rw [hinv.acked_eq hinvoked hok]
  refine hinv.acked rfl rfl (Int.le_of_lt hlimit) (fun msg' hne => ?_)
    (noAck_handlerMsgs stage []).acking (by cases stage <;> trivial)
  rw [hphase]
  exact decide_eq_false (Ne.symm hne)

/-- The `XACK` after a delivery. The range goes on with the other counts. -/
lemma Inv.ackDead (hinv : Inv opts.maxRetryLimit s) (hlimit : 0 < opts.maxRetryLimit)
    (hphase : s.phase = .ackDead msg rest) (hok : ok = true) :
    Inv opts.maxRetryLimit { s.settle msg (State.acked msg ok) with
      phase := (s.settle msg (State.acked msg ok)).deliverDeadLetter opts rest } := by
  have hsound := hinv.sound
  rw [hphase] at hsound
  obtain ⟨hinvoked, hall⟩ := hsound
  rw [hinv.acked_eq (hinvoked msg (mem_cons_self ..)) hok]
  refine hinv.acked rfl rfl (Int.le_of_lt hlimit) (fun msg' _ => by rw [hphase]; rfl)
    (noAck_deliverDeadLetter ..).acking (Phase.Sound.congr (sound_deliverDeadLetter
      (fun msg' hmem => ?_) fun msg' hle => ?_) rfl rfl)
  · exact invoked_acked_iff.2 (hinvoked msg' (mem_cons_of_mem _ hmem))
  · have hle' : opts.maxRetryLimit ≤ ((s.failureCnts.erase msg).lookup msg').getD 0 := hle
    have hne : msg' ≠ msg := by
      rintro rfl
      rw [lookup_erase] at hle'
      exact Int.not_lt.2 hle' hlimit
    rw [lookup_erase_ne hne] at hle'
    exact (mem_cons.1 (hall msg' hle')).resolve_left hne

/-- The range over the counts starts. -/
lemma Inv.range (hinv : Inv opts.maxRetryLimit s) (hlimit : 0 < opts.maxRetryLimit)
    (hphase : s.phase = .range) {order : List MsgEntity} (hperm : order.Perm s.failureCnts.keys) :
    Inv opts.maxRetryLimit { s with phase := s.deliverDeadLetter opts order } := by
  refine hinv.setPhase (by rw [hphase]; trivial) (noAck_deliverDeadLetter ..)
    (sound_deliverDeadLetter (fun msg hmem => ?_) fun msg hle => ?_)
  · exact hinv.known msg (hperm.mem_iff.1 hmem)
  · rw [hperm.mem_iff]
    by_contra hnot
    unfold State.failureCnt at hle
    rw [lookup_eq_none.2 hnot] at hle
    exact Int.not_lt.2 hle hlimit

/-- **Every step keeps the invariant**, when Redis and the mailbox serve and a message keeps its
fields. -/
lemma Inv.step (hlimit : 0 < opts.maxRetryLimit) (s : State) (e : Event) (s' : State)
    (hinv : Inv opts.maxRetryLimit s) (hok : (served s e && sameFields s e) = true)
    (hstep : step opts s e = some s') : Inv opts.maxRetryLimit s' := by
  obtain ⟨hserved, hsame⟩ := Bool.and_eq_true_iff.1 hok
  unfold RedMq.step at hstep
  cases e with
  | autoClaim reply => cases hserved
  | readGroup reply =>
    dsimp only at hstep
    split at hstep
    · next hphase =>
      split_ifs at hstep
      cases hstep
      exact hinv.receive hlimit (.inl hphase) hserved hsame
    · next hphase =>
      cases hstep
      exact hinv.receive hlimit (.inr hphase) hserved hsame
    · cases hstep
  | callback ok =>
    dsimp only at hstep
    split at hstep
    · next hphase =>
      cases ok <;> cases hstep
      · exact hinv.fail hphase
      · exact hinv.succeed hphase
    · cases hstep
  | xack ok =>
    dsimp only at hstep
    split at hstep <;> cases hstep
    · next hphase => exact hinv.ack hlimit hphase hserved
    · next hphase => exact hinv.ackDead hlimit hphase hserved
  | rangeMap order =>
    dsimp only at hstep
    split at hstep
    · next hphase =>
      split_ifs at hstep with hperm
      cases hstep
      exact hinv.range hlimit hphase hperm
    · cases hstep
  | mailbox ok =>
    obtain rfl : ok = true := hserved
    dsimp only at hstep
    split at hstep <;> cases hstep
    next hphase => exact hinv.delivered hphase
  | readGroupPending reply =>
    dsimp only at hstep
    split at hstep <;> cases hstep
    next hphase => exact hinv.pend hphase hserved hsame
  | stop =>
    dsimp only at hstep
    split at hstep <;> cases hstep
    next hphase => exact hinv.setPhase (by rw [hphase]; trivial) trivial trivial

/-- The callback was not called more often than the limit allows: a callback that succeeded was
below it before. -/
lemma Inv.invocations_le (hinv : Inv limit s)
    (hmsg : Invoked s.log msg) (hack : .acked msg.msgID true ∉ s.log) :
    (invocations s.log msg.msgID : ℤ) ≤ limit := by
  rw [hinv.count msg hmsg hack]
  split_ifs with hacking
  · have hsound := hinv.sound
    cases hphase : s.phase with
    | ack msg' rest stage =>
      rw [hphase] at hsound hacking
      rw [← of_decide_eq_true hacking]
      exact hsound.2.2
    | _ =>
      rw [hphase] at hacking
      cases hacking
  · rw [Int.add_zero]
    exact hinv.le_limit msg

end Retries

lemma maxRetryLimit_repairConsumer (opts : ConsumerOptions) :
    0 < (repairConsumer opts).maxRetryLimit := by
  unfold repairConsumer
  split_ifs with h
  · exact (by decide : (0 : ℤ) < 3)
  · exact Int.not_le.1 h

/-! ## Runs -/

/-- **At least once, and with bounded retries.** In every run a message is acknowledged only after
the callback succeeded on it or the mailbox accepted it. If Redis and the mailbox serve, nothing is
claimed and each message is received with the same fields every time, then the callback is
called at most `maxRetryLimit` times for a message that is not acknowledged.

**Proof sketch.** The first part is that an `XACK` comes directly after its reason
(`Justified.step`). For the second, the count of a message is the number of its callbacks so far,
and no count exceeds the limit (`Inv.step`). -/
theorem acked_and_bounded (opts : ConsumerOptions) {es : List Event} {s : State}
    (hrun : Runs.run (step (repairConsumer opts)) {} es = some s) :
    AckedAfter s.log ∧
      (Runs.along (step (repairConsumer opts)) (fun s e => served s e && sameFields s e) {} es =
        true → ∀ msgID, .acked msgID true ∉ s.log →
          (invocations s.log msgID : ℤ) ≤ (repairConsumer opts).maxRetryLimit) := by
  constructor
  · have hinit : Justified {} := ⟨trivial, nofun, nofun⟩
    exact (Runs.invariant Justified.step hinit hrun).ackedAfter
  · intro hok msgID hack
    have hlimit := maxRetryLimit_repairConsumer opts
    have hinit : Inv (repairConsumer opts).maxRetryLimit {} := by
      refine ⟨nofun, nofun, nofun, nofun, fun msg => ?_, trivial⟩
      exact Int.le_of_lt hlimit
    have hinv := Runs.along_invariant (Inv.step hlimit) hinit hok hrun
    by_cases hex : ∃ msg, Invoked s.log msg ∧ msg.msgID = msgID
    · obtain ⟨msg, hmsg, rfl⟩ := hex
      exact hinv.invocations_le hmsg hack
    · rw [invocations_eq_zero.2 fun msg hmsg hid => hex ⟨msg, hmsg, hid⟩]
      exact Int.le_of_lt hlimit

/-- A message of the stream, and how Redis sends it when it was trimmed. -/
def order : MsgEntity := ⟨"1-0", "order", "42"⟩

def trimmed : MsgEntity := ⟨"1-0", "", ""⟩

/-- A new message fails, and then twice as a pending one. -/
def failThrice (first pending : MsgEntity) (keys : List MsgEntity) : List Event :=
  [.readGroup (some [first]), .callback false, .rangeMap [first],
    .readGroupPending (some [pending]), .callback false, .readGroup (some []), .rangeMap keys,
    .readGroupPending (some [pending]), .callback false]

theorem acked_and_bounded_failThrice :
    ∃ s, Runs.run (step (repairConsumer {})) {} (failThrice order order [order]) = some s ∧
      .acked "1-0" true ∉ s.log ∧ invocations s.log "1-0" = 3 ∧
      (invocations s.log "1-0" : ℤ) ≤ (repairConsumer {}).maxRetryLimit := by
  obtain ⟨s, hrun, hack, hcount⟩ :
      ∃ s, Runs.run (step (repairConsumer {})) {} (failThrice order order [order]) = some s ∧
        .acked "1-0" true ∉ s.log ∧ invocations s.log "1-0" = 3 := by decide +kernel
  exact ⟨s, hrun, hack, hcount, (acked_and_bounded {} hrun).2 (by decide +kernel) "1-0" hack⟩

/-- With a limit of two, the callback is called three times for a message that is trimmed from the
stream after its first failure. -/
theorem retried_too_often :
    Runs.along (step (repairConsumer { maxRetryLimit := 2 })) served {}
        (failThrice order trimmed [order, trimmed]) = true ∧
      ∃ s, Runs.run (step (repairConsumer { maxRetryLimit := 2 })) {}
          (failThrice order trimmed [order, trimmed]) = some s ∧
        .acked "1-0" true ∉ s.log ∧ invocations s.log "1-0" = 3 := by
  decide +kernel

end Yukino.RedMq
