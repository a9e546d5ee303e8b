import Yukino.CreativeAgent.Conversation

set_option autoImplicit false

/-!
# No request is lost

A request that waits is in the stream, or in the hands of a process that lives. A worker that does
not get the lock drops its message, and a worker that crashes keeps it; so the requests are kept as
long as workers do not crash before they have taken the request over, and a scanner only puts a
request back when its lock has ended.

## Main definitions

* `Conversation.World.kept` — no request is lost.
* `Conversation.careful` — the condition.
* `Conversation.Safe` — the invariant.

## Main results

* `Conversation.kept_of_careful` — the runs in which every step is careful.
-/

namespace Yukino.CreativeAgent.Conversation

open Processes List Bool

/-! ## Requests that are kept -/

def World.undelivered (w : World) (asyncRequestID : String) : Bool :=
  (w.store.stream.drop w.store.delivered).any fun p => p.asyncRequestID = asyncRequestID

/-- The scanner has reset the request and is about to put it into the stream. -/
def requeues (asyncRequestID : String) : Call → Bool
  | .requeue p => p.asyncRequestID = asyncRequestID
  | _ => false

/-- A live process has the request: a worker that handles its message, or a scanner. -/
def Proc.handles (asyncRequestID : String) (proc : Proc) : Bool :=
  proc.alive && !proc.task.isDone &&
    (proc.payload.any (fun p => p.asyncRequestID = asyncRequestID) ||
      proc.task.Next (requeues asyncRequestID))

/-- Every request has its last status, or is in progress, or waits in the stream or in the hands of
a live process. -/
def World.kept (w : World) : Bool :=
  w.store.rows.all fun r => r.status ≠ .pending || w.undelivered r.asyncRequestID ||
    w.procs.any (Proc.handles r.asyncRequestID)

/-- The calls before which a process alone has the request. -/
def isHandOver : Call → Bool
  | .setNX _ _ => true
  | .takeover _ _ => true
  | .requeue _ => true
  | _ => false

/-- A worker does not crash between a message and the takeover, nor a scanner between the reset and
the message; and a request is reset only when nobody has its lock. -/
def careful (w : World) : Event → Bool
  | .crash i => !(w.procs[i]?.any fun proc => proc.task.Next isHandOver)
  | .call i _ =>
    match w.procs[i]? with
    | some ⟨_, .call (.resetForRetry id) _, _⟩ =>
      w.store.rows.all fun r => r.id ≠ id || !w.store.locked r.messageID
    | _ => true
  | _ => true

/-! ## Programs -/

section Duty

variable {payload : Option Payload} {zs : List AsyncRequest}

/-- A call names the request of the message, or a request that the scan has found. -/
def Fits (payload : Option Payload) (zs : List AsyncRequest) : Call → Prop
  | .setNX msgID _ => ∃ p, payload = some p ∧ msgID = p.msgID
  | .takeover asyncRequestID _ => ∃ p, payload = some p ∧ asyncRequestID = p.asyncRequestID
  | .requeue p => ∃ z ∈ zs, p = ⟨z.asyncRequestID, z.messageID⟩
  | .resetForRetry id => ∃ z ∈ zs, id = z.id
  | .markTerminal _ status => status ≠ .pending
  | _ => True

/-- The takeover follows the lock, and the message follows the reset. -/
def Leads (payload : Option Payload) (zs : List AsyncRequest) (t : Task Unit) :
    (c : Call) → Except CallError c.Answer → Prop
  | .setNX _ _, .ok true => ∃ p workerID k, payload = some p ∧
      t = .call (.takeover p.asyncRequestID workerID) k
  | .resetForRetry id, .ok _ => ∃ z ∈ zs, ∃ k, z.id = id ∧
      t = .call (.requeue ⟨z.asyncRequestID, z.messageID⟩) k
  | _, _ => True

/-- The requests that the scan has found. -/
def found (zs : List AsyncRequest) : (c : Call) → Except CallError c.Answer → List AsyncRequest
  | .listZombies, .ok zombies => zombies
  | _, _ => zs

def Dutiful (payload : Option Payload) : List AsyncRequest → Task Unit → Prop
  | _, .done _ => True
  | zs, .call c k => Fits payload zs c ∧
      ∀ r, Leads payload zs (k r) c r ∧ Dutiful payload (found zs c r) (k r)

lemma dutiful_finish (entry : ℕ) (p : Payload) (row : AsyncRequest) {status : AsyncStatus}
    (h : status ≠ .pending) : Dutiful payload zs (finish entry p row status) :=
  ⟨h, fun _ => ⟨trivial, trivial, fun _ => ⟨trivial, trivial, fun _ => ⟨trivial, trivial⟩⟩⟩⟩

lemma dutiful_process (entry : ℕ) (p : Payload) (row : AsyncRequest) :
    Dutiful payload zs (process entry p row) := by
  refine ⟨trivial, fun r => ⟨trivial, ?_⟩⟩
  cases r with
  | error e => exact dutiful_finish entry p row (by decide)
  | ok result =>
    cases result with
    | handled =>
      refine ⟨trivial, fun _ => ⟨trivial, trivial, fun _ => ⟨trivial, ?_⟩⟩⟩
      exact dutiful_finish entry p row (by decide)
    | failed => exact dutiful_finish entry p row (by decide)
    | finished =>
      refine ⟨trivial, fun _ => ⟨trivial, trivial, fun r => ⟨trivial, ?_⟩⟩⟩
      cases r with
      | ok _ => exact dutiful_finish entry p row (by decide)
      | error e =>
        cases e with
        | chunkExpired => exact dutiful_finish entry p row (by decide)
        | unavailable | conflict => exact ⟨trivial, fun _ => ⟨trivial, trivial⟩⟩

lemma dutiful_handleConversation (workerID : String) (entry : ℕ) (p : Payload) :
    Dutiful (some p) zs (handleConversation workerID entry p) := by
  have hack : Dutiful (some p) zs (.call (.ack entry) fun _ => .done ()) :=
    ⟨trivial, fun _ => ⟨trivial, trivial⟩⟩
  refine ⟨⟨p, rfl, rfl⟩, fun r => ?_⟩
  cases r with
  | error e => exact ⟨trivial, hack⟩
  | ok acquired =>
    cases acquired with
    | false => exact ⟨trivial, hack⟩
    | true =>
      refine ⟨⟨p, workerID, _, rfl, rfl⟩, ⟨p, rfl, rfl⟩, fun r => ⟨trivial, ?_⟩⟩
      cases r with
      | ok row => exact dutiful_process entry p row
      | error e => exact ⟨trivial, fun _ => ⟨trivial, hack⟩⟩

lemma dutiful_recover {z : AsyncRequest} {f : Unit → Task Unit} (hz : z ∈ zs)
    (hf : Dutiful payload zs (f ())) : Dutiful payload zs (recover z >>= f) := by
  unfold recover
  split_ifs
  · exact ⟨(fun h => nomatch h), fun _ => ⟨trivial, hf⟩⟩
  · refine ⟨trivial, fun r => ⟨trivial, ?_⟩⟩
    cases r with
    | error e => exact hf
    | ok ended =>
      cases ended with
      | true =>
        refine ⟨trivial, fun r => ⟨trivial, ?_⟩⟩
        cases r with
        | error | ok => exact ⟨(fun h => nomatch h), fun _ => ⟨trivial, hf⟩⟩
      | false =>
        refine ⟨⟨z, hz, rfl⟩, fun r => ?_⟩
        cases r with
        | error e => exact ⟨trivial, hf⟩
        | ok _ => exact ⟨⟨z, hz, _, rfl, rfl⟩, ⟨z, hz, rfl⟩, fun _ => ⟨trivial, hf⟩⟩

lemma dutiful_recoverAll {zs' : List AsyncRequest} (h : ∀ z ∈ zs', z ∈ zs) :
    Dutiful payload zs (recoverAll zs') := by
  induction zs' with
  | nil => trivial
  | cons z zs' ih =>
    exact dutiful_recover (h z mem_cons_self) (ih (forall_mem_cons.1 h).2)

lemma dutiful_scanOnce : Dutiful payload zs scanOnce := by
  refine ⟨trivial, fun r => ⟨trivial, ?_⟩⟩
  cases r with
  | error e => trivial
  | ok zombies => exact dutiful_recoverAll fun z hz => hz

end Duty

/-! ## The invariant -/

/-- What identifies a row. -/
def AsyncRequest.key (r : AsyncRequest) : ℕ × String × String :=
  (r.id, r.asyncRequestID, r.messageID)

def Store.keys (s : Store) : List (ℕ × String × String) :=
  s.rows.map AsyncRequest.key

/-- A process that alone has the request. -/
def Proc.holds (asyncRequestID : String) (proc : Proc) : Bool :=
  proc.alive &&
    match proc.task with
    | .call (.setNX _ _) _ => proc.payload.any fun p => p.asyncRequestID = asyncRequestID
    | .call (.takeover id _) _ => id = asyncRequestID
    | .call (.requeue p) _ => p.asyncRequestID = asyncRequestID
    | _ => false

/-- A worker with the lock that is about to take the request over. -/
def Proc.takes (asyncRequestID : String) (proc : Proc) : Bool :=
  proc.alive &&
    match proc.task with
    | .call (.takeover id _) _ => id = asyncRequestID
    | _ => false

/-- The message of a process and the requests that it has found belong to rows. -/
structure Belongs (keys : List (ℕ × String × String)) (proc : Proc) : Prop where
  payload : ∀ p, proc.payload = some p → ∃ id, (id, p.asyncRequestID, p.msgID) ∈ keys
  duty : ∃ zs, (∀ z ∈ zs, z.key ∈ keys) ∧ Dutiful proc.payload zs proc.task

/-- Rows have different ids, and messages, locks and processes belong to rows. -/
structure Named (w : World) : Prop where
  ids : ∀ a ∈ w.store.keys, a.1 < w.store.rows.length
  unique : ∀ a ∈ w.store.keys, ∀ b ∈ w.store.keys,
    a.1 = b.1 ∨ a.2.1 = b.2.1 ∨ a.2.2 = b.2.2 → a = b
  messages : ∀ p ∈ w.store.stream, ∃ id, (id, p.asyncRequestID, p.msgID) ∈ w.store.keys
  locks : ∀ l ∈ w.store.locks, ∃ a ∈ w.store.keys, a.2.2 = l.1
  procs : ∀ proc ∈ w.procs, Belongs w.store.keys proc

/-- A request that waits is in the stream or held by a process, and if it is locked, then by a
process that takes it over. -/
structure Waits (w : World) : Prop where
  delivered : w.store.delivered ≤ w.store.stream.length
  pending : ∀ r ∈ w.store.rows, r.status = .pending → w.undelivered r.asyncRequestID = true ∨
    ∃ proc ∈ w.procs, proc.holds r.asyncRequestID = true
  locked : ∀ r ∈ w.store.rows, r.status = .pending → w.store.locked r.messageID = true →
    ∃ proc ∈ w.procs, proc.takes r.asyncRequestID = true

structure Safe (w : World) : Prop where
  named : Named w
  waits : Waits w

section Stores

variable {s : Store}

lemma keys_modifyRows (P : AsyncRequest → Bool) {f : AsyncRequest → AsyncRequest}
    (h : ∀ r, (f r).key = r.key) : (s.modifyRows P f).keys = s.keys := by
  unfold Store.modifyRows Store.keys
  rw [map_map]
  refine map_congr_left fun r _ => ?_
  rw [Function.comp_apply]
  split_ifs
  · exact h r
  · rfl

/-- No call changes what identifies the rows. -/
lemma keys_answer (x : EngineResult) (c : Call) : (s.answer x c).1.keys = s.keys := by
  cases c with
  | setNX | rebuildChatText =>
    rw [Store.answer]
    split_ifs
    · rfl
    · rfl
  | takeover asyncRequestID workerID =>
    rw [Store.answer]
    cases s.rows.find? (Store.isOpen asyncRequestID) with
    | none => rfl
    | some r => exact keys_modifyRows _ fun r => rfl
  | markTerminal | resetForRetry => exact keys_modifyRows _ fun r => rfl
  | _ => rfl

/-- A call puts into the stream only what it names. -/
lemma mem_stream_answer {x : EngineResult} {c : Call} {p : Payload}
    (h : p ∈ (s.answer x c).1.stream) : p ∈ s.stream ∨ c = .requeue p := by
  cases c with
  | setNX | takeover | rebuildChatText =>
    rw [Store.answer] at h
    split at h
    · exact .inl h
    · exact .inl h
  | requeue p' =>
    rcases mem_append.1 h with h | h
    · exact .inl h
    · rw [mem_singleton.1 h]
      exact .inr rfl
  | _ => exact .inl h

/-- A call sets only the lock that it names. -/
lemma mem_locks_answer {x : EngineResult} {c : Call} {l : String × ℕ}
    (h : l ∈ (s.answer x c).1.locks) : l ∈ s.locks ∨ ∃ workerID, c = .setNX l.1 workerID := by
  cases c with
  | setNX msgID workerID =>
    rw [Store.answer] at h
    split_ifs at h
    · exact .inl h
    · rcases mem_cons.1 h with rfl | h
      · exact .inr ⟨workerID, rfl⟩
      · exact .inl (mem_filter.1 h).1
  | del msgID => exact .inl (mem_filter.1 h).1
  | takeover | rebuildChatText =>
    rw [Store.answer] at h
    split at h
    · exact .inl h
    · exact .inl h
  | _ => exact .inl h

end Stores

section Steps

variable {w : World} {i : ℕ} {proc : Proc} {payload : Option Payload} {c : Call}
  {zs : List AsyncRequest}
  {k : Except CallError c.Answer → Task Unit} {x : EngineResult}

/-! ## Rows and their names -/

variable {s' s : Store} {procs' procs : List Proc} {asyncRequestID msgID workerID : String}
  {new : Proc} {p : Payload}

lemma Named.of_keys (h : Named w)
    (hkeys : s'.keys = w.store.keys)
    (hmessages : ∀ p ∈ s'.stream, ∃ id, (id, p.asyncRequestID, p.msgID) ∈ w.store.keys)
    (hlocks : ∀ l ∈ s'.locks, ∃ a ∈ w.store.keys, a.2.2 = l.1)
    (hprocs : ∀ q ∈ procs', Belongs w.store.keys q) :
    Named ⟨s', procs'⟩ where
  ids := by
    have hlength := congrArg length hkeys
    rw [Store.keys, Store.keys, length_map, length_map] at hlength
    rw [hkeys, hlength]
    exact h.ids
  unique := hkeys ▸ h.unique
  messages := hkeys ▸ hmessages
  locks := hkeys ▸ hlocks
  procs := hkeys ▸ hprocs

/-- The calls of the processes keep the names. -/
lemma Named.call (h : Named w) (hproc : w.procs[i]? = some ⟨payload, .call c k, true⟩) :
    Named ⟨(w.store.answer x c).1, w.procs.set i ⟨payload, k (w.store.answer x c).2, true⟩⟩ := by
  obtain ⟨hpayload, zs, hzs, hfits, hnext⟩ := h.procs _ (mem_of_getElem? hproc)
  refine h.of_keys (keys_answer x c) ?_ ?_ ?_
  · intro p hp
    rcases mem_stream_answer hp with hp | rfl
    · exact h.messages p hp
    · obtain ⟨z, hz, rfl⟩ := hfits
      exact ⟨z.id, hzs z hz⟩
  · intro l hl
    rcases mem_locks_answer hl with hl | ⟨workerID, rfl⟩
    · exact h.locks l hl
    · obtain ⟨p, hp, hmsg⟩ := hfits
      obtain ⟨id, hmem⟩ := hpayload p hp
      exact ⟨_, hmem, hmsg.symm⟩
  · intro q hq
    rcases mem_or_eq_of_mem_set hq with hq | rfl
    · exact h.procs q hq
    · refine ⟨hpayload, _, ?_, (hnext _).2⟩
      cases c with
      | listZombies =>
        intro z hz
        exact mem_map_of_mem (mem_filter.1 hz).1
      | _ => exact hzs

/-- A row with new ids. -/
lemma Named.accept (h : Named w)
    (hnew : w.store.isNew asyncRequestID msgID = true) :
    Named { w with store := w.store.accept asyncRequestID msgID } := by
  have hkeys : (w.store.accept asyncRequestID msgID).keys =
      w.store.keys ++ [(w.store.rows.length, asyncRequestID, msgID)] := by
    simp [Store.accept, Store.keys, AsyncRequest.key]
  have hold : ∀ a ∈ w.store.keys,
      a.1 ≠ w.store.rows.length ∧ a.2.1 ≠ asyncRequestID ∧ a.2.2 ≠ msgID := by
    intro a ha
    refine ⟨Nat.ne_of_lt (h.ids a ha), ?_⟩
    obtain ⟨r, hr, rfl⟩ := mem_map.1 ha
    exact of_decide_eq_true (all_eq_true.1 hnew r hr)
  have hsub : ∀ a ∈ w.store.keys, a ∈ w.store.keys ++
      [(w.store.rows.length, asyncRequestID, msgID)] := fun a ha => mem_append_left _ ha
  have hself : (w.store.rows.length, asyncRequestID, msgID) ∈ w.store.keys ++
      [(w.store.rows.length, asyncRequestID, msgID)] := mem_append_right _ (by simp)
  refine ⟨?_, ?_, ?_, ?_, ?_⟩
  · rw [hkeys]
    intro a ha
    have hlength : (w.store.accept asyncRequestID msgID).rows.length =
        w.store.rows.length + 1 := by simp [Store.accept]
    rw [hlength]
    rcases mem_append.1 ha with ha | ha
    · exact Nat.lt_succ_of_lt (h.ids a ha)
    · rw [mem_singleton.1 ha]
      exact Nat.lt_succ_self _
  · rw [hkeys]
    intro a ha b hb hab
    rcases mem_append.1 ha with ha | ha <;> rcases mem_append.1 hb with hb | hb
    · exact h.unique a ha b hb hab
    · rw [mem_singleton.1 hb] at hab
      obtain ⟨h1, h2, h3⟩ := hold a ha
      exact absurd hab (by simp [h1, h2, h3])
    · rw [mem_singleton.1 ha] at hab
      obtain ⟨h1, h2, h3⟩ := hold b hb
      exact absurd hab (by simp [h1.symm, h2.symm, h3.symm])
    · rw [mem_singleton.1 ha, mem_singleton.1 hb]
  · rw [hkeys]
    intro p hp
    rcases mem_append.1 hp with hp | hp
    · obtain ⟨id, hid⟩ := h.messages p hp
      exact ⟨id, hsub _ hid⟩
    · rw [mem_singleton.1 hp]
      exact ⟨_, hself⟩
  · rw [hkeys]
    intro l hl
    obtain ⟨a, ha, hmsg⟩ := h.locks l hl
    exact ⟨a, hsub a ha, hmsg⟩
  · rw [hkeys]
    intro q hq
    obtain ⟨hpayload, zs, hzs, hduty⟩ := h.procs q hq
    refine ⟨fun p hp => ?_, zs, fun z hz => hsub _ (hzs z hz), hduty⟩
    obtain ⟨id, hid⟩ := hpayload p hp
    exact ⟨id, hsub _ hid⟩

/-! ## Steps that nobody waits for -/

lemma holds_of_takes (h : proc.takes asyncRequestID = true) : proc.holds asyncRequestID = true := by
  obtain ⟨payload, task, alive⟩ := proc
  cases task with
  | done a => exact absurd h (by simp [Proc.takes])
  | call c k =>
    cases c with
    | takeover id workerID => exact h
    | _ => exact absurd h (by simp [Proc.takes])

lemma holds_eq_false (h : proc.task.Next isHandOver = false) :
    proc.holds asyncRequestID = false := by
  obtain ⟨payload, task, alive⟩ := proc
  cases task with
  | done a => simp [Proc.holds]
  | call c k =>
    cases c with
    | setNX | takeover | requeue => cases h
    | _ => simp [Proc.holds]

/-- No row begins to wait, and no lock is set. -/
structure Calm (s s' : Store) : Prop where
  stream : s'.stream = s.stream
  delivered : s'.delivered = s.delivered
  pending : ∀ r' ∈ s'.rows, r'.status = .pending → ∃ r ∈ s.rows, r.status = .pending ∧
    r.asyncRequestID = r'.asyncRequestID ∧ r.messageID = r'.messageID
  locked : ∀ msgID, s'.locked msgID = true → s.locked msgID = true

lemma Calm.of_rows (hstream : s'.stream = s.stream)
    (hdelivered : s'.delivered = s.delivered) (hrows : s'.rows = s.rows)
    (hlocked : ∀ msgID, s'.locked msgID = true → s.locked msgID = true) : Calm s s' := by
  refine ⟨hstream, hdelivered, ?_, hlocked⟩
  rw [hrows]
  exact fun r hr hp => ⟨r, hr, hp, rfl, rfl⟩

lemma Calm.modifyRows (P : AsyncRequest → Bool) {f : AsyncRequest → AsyncRequest}
    (hkey : ∀ r, (f r).key = r.key)
    (hstatus : ∀ r, (f r).status = .pending → r.status = .pending) :
    Calm s (s.modifyRows P f) := by
  refine ⟨rfl, rfl, ?_, fun msgID h => h⟩
  intro r' hr' hp
  obtain ⟨r, hr, rfl⟩ := mem_map.1 hr'
  split_ifs at hp ⊢
  · have hids := hkey r
    simp only [AsyncRequest.key, Prod.mk.injEq] at hids
    exact ⟨r, hr, hstatus r hp, hids.2.1.symm, hids.2.2.symm⟩
  · exact ⟨r, hr, hp, rfl, rfl⟩

/-- **Calm steps.** -/
lemma Waits.calm (h : Waits w) (hcalm : Calm w.store s')
    (hholds : ∀ id, (∃ q ∈ w.procs, q.holds id = true) → ∃ q ∈ procs', q.holds id = true)
    (htakes : ∀ id, (∃ q ∈ w.procs, q.takes id = true) → ∃ q ∈ procs', q.takes id = true) :
    Waits ⟨s', procs'⟩ := by
  refine ⟨?_, ?_, ?_⟩
  · rw [hcalm.delivered, hcalm.stream]
    exact h.delivered
  · intro r' hr' hp
    obtain ⟨r, hr, hpending, hrequest, -⟩ := hcalm.pending r' hr' hp
    rw [World.undelivered, hcalm.delivered, hcalm.stream, ← hrequest]
    exact (h.pending r hr hpending).imp_right (hholds _)
  · intro r' hr' hp hlocked
    obtain ⟨r, hr, hpending, hrequest, hmessage⟩ := hcalm.pending r' hr' hp
    rw [← hrequest]
    refine htakes _ (h.locked r hr hpending ?_)
    rw [hmessage]
    exact hcalm.locked _ hlocked

/-- A calm step of a process that holds nothing. -/
lemma Waits.set (h : Waits w) (hcalm : Calm w.store s')
    (hproc : w.procs[i]? = some proc) (hnext : proc.task.Next isHandOver = false) :
    Waits ⟨s', w.procs.set i new⟩ := by
  refine h.calm hcalm (fun id => exists_set hproc fun hp => ?_)
    (fun id => exists_set hproc fun hp => ?_)
  · rw [holds_eq_false hnext] at hp
    cases hp
  · have hhold := holds_of_takes hp
    rw [holds_eq_false hnext] at hhold
    cases hhold

/-- What a call that is no step of a handover does to the store. -/
lemma calm_answer (s : Store) (x : EngineResult) (hnext : isHandOver c = false)
    (hreset : ∀ id, c ≠ .resetForRetry id) (hfits : Fits payload zs c) :
    Calm s (s.answer x c).1 := by
  cases c with
  | setNX | takeover | requeue => cases hnext
  | resetForRetry id => exact absurd rfl (hreset id)
  | markTerminal id status =>
    exact Calm.modifyRows _ (fun r => rfl) fun r hp => absurd hp hfits
  | del msgID =>
    refine Calm.of_rows rfl rfl rfl fun m hm => ?_
    obtain ⟨l, hl, hm⟩ := any_eq_true.1 hm
    exact any_eq_true.2 ⟨l, (mem_filter.1 hl).1, hm⟩
  | rebuildChatText msgID =>
    rw [Store.answer]
    split_ifs <;> exact Calm.of_rows rfl rfl rfl fun m hm => hm
  | _ => exact Calm.of_rows rfl rfl rfl fun m hm => hm

/-! ## Steps of a handover -/

/-- The row of a request. -/
lemma Named.key_eq {a : ℕ × String × String} {r : AsyncRequest} (h : Named w)
    (hr : r ∈ w.store.rows) (ha : a ∈ w.store.keys)
    (hid : r.id = a.1 ∨ r.asyncRequestID = a.2.1 ∨ r.messageID = a.2.2) : r.key = a :=
  h.unique r.key (mem_map_of_mem hr) a ha hid

/-- A worker that does not get the lock drops a message that another one has in hand. -/
lemma Waits.setNX_false {k : Except CallError Bool → Task Unit} (h : Safe w)
    (hproc : w.procs[i]? = some ⟨payload, .call (.setNX msgID workerID) k, true⟩)
    (hlocked : w.store.locked msgID = true) :
    Waits ⟨w.store, w.procs.set i new⟩ := by
  obtain ⟨hpayload, zs, -, ⟨p, hp, rfl⟩, -⟩ := h.named.procs _ (mem_of_getElem? hproc)
  obtain ⟨id, hid⟩ := hpayload p hp
  cases hp
  have htakes : ∀ id, (∃ q ∈ w.procs, q.takes id = true) →
      ∃ q ∈ w.procs.set i new, q.takes id = true :=
    fun id => exists_set hproc fun hp => by cases hp
  refine ⟨h.waits.delivered, ?_, fun r hr hp hl => htakes _ (h.waits.locked r hr hp hl)⟩
  intro r hr hpending
  refine (h.waits.pending r hr hpending).imp_right fun hheld => ?_
  by_cases hrequest : p.asyncRequestID = r.asyncRequestID
  · -- the message is about this row, so the lock is that of the row
    have hkey := h.named.key_eq hr hid (.inr (.inl hrequest.symm))
    have hmessage : r.messageID = p.msgID := congrArg (fun a => a.2.2) hkey
    obtain ⟨q, hmem, hq⟩ := htakes _ (h.waits.locked r hr hpending (hmessage ▸ hlocked))
    exact ⟨q, hmem, holds_of_takes hq⟩
  · refine exists_set hproc (fun hold => ?_) hheld
    simp [Proc.holds, hrequest] at hold

lemma locked_setLock {m : String} (h : (s.setLock msgID).locked m = true) :
    m = msgID ∨ s.locked m = true := by
  obtain ⟨l, hl, hm⟩ := any_eq_true.1 h
  rcases mem_cons.1 hl with rfl | hl
  · exact .inl (of_decide_eq_true hm).1.symm
  · exact .inr (any_eq_true.2 ⟨l, (mem_filter.1 hl).1, hm⟩)

/-- A worker that gets the lock goes on to the takeover. -/
lemma Waits.setNX_true {k : Except CallError Bool → Task Unit} (h : Safe w)
    (hproc : w.procs[i]? = some ⟨payload, .call (.setNX msgID workerID) k, true⟩) :
    Waits ⟨w.store.setLock msgID, w.procs.set i ⟨payload, k (.ok true), true⟩⟩ := by
  obtain ⟨hpayload, zs, -, ⟨p, hp, rfl⟩, hnext⟩ := h.named.procs _ (mem_of_getElem? hproc)
  obtain ⟨id, hid⟩ := hpayload p hp
  obtain ⟨p', workerID', k', hp', hk⟩ := (hnext (.ok true)).1
  cases hp
  cases hp'
  rw [hk]
  have hlt := (List.getElem?_eq_some_iff.1 hproc).1
  refine ⟨h.waits.delivered, ?_, ?_⟩
  · intro r hr hpending
    refine (h.waits.pending r hr hpending).imp_right (exists_set hproc fun hold => ?_)
    simpa [Proc.holds] using hold
  · intro r hr hpending hlocked
    rcases locked_setLock hlocked with hmessage | hlocked
    · have hkey := h.named.key_eq hr hid (.inr (.inr hmessage))
      have hrequest : r.asyncRequestID = p.asyncRequestID := congrArg (fun a => a.2.1) hkey
      exact ⟨_, mem_set hlt _, by simp [Proc.takes, hrequest]⟩
    · exact exists_set hproc (fun hold => by cases hold) (h.waits.locked r hr hpending hlocked)

section Takeover

variable {k : Except CallError AsyncRequest → Task Unit} (h : Safe w)
  (hproc : w.procs[i]? = some ⟨payload, .call (.takeover asyncRequestID workerID) k, true⟩)
include h hproc

/-- A worker leaves a request that does not wait any more. -/
lemma Waits.leave {rows : List AsyncRequest} (hrows : ∀ r ∈ rows, r.status = .pending →
      r ∈ w.store.rows ∧ r.asyncRequestID ≠ asyncRequestID) :
    Waits ⟨{ w.store with rows := rows }, w.procs.set i new⟩ := by
  refine ⟨h.waits.delivered, ?_, ?_⟩
  · intro r hr hp
    obtain ⟨hr, hne⟩ := hrows r hr hp
    refine (h.waits.pending r hr hp).imp_right (exists_set hproc fun hold => ?_)
    exact absurd (of_decide_eq_true hold).symm hne
  · intro r hr hp hlocked
    obtain ⟨hr, hne⟩ := hrows r hr hp
    refine exists_set hproc (fun hold => ?_) (h.waits.locked r hr hp hlocked)
    exact absurd (of_decide_eq_true hold).symm hne

/-- A request that is taken over does not wait any more. -/
lemma Waits.takeover :
    Waits ⟨w.store.modifyRows (Store.isOpen asyncRequestID) (w.store.takenOver workerID),
      w.procs.set i new⟩ := by
  refine Waits.leave h hproc fun r' hr' hp => ?_
  obtain ⟨r, hr, rfl⟩ := mem_map.1 hr'
  split_ifs at hp ⊢ with hopen
  · cases hp
  · exact ⟨hr, fun hid => hopen (decide_eq_true ⟨hid, hp⟩)⟩

/-- No request is taken over. -/
lemma Waits.conflict
    (hfind : w.store.rows.find? (Store.isOpen asyncRequestID) = none) :
    Waits ⟨w.store, w.procs.set i new⟩ :=
  Waits.leave h hproc fun r hr hp =>
    ⟨hr, fun hid => find?_eq_none.1 hfind r hr (decide_eq_true ⟨hid, hp⟩)⟩

end Takeover

lemma undelivered_push
    (hdelivered : s.delivered ≤ s.stream.length) (asyncRequestID : String) :
    (World.mk (s.push p) procs).undelivered asyncRequestID =
      ((World.mk s procs).undelivered asyncRequestID || p.asyncRequestID = asyncRequestID) := by
  simp only [World.undelivered, Store.push, drop_append_of_le_length hdelivered,
    any_append, any_cons, any_nil, Bool.or_false]

/-- A scanner that puts the message into the stream hands the request over to it. -/
lemma Waits.requeue {k : Except CallError Unit → Task Unit} (h : Safe w)
    (hproc : w.procs[i]? = some ⟨payload, .call (.requeue p) k, true⟩) :
    Waits ⟨w.store.push p, w.procs.set i new⟩ := by
  refine ⟨?_, ?_, ?_⟩
  · rw [Store.push, length_append]
    exact Nat.le_add_right_of_le h.waits.delivered
  · intro r hr hp
    rw [undelivered_push h.waits.delivered, or_eq_true]
    by_cases hrequest : p.asyncRequestID = r.asyncRequestID
    · exact .inl (.inr (decide_eq_true hrequest))
    · refine (h.waits.pending r hr hp).imp .inl (exists_set hproc fun hold => ?_)
      exact absurd (of_decide_eq_true hold) hrequest
  · intro r hr hp hlocked
    exact exists_set hproc (fun hold => by cases hold) (h.waits.locked r hr hp hlocked)

/-- A scanner that resets a row goes on to put its message into the stream. -/
lemma Waits.resetForRetry {id : ℕ} {k : Except CallError Unit → Task Unit} (h : Safe w)
    (hproc : w.procs[i]? = some ⟨payload, .call (.resetForRetry id) k, true⟩)
    (hfree : ∀ r ∈ w.store.rows, r.id = id → w.store.locked r.messageID = false) :
    Waits ⟨(w.store.answer x (.resetForRetry id)).1,
      w.procs.set i ⟨payload, k (.ok ()), true⟩⟩ := by
  obtain ⟨-, zs, hzs, -, hnext⟩ := h.named.procs _ (mem_of_getElem? hproc)
  obtain ⟨z, hz, k', hid, hk⟩ := (hnext (.ok ())).1
  rw [hk]
  have hlt := (List.getElem?_eq_some_iff.1 hproc).1
  refine ⟨h.waits.delivered, ?_, ?_⟩
  · intro r' hr' hp
    obtain ⟨r, hr, rfl⟩ := mem_map.1 hr'
    split_ifs at hp ⊢ with hrow
    · have hkey := h.named.key_eq hr (hzs z hz) (.inl ((of_decide_eq_true hrow).trans hid.symm))
      have hrequest : z.asyncRequestID = r.asyncRequestID :=
        (congrArg (fun a => a.2.1) hkey).symm
      refine .inr ⟨_, mem_set hlt _, ?_⟩
      simp [Proc.holds, hrequest]
    · refine (h.waits.pending r hr hp).imp_right (exists_set hproc fun hold => ?_)
      cases hold
  · intro r' hr' hp hlocked
    obtain ⟨r, hr, rfl⟩ := mem_map.1 hr'
    split_ifs at hp hlocked ⊢ with hrow
    · have hheld : w.store.locked r.messageID = true := hlocked
      rw [hfree r hr (of_decide_eq_true hrow)] at hheld
      cases hheld
    · exact exists_set hproc (fun hold => by cases hold) (h.waits.locked r hr hp hlocked)

/-- **Calls of the processes.** -/
lemma Waits.call (h : Safe w) (hproc : w.procs[i]? = some ⟨payload, .call c k, true⟩)
    (hok : careful w (.call i x) = true) :
    Waits ⟨(w.store.answer x c).1, w.procs.set i ⟨payload, k (w.store.answer x c).2, true⟩⟩ := by
  obtain ⟨-, zs, -, hfits, -⟩ := h.named.procs _ (mem_of_getElem? hproc)
  cases c with
  | setNX msgID workerID =>
    rw [Store.answer]
    split_ifs with hlocked
    · exact Waits.setNX_false h hproc hlocked
    · exact Waits.setNX_true h hproc
  | takeover asyncRequestID workerID =>
    rw [Store.answer]
    cases hfind : w.store.rows.find? (Store.isOpen asyncRequestID) with
    | none => exact Waits.conflict h hproc hfind
    | some r => exact Waits.takeover h hproc
  | requeue p => exact Waits.requeue h hproc
  | resetForRetry id =>
    refine Waits.resetForRetry h hproc fun r hr hid => ?_
    rw [careful, hproc] at hok
    simpa [hid] using all_eq_true.1 hok r hr
  | _ =>
    exact h.waits.set (calm_answer _ x rfl (fun id heq => by cases heq) hfits) hproc rfl

/-! ## Other steps -/

lemma Safe.accept (h : Safe w)
    (hnew : w.store.isNew asyncRequestID msgID = true) :
    Safe { w with store := w.store.accept asyncRequestID msgID } := by
  have hfree : w.store.locked msgID = false := by
    refine eq_false_iff.2 fun hlocked => ?_
    obtain ⟨l, hl, hm⟩ := any_eq_true.1 hlocked
    obtain ⟨a, ha, hmsg⟩ := h.named.locks l hl
    obtain ⟨r, hr, rfl⟩ := mem_map.1 ha
    have hne := (of_decide_eq_true (all_eq_true.1 hnew r hr)).2
    exact hne (hmsg.trans (of_decide_eq_true hm).1)
  have hundelivered : ∀ id, World.undelivered
      { w with store := w.store.accept asyncRequestID msgID } id =
        (w.undelivered id || asyncRequestID = id) := fun id =>
    undelivered_push (s := w.store) (p := ⟨asyncRequestID, msgID⟩) h.waits.delivered id
  refine ⟨h.named.accept hnew, ?_, ?_, ?_⟩
  · rw [Store.accept, length_append]
    exact Nat.le_add_right_of_le h.waits.delivered
  · intro r hr hp
    rw [hundelivered, or_eq_true]
    rcases mem_append.1 hr with hr | hr
    · exact (h.waits.pending r hr hp).imp_left .inl
    · rw [mem_singleton.1 hr]
      exact .inl (.inr (decide_eq_true rfl))
  · intro r hr hp hlocked
    rcases mem_append.1 hr with hr | hr
    · exact h.waits.locked r hr hp hlocked
    · rw [mem_singleton.1 hr] at hlocked
      have hheld : w.store.locked msgID = true := hlocked
      rw [hfree] at hheld
      cases hheld

/-- What some process has, some process has after a new one is started. -/
lemma exists_append {P : Proc → Prop} (new : Proc) (h : ∃ q ∈ procs, P q) :
    ∃ q ∈ procs ++ [new], P q := by
  obtain ⟨q, hq, hP⟩ := h
  exact ⟨q, mem_append_left _ hq, hP⟩

lemma Named.start (h : Named w) (hkeys : s'.keys = w.store.keys)
    (hstream : s'.stream = w.store.stream) (hlocks : s'.locks = w.store.locks)
    (hnew : Belongs w.store.keys new) : Named ⟨s', w.procs ++ [new]⟩ := by
  refine h.of_keys hkeys (hstream ▸ h.messages) (hlocks ▸ h.locks) fun q hq => ?_
  rcases mem_append.1 hq with hq | hq
  · exact h.procs q hq
  · rw [mem_singleton.1 hq]
    exact hnew

/-- The worker that gets a message holds its request. -/
lemma Safe.receive (h : Safe w)
    (hp : w.store.stream[w.store.delivered]? = some p) :
    Safe ⟨{ w.store with delivered := w.store.delivered + 1 },
      w.procs ++ [⟨some p, handleConversation workerID w.store.delivered p, true⟩]⟩ := by
  have hlt := (List.getElem?_eq_some_iff.1 hp).1
  have hmem := mem_of_getElem? hp
  refine ⟨?_, hlt, ?_, ?_⟩
  · refine h.named.start rfl rfl rfl ⟨fun p' hp' => ?_, [], by simp,
      dutiful_handleConversation workerID _ p⟩
    cases hp'
    exact h.named.messages p hmem
  · intro r hr hpending
    rcases h.waits.pending r hr hpending with hu | hheld
    · rw [World.undelivered, drop_eq_getElem_cons hlt, any_cons, or_eq_true] at hu
      rcases hu with hu | hu
      · refine .inr ⟨_, mem_append_right _ mem_cons_self, ?_⟩
        rw [(List.getElem?_eq_some_iff.1 hp).2] at hu
        exact hu
      · exact .inl hu
    · exact .inr (exists_append _ hheld)
  · intro r hr hpending hlocked
    exact exists_append _ (h.waits.locked r hr hpending hlocked)

lemma Safe.startScan (h : Safe w) :
    Safe { w with procs := w.procs ++ [⟨none, scanOnce, true⟩] } := by
  refine ⟨h.named.start rfl rfl rfl ⟨?_, [], by simp, dutiful_scanOnce⟩, ?_⟩
  · intro p hp
    cases hp
  · exact h.waits.calm (Calm.of_rows rfl rfl rfl fun _ hm => hm) (fun _ => exists_append _)
      fun _ => exists_append _

/-- A step of no process. -/
lemma Safe.store (h : Safe w) (hcalm : Calm w.store s')
    (hkeys : s'.keys = w.store.keys)
    (hlocks : ∀ l ∈ s'.locks, ∃ a ∈ w.store.keys, a.2.2 = l.1) : Safe { w with store := s' } :=
  ⟨h.named.of_keys hkeys (hcalm.stream ▸ h.named.messages) hlocks h.named.procs,
    h.waits.calm hcalm (fun _ hq => hq) fun _ hq => hq⟩

lemma Safe.crash {task : Task Unit} (h : Safe w)
    (hproc : w.procs[i]? = some ⟨payload, task, true⟩)
    (hok : careful w (.crash i) = true) :
    Safe { w with procs := w.procs.set i ⟨payload, task, false⟩ } := by
  rw [careful, hproc, not_eq_true'] at hok
  refine ⟨?_, h.waits.set (Calm.of_rows rfl rfl rfl fun _ hm => hm) hproc hok⟩
  refine h.named.of_keys rfl h.named.messages h.named.locks fun q hq => ?_
  rcases mem_or_eq_of_mem_set hq with hq | rfl
  · exact h.named.procs q hq
  · obtain ⟨hpayload, hduty⟩ := h.named.procs _ (mem_of_getElem? hproc)
    exact ⟨hpayload, hduty⟩

/-- A heartbeat sets no lock that does not exist. -/
lemma Safe.expire (h : Safe w) : Safe { w with store := w.store.expire p.msgID } := by
  unfold Store.expire
  split_ifs with hlocked
  · refine h.store (Calm.of_rows rfl rfl rfl fun m hm => ?_) rfl ?_
    · rcases locked_setLock hm with rfl | hm
      · exact hlocked
      · exact hm
    · intro l hl
      rcases mem_cons.1 hl with rfl | hl
      · obtain ⟨l, hl, hm⟩ := any_eq_true.1 hlocked
        rw [← (of_decide_eq_true hm).1]
        exact h.named.locks l hl
      · exact h.named.locks l (mem_filter.1 hl).1
  · exact h

lemma locked_tick {ms : ℕ}
    (h : Store.locked { s with now := s.now + ms } msgID = true) : s.locked msgID = true := by
  obtain ⟨l, hl, hm⟩ := any_eq_true.1 h
  obtain ⟨hname, hlt⟩ := of_decide_eq_true hm
  have hlive : s.now < l.2 := Nat.lt_of_le_of_lt (Nat.le_add_right s.now ms) hlt
  exact any_eq_true.2 ⟨l, hl, decide_eq_true ⟨hname, hlive⟩⟩

end Steps

/-! ## Runs -/

/-- **Every careful step keeps the invariant.** -/
lemma Safe.advance {w w' : World} {e : Event} (h : Safe w) (hok : careful w e = true)
    (hstep : advance w e = some w') : Safe w' := by
  cases e with
  | accept asyncRequestID msgID =>
    rw [Conversation.advance] at hstep
    split_ifs at hstep with hnew
    cases hstep
    exact h.accept hnew
  | receive workerID =>
    rw [Conversation.advance] at hstep
    split at hstep
    · cases hstep
    · rename_i p hp
      cases hstep
      exact h.receive hp
  | startScan =>
    cases hstep
    exact h.startScan
  | call i x =>
    rw [Conversation.advance] at hstep
    split at hstep
    · rename_i payload c k hproc
      cases hstep
      exact ⟨h.named.call hproc, Waits.call h hproc hok⟩
    · cases hstep
  | crash i =>
    rw [Conversation.advance] at hstep
    split at hstep
    · rename_i payload task hproc
      cases hstep
      exact h.crash hproc hok
    · cases hstep
  | renewLock i =>
    rw [Conversation.advance] at hstep
    split at hstep
    · cases hstep
      exact h.expire
    · cases hstep
  | renewRow i =>
    rw [Conversation.advance] at hstep
    split at hstep
    · cases hstep
      exact h.store (Calm.modifyRows _ (fun r => rfl) fun r hp => hp)
        (keys_modifyRows _ fun r => rfl) h.named.locks
    · cases hstep
  | tick ms =>
    cases hstep
    exact h.store (Calm.of_rows rfl rfl rfl fun m hm => locked_tick hm) rfl h.named.locks
  | chunksExpire msgID =>
    cases hstep
    exact h.store (Calm.of_rows rfl rfl rfl fun m hm => hm) rfl h.named.locks

lemma safe_initial : Safe initial := by
  refine ⟨⟨?_, ?_, ?_, ?_, ?_⟩, Nat.le_refl 0, ?_, ?_⟩ <;> intro a ha
  all_goals cases ha

/-- A process that holds a request handles it. -/
lemma Named.handles_of_holds {w : World} {proc : Proc} {asyncRequestID : String}
    (h : Named w) (hproc : proc ∈ w.procs) (hheld : proc.holds asyncRequestID = true) :
    proc.handles asyncRequestID = true := by
  obtain ⟨payload, task, alive⟩ := proc
  obtain ⟨-, zs, -, hduty⟩ := h.procs _ hproc
  rw [Proc.holds, and_eq_true] at hheld
  obtain ⟨rfl, hheld⟩ := hheld
  cases task with
  | done a => cases hheld
  | call c k =>
    cases c with
    | setNX msgID workerID =>
      rw [Proc.handles, and_eq_true, or_eq_true]
      exact ⟨rfl, .inl hheld⟩
    | takeover id workerID =>
      obtain ⟨p, rfl, rfl⟩ := hduty.1
      rw [Proc.handles, and_eq_true, or_eq_true]
      exact ⟨rfl, .inl hheld⟩
    | requeue p =>
      rw [Proc.handles, and_eq_true, or_eq_true]
      exact ⟨rfl, .inr hheld⟩
    | _ => cases hheld

lemma Safe.kept {w : World} (h : Safe w) : w.kept = true := by
  refine all_eq_true.2 fun r hr => ?_
  by_cases hp : r.status = .pending
  · rw [or_eq_true, or_eq_true]
    rcases h.waits.pending r hr hp with hu | ⟨proc, hproc, hheld⟩
    · exact .inl (.inr hu)
    · exact .inr (any_eq_true.2 ⟨proc, hproc, h.named.handles_of_holds hproc hheld⟩)
  · simp [hp]

/-- **Careful workers lose no request.**

**Proof sketch.** A request that waits is in the stream or held by one process. The process goes
from the message to the lock and on to the takeover; when it does not get the lock, another process
has it, and that one is about to take the request over, since a request is reset only when its lock
has ended. -/
theorem kept_of_careful (events : List Event) (w : World)
    (hok : Runs.along advance careful initial events = true)
    (hrun : Runs.run advance initial events = some w) : w.kept = true :=
  (Runs.along_invariant (fun _ _ _ h hok hstep => Safe.advance h hok hstep) safe_initial hok
    hrun).kept

/-- A worker crashes in the middle of a request, and the scanner hands the request over to another
worker when the lock has ended. -/
def recovery : List Event :=
  [.accept "request" "message", .receive "worker", .call 0 .finished, .call 0 .finished, .crash 0,
    .tick 31000, .startScan, .call 1 .finished, .call 1 .finished, .call 1 .finished,
    .call 1 .finished, .receive "worker", .call 2 .finished, .call 2 .finished, .call 2 .finished,
    .call 2 .finished, .call 2 .finished, .call 2 .finished]

theorem kept_of_careful_recovery :
    (Runs.run advance initial recovery).any (fun w => w.kept &&
      w.store.rows.all fun r => r.status = .completed) = true := by
  obtain ⟨w, hrun, hdone⟩ : ∃ w, Runs.run advance initial recovery = some w ∧
      (w.store.rows.all fun r => r.status = .completed) = true := by decide +kernel
  rw [hrun, Option.any_some, hdone, Bool.and_true]
  exact kept_of_careful recovery w (by decide +kernel) hrun

/-- The scanner puts the request back while the lock of the worker that crashed is still there: the
next worker does not get it and drops the message. A worker that crashes at once leaves a message
that is not delivered again. -/
theorem request_lost :
    (Runs.run advance initial
      [.accept "request" "message", .receive "worker", .call 0 .finished, .call 0 .finished,
        .crash 0, .tick 16000, .startScan, .call 1 .finished, .call 1 .finished, .call 1 .finished,
        .call 1 .finished, .receive "worker", .call 2 .finished, .call 2 .finished]).any
      (fun w => !w.kept) = true ∧
    (Runs.run advance initial [.accept "request" "message", .receive "worker", .crash 0]).any
      (fun w => !w.kept) = true := by
  decide +kernel

end Yukino.CreativeAgent.Conversation
