import Yukino.AgentProxy.ClaudeBridge

set_option autoImplicit false

/-!
# The streams of the Claude bridge are well formed

Whatever the upstream sends, the events that `ChatStream` and `ResponsesStream` have given to the
sink are the beginning of the stream of an Anthropic message, and all of it if the function returns
no error.

## Main definitions

* `Claude.Live`, `Claude.Done` — the emitter while a message is
  streamed, and after it.

## Main results

* `Claude.triple_text`, `triple_thinkingItem`, `triple_tool`, `triple_finish` —
  what the functions of the emitter do to its state.
* `Claude.streams_wellFormed` — the streams are well formed.

## Design

Each function of the emitter has one triple. Its error condition is always `Partial`: the events
sent so far can be completed. A function may fail in the middle of a block, so the state of the
emitter says nothing then.
-/

namespace Yukino.AgentProxy.Claude

open AnthropicStream (Event Block Delta Usage Valid phase phase_append Phase)
open Json (Object field has)
open Hoare

/-! ## States of the emitter -/

/-- Nothing has been sent. -/
def Fresh (e : Emitter) : Prop :=
  e.finished = false ∧ e.started = false ∧ e.textKind = none ∧ e.textIndex = -1 ∧ e.next = 0 ∧
    e.sent = []

/-- No block is open. -/
def Idle (e : Emitter) : Prop :=
  e.finished = false ∧ e.started = true ∧ e.textKind = none ∧ e.textIndex = -1 ∧ 0 ≤ e.next ∧
    phase e.sent = some (.idle e.next)

/-- A text block is open. -/
def InText (kind : Kind) (e : Emitter) : Prop :=
  e.finished = false ∧ e.started = true ∧ e.textKind = some kind ∧ 0 ≤ e.textIndex ∧
    e.next = e.textIndex + 1 ∧ phase e.sent = some (.inBlock e.textIndex)

/-- The message has begun. -/
def Begun (e : Emitter) : Prop :=
  Idle e ∨ ∃ kind, InText kind e

/-- The message is not finished. -/
def Live (e : Emitter) : Prop :=
  Fresh e ∨ Begun e

/-- The message is finished. -/
def Done (e : Emitter) : Prop :=
  e.finished = true ∧ phase e.sent = some .stopped

/-- What has been sent can be completed. -/
def Partial (e : Emitter) : Prop :=
  ∃ p, phase e.sent = some p

/-- A property of the emitter. -/
def On {V : Type} (P : Emitter → Prop) (s : Run V) : Prop :=
  P s.emitter

/-- The computation takes the emitter from `P` to `Q`, and what it has sent can always be
completed. -/
abbrev Leads {V α : Type} (P : Emitter → Prop) (m : M V α) (Q : Emitter → Prop) : Prop :=
  Triple (On P) m (fun _ => On Q) (On Partial)

variable {e : Emitter} {kind : Kind}

lemma Idle.partial (h : Idle e) : Partial e :=
  ⟨_, h.2.2.2.2.2⟩

lemma InText.partial (h : InText kind e) : Partial e :=
  ⟨_, h.2.2.2.2.2⟩

lemma Begun.partial : Begun e → Partial e
  | .inl h => h.partial
  | .inr ⟨_, h⟩ => h.partial

lemma Live.partial : Live e → Partial e
  | .inl h => ⟨.initial, by rw [h.2.2.2.2.2]; rfl⟩
  | .inr h => h.partial

lemma Done.partial (h : Done e) : Partial e :=
  ⟨_, h.2⟩

lemma Live.not_finished : Live e → e.finished = false
  | .inl h => h.1
  | .inr (.inl h) => h.1
  | .inr (.inr ⟨_, h⟩) => h.1

lemma Begun.inText (h : Begun e) (hkind : e.textKind = some kind) : InText kind e := by
  rcases h with h | ⟨kind', h⟩
  · rw [h.2.2.1] at hkind
    cases hkind
  · rw [h.2.2.1, Option.some.injEq] at hkind
    exact hkind ▸ h

lemma Idle.live (h : Idle e) : Live e :=
  .inr (.inl h)

lemma InText.live (h : InText kind e) : Live e :=
  .inr (.inr ⟨kind, h⟩)

/-! ## Rules -/

section Rules

variable {ν V β : Type} {env : Env ν} {P Q : Emitter → Prop} {R : β → Run V → Prop}
  {E : Run V → Prop}

/-- Reading the emitter. -/
lemma triple_emitter_bind {f : Emitter → M V β}
    (h : ∀ e, P e → Triple (On (· = e)) (f e) R E) : Triple (On P) (emitter >>= f) R E :=
  fun s hs => h s.emitter hs s rfl

variable {f : Emitter → Emitter} {e : Emitter} {event : Event} {g : PUnit → M V β}

lemma triple_modifyEmitter (h : ∀ e, P e → Q (f e)) :
    Triple (On P) (modifyEmitter f : M V PUnit) (fun _ => On Q) E :=
  fun s hs => h s.emitter hs

/-- The variables of a stream function do not matter to the emitter. -/
lemma triple_modifyVars {f : V → V} : Triple (On P) (modifyVars f) (fun _ => On P) E :=
  fun _ hs => hs

/-- From a known emitter on. -/
lemma triple_known {m : M V β} (h : Triple (On P) m R E) (he : P e) :
    Triple (On (· = e)) m R E := by
  refine h.pre fun s hs => ?_
  rw [On, hs]
  exact he

/-- The sink may fail, but it has the event. -/
lemma triple_send (h : ∀ e, P e → Q { e with sent := e.sent ++ [event] })
    (hQ : ∀ e, Q e → Partial e) :
    Leads P (send env event : M V PUnit) Q := by
  refine triple_bind (triple_modifyEmitter h) fun _ => triple_emitter_bind fun e he => ?_
  cases env.sink e.sent with
  | none =>
    refine triple_pure fun s hs => ?_
    rw [On, hs]
    exact he
  | some error =>
    refine triple_throw fun s hs => ?_
    rw [On, hs]
    exact hQ e he

/-- From a known emitter on: a change. -/
lemma triple_modifyEmitter_bind
    (h : Triple (On (· = f e)) (g ⟨⟩) R E) : Triple (On (· = e)) (modifyEmitter f >>= g) R E := by
  refine triple_bind (triple_modifyEmitter ?_) fun _ => h
  rintro _ rfl
  rfl

/-- From a known emitter on: an event. -/
lemma triple_send_bind
    (hstep : Partial { e with sent := e.sent ++ [event] })
    (h : Triple (On (· = { e with sent := e.sent ++ [event] })) (g ⟨⟩) R (On Partial)) :
    Triple (On (· = e)) (send env event >>= g) R (On Partial) := by
  refine triple_bind (triple_send ?_ ?_) fun _ => h
  · rintro _ rfl
    rfl
  · rintro _ rfl
    exact hstep

/-- A branch that does nothing. -/
lemma triple_skip (h : ∀ e, P e → Q e) : Triple (On P) (pure () : M V PUnit) (fun _ => On Q) E :=
  triple_pure fun s hs => h s.emitter hs

lemma triple_fail {error : Error} (h : ∀ e, P e → Partial e) :
    Triple (On P) (throw error : M V β) R (On Partial) :=
  triple_throw fun s hs => h s.emitter hs

end Rules

/-! ## The emitter -/

section Emitter

variable {ν V : Type} (env : Env ν)

lemma triple_start : Leads Live (start env : M V PUnit) Begun := by
  refine triple_emitter_bind fun e he => ?_
  split_ifs with hstarted
  · rintro _ rfl
    rcases he with he | he
    · simp [he.2.1] at hstarted
    · exact he
  · rcases he with he | he
    · refine triple_modifyEmitter_bind (triple_send ?_ fun _ => Begun.partial)
      rintro _ rfl
      obtain ⟨hfinished, -, hkind, hindex, hnext, hsent⟩ := he
      refine .inl ⟨hfinished, rfl, hkind, hindex, by simp [hnext], ?_⟩
      simp [hsent, hnext, phase, Phase.step]
    · have hbegun : e.started = true := by
        rcases he with he | ⟨_, he⟩
        · exact he.2.1
        · exact he.2.1
      exact absurd hbegun hstarted

lemma triple_closeText : Leads Begun (closeText env : M V PUnit) Idle := by
  refine triple_emitter_bind fun e he => ?_
  split_ifs with hindex
  · rintro _ rfl
    rcases he with he | ⟨kind, he⟩
    · exact he
    · exact absurd he.2.2.2.1 (by omega)
  · rcases he with he | ⟨kind, he⟩
    · exact absurd he.2.2.2.1 (by omega)
    · obtain ⟨hfinished, hstarted, -, hopen, hnext, hphase⟩ := he
      refine triple_modifyEmitter_bind (triple_send ?_ fun _ => Idle.partial)
      rintro _ rfl
      refine ⟨hfinished, hstarted, rfl, rfl, by simp only []; omega, ?_⟩
      simp [phase_append, hphase, Phase.step, hnext]

/-- A block starts. -/
lemma phase_contentBlockStart {e : Emitter} (he : Idle e) (block : Block) :
    phase (e.sent ++ [.contentBlockStart e.next block]) = some (.inBlock e.next) := by
  simp [phase_append, he.2.2.2.2.2, Phase.step]

lemma triple_openText (kind : Kind) :
    Leads Begun (openText env kind : M V PUnit) (InText kind) := by
  refine triple_bind (triple_closeText env) fun _ => triple_emitter_bind fun e he => ?_
  refine triple_modifyEmitter_bind (triple_send ?_ fun _ => InText.partial)
  rintro _ rfl
  exact ⟨he.1, he.2.1, rfl, he.2.2.2.2.1, rfl, phase_contentBlockStart he kind.block⟩

/-- A delta for the open text block. -/
lemma triple_textDelta (kind : Kind) (delta : Delta) :
    Leads (InText kind) (textDelta env delta : M V PUnit) (InText kind) := by
  refine triple_emitter_bind fun e he => triple_send ?_ fun _ => InText.partial
  rintro _ rfl
  obtain ⟨hfinished, hstarted, hkind, hopen, hnext, hphase⟩ := he
  refine ⟨hfinished, hstarted, hkind, hopen, hnext, ?_⟩
  simp [phase_append, hphase, Phase.step]

lemma triple_ensureText (kind : Kind) :
    Leads Begun (ensureText env kind : M V PUnit) (InText kind) := by
  refine triple_emitter_bind fun e he => ?_
  split_ifs with hkind
  · exact triple_known (triple_openText env kind) he
  · rintro _ rfl
    exact he.inText (not_not.1 hkind)

/-- Text that is not empty opens a block of its kind. -/
lemma triple_text_of_ne (kind : Kind) {s : String} (hs : s ≠ "") :
    Leads Live (text env kind s : M V PUnit) (InText kind) := by
  rw [text, if_neg hs]
  refine triple_bind (triple_start env) fun _ => ?_
  exact triple_bind (triple_ensureText env kind) fun _ => triple_textDelta env kind _

lemma triple_text (kind : Kind) (s : String) : Leads Live (text env kind s : M V PUnit) Live := by
  by_cases hs : s = ""
  · rw [text, if_pos hs]
    exact triple_skip fun _ he => he
  · exact (triple_text_of_ne env kind hs).post fun _ _ => InText.live

/-! ### Reasoning -/

/-- A thinking block has text. -/
lemma ne_of_reasoningBlock {item : Object ν} {thinking signature : String}
    (h : reasoningBlock env item = some (.thinking thinking signature)) : thinking ≠ "" := by
  unfold reasoningBlock at h
  dsimp only at h
  split_ifs at h with hencrypted hempty htext
  · cases h
  · cases h
    exact hempty
  · cases h
    exact htext

lemma triple_ensureThinking {thinking : String} (hthinking : thinking ≠ "") :
    Leads Begun (ensureThinking env thinking : M V PUnit) (InText .thinking) := by
  refine triple_emitter_bind fun e he => ?_
  split_ifs with hkind
  · exact triple_known (triple_text_of_ne env .thinking hthinking) (.inr he)
  · rintro _ rfl
    exact he.inText (not_not.1 hkind)

lemma triple_signatureDelta (signature : String) :
    Leads (InText .thinking) (signatureDelta env signature : M V PUnit) (InText .thinking) := by
  unfold signatureDelta
  split_ifs
  · exact triple_textDelta env .thinking _
  · exact triple_skip fun _ he => he

/-- A block that starts and stops at once, or after one delta: the index is used up. -/
lemma idle_of_block {e e' : Emitter} {events : List Event} (he : Idle e)
    (hfinished : e'.finished = e.finished) (hstarted : e'.started = e.started)
    (hkind : e'.textKind = e.textKind) (hindex : e'.textIndex = e.textIndex)
    (hnext : e'.next = e.next + 1) (hsent : e'.sent = e.sent ++ events)
    (hphase : phase (e.sent ++ events) = some (.idle (e.next + 1))) : Idle e' := by
  refine ⟨hfinished.trans he.1, hstarted.trans he.2.1, hkind.trans he.2.2.1,
    hindex.trans he.2.2.2.1, ?_, ?_⟩
  · have := he.2.2.2.2.1
    omega
  · rw [hsent, hnext, hphase]

lemma triple_thinkingItem (item : Object ν) :
    Leads Live (thinkingItem env item : M V PUnit) Live := by
  unfold thinkingItem
  split
  · exact triple_skip fun _ he => he
  · rename_i data _
    refine triple_bind (triple_start env) fun _ => ?_
    refine triple_bind (triple_closeText env) fun _ => triple_emitter_bind fun e he => ?_
    have hstart := phase_contentBlockStart he (.redactedThinking data)
    refine triple_modifyEmitter_bind (triple_send_bind ⟨_, hstart⟩ ?_)
    refine triple_send ?_ fun _ => Live.partial
    rintro _ rfl
    refine Idle.live (idle_of_block he rfl rfl rfl rfl rfl (List.append_assoc _ _ _) ?_)
    rw [← List.append_assoc, phase_append, hstart]
    simp [Phase.step]
  · rename_i thinking signature hblock
    refine triple_bind (triple_start env) fun _ => ?_
    refine triple_bind (triple_ensureThinking env (ne_of_reasoningBlock env hblock)) fun _ => ?_
    refine triple_bind (triple_signatureDelta env signature) fun _ => ?_
    exact ((triple_closeText env).pre fun _ h => .inr ⟨_, h⟩).post fun _ _ => Idle.live

/-! ### Tools -/

lemma triple_setTool (key : String) (t : ToolState) : Leads Idle (setTool key t : M V PUnit) Idle :=
  triple_modifyEmitter fun _ he => he

lemma triple_findTool (key : String) : Leads Idle (findTool key : M V ToolState) Idle := by
  refine triple_emitter_bind fun e he => ?_
  cases e.order.lookup key with
  | some t => exact triple_known (triple_pure fun _ hs => hs) he
  | none => exact triple_modifyEmitter_bind (triple_known (triple_pure fun _ hs => hs) he)

/-- A tool call is a block with one delta. -/
lemma triple_emitTool (key : String) (t : ToolState) :
    Leads Idle (emitTool env key t : M V PUnit) Idle := by
  unfold emitTool
  cases toolBlock env t.id t.name t.args with
  | error error => exact triple_fail fun _ => Idle.partial
  | ok input =>
    refine triple_emitter_bind fun e he => ?_
    have hstart := phase_contentBlockStart he (.toolUse t.id t.name)
    have hdelta : phase (e.sent ++ [.contentBlockStart e.next (.toolUse t.id t.name)] ++
        [.contentBlockDelta e.next (.inputJson (env.marshal (.object input)))]) =
          some (.inBlock e.next) := by
      rw [phase_append, hstart]
      simp [Phase.step]
    refine triple_modifyEmitter_bind (triple_send_bind ⟨_, hstart⟩ ?_)
    refine triple_send_bind ⟨_, hdelta⟩ (triple_modifyEmitter_bind ?_)
    refine triple_send ?_ fun _ => Idle.partial
    rintro _ rfl
    have hsent : e.sent ++ [.contentBlockStart e.next (.toolUse t.id t.name)] ++
        [.contentBlockDelta e.next (.inputJson (env.marshal (.object input)))] ++
        [.contentBlockStop e.next] =
          e.sent ++ [.contentBlockStart e.next (.toolUse t.id t.name),
            .contentBlockDelta e.next (.inputJson (env.marshal (.object input))),
            .contentBlockStop e.next] := by simp
    refine idle_of_block he rfl rfl rfl rfl rfl hsent ?_
    rw [← hsent, phase_append, hdelta]
    simp [Phase.step]

lemma triple_emitReady (tools : List (String × ToolState)) :
    Leads Idle (emitReady env tools : M V PUnit) Idle := by
  induction tools with
  | nil => exact triple_skip fun _ he => he
  | cons entry rest ih =>
    obtain ⟨key, t⟩ := entry
    rw [emitReady]
    split_ifs
    · exact ih
    · exact triple_bind (triple_emitTool env key t) fun _ => ih
    · exact triple_skip fun _ he => he

lemma triple_emitRest (tools : List (String × ToolState)) :
    Leads Idle (emitRest env tools : M V PUnit) Idle := by
  induction tools with
  | nil => exact triple_skip fun _ he => he
  | cons entry rest ih =>
    obtain ⟨key, t⟩ := entry
    rw [emitRest]
    split_ifs
    · exact ih
    · exact triple_bind (triple_emitTool env key t) fun _ => ih

lemma triple_tool (key id name args : String) (complete : Bool) :
    Leads Live (tool env key id name args complete : M V PUnit) Live := by
  refine triple_bind (triple_start env) fun _ => ?_
  refine triple_bind (triple_closeText env) fun _ => ?_
  refine triple_bind (triple_findTool key) fun t => ?_
  by_cases hclosed : t.closed
  · rw [if_pos hclosed]
    exact triple_skip fun _ => Idle.live
  · rw [if_neg hclosed]
    refine triple_bind (triple_setTool key _) fun _ => ?_
    split
    · exact triple_fail fun _ => Idle.partial
    · refine triple_bind (triple_setTool key _) fun _ => triple_emitter_bind fun e he => ?_
      exact triple_known ((triple_emitReady env e.order).post fun _ _ => Idle.live) he

/-! ### The end of a message -/

lemma triple_finish (reason : String) : Leads Live (finish env reason : M V PUnit) Done := by
  refine triple_emitter_bind fun e he => ?_
  rw [if_neg (by simp [he.not_finished])]
  refine triple_bind (triple_known (triple_start env) he) fun _ => ?_
  refine triple_bind (triple_closeText env) fun _ => triple_emitter_bind fun e he => ?_
  refine triple_bind (triple_known (triple_emitRest env e.order) he) fun _ =>
    triple_emitter_bind fun e he => ?_
  have hdelta : ∀ event, (∃ reason usage, event = Event.messageDelta reason usage) →
      phase (e.sent ++ [event]) = some .ending := by
    rintro _ ⟨reason, usage, rfl⟩
    simp [phase_append, he.2.2.2.2.2, Phase.step]
  have hending := hdelta _ ⟨stopReason reason (!e.order.isEmpty), e.usage, rfl⟩
  refine triple_send_bind ⟨_, hending⟩ (triple_modifyEmitter_bind ?_)
  refine triple_send ?_ fun _ => Done.partial
  rintro _ rfl
  refine ⟨rfl, ?_⟩
  rw [phase_append, hending]
  rfl

/-- What a chunk says of the message as a whole is not sent. -/
lemma triple_takeID (id : String) : Leads Live (takeID id : M V PUnit) Live := by
  refine triple_modifyEmitter fun e he => ?_
  split_ifs
  · exact he
  · exact he

lemma triple_takeUsage (u? : Option (Object ν)) :
    Leads Live (takeUsage env u? : M V PUnit) Live := by
  unfold takeUsage
  cases u? with
  | some u => exact triple_modifyEmitter fun _ he => he
  | none => exact triple_skip fun _ he => he

/-- A handler that asks for more. -/
lemma triple_more {m : M V PUnit} {Q : Emitter → Prop}
    (h : Triple (On Live) m (fun _ => On Live) (On Partial)) :
    Triple (On Live) (m >>= fun _ => pure true)
      (fun more s => if more then On Live s else On Q s) (On Partial) :=
  triple_bind h fun _ => triple_pure fun _ hs => hs

/-- A handler that finishes the message. -/
lemma triple_last {m : M V PUnit} {Q : Emitter → Prop} {P : Run V → Prop}
    (h : Triple P m (fun _ => On Q) (On Partial)) :
    Triple P (m >>= fun _ => pure false)
      (fun more s => if more then On Live s else On Q s) (On Partial) :=
  triple_bind h fun _ => triple_pure fun _ hs => hs

end Emitter

/-! ## Chat streams -/

section Chat

variable {ν : Type} (env : Env ν)

lemma triple_chatChoice (choice : Object ν) : Leads Live (chatChoice env choice) Live := by
  refine triple_bind (triple_text env .thinking _) fun _ => ?_
  refine triple_bind (triple_text env .text _) fun _ => ?_
  refine triple_bind (triple_text env .text _) fun _ => ?_
  refine triple_bind (triple_forM fun c _ => triple_tool env c.key c.id c.name c.args false)
    fun _ => ?_
  exact triple_modifyVars

lemma triple_chatHandle (event : String) (data : List UInt8) :
    Triple (On Live) (chatHandle env event data)
      (fun more s => if more then On Live s else On Done s) (On Partial) := by
  unfold chatHandle
  split_ifs
  · refine triple_get_bind fun s hs => ?_
    split_ifs
    · exact triple_last ((triple_finish env s.vars.reason).of_eq hs)
    · exact (triple_fail fun _ => Live.partial).of_eq hs
  · split
    · exact triple_fail fun _ => Live.partial
    · dsimp only
      split
      · exact triple_fail fun _ => Live.partial
      · refine triple_bind (triple_takeID _) fun _ => ?_
        refine triple_bind (triple_takeUsage env _) fun _ => ?_
        split
        · exact triple_pure fun _ hs => hs
        · exact triple_more (triple_chatChoice env _)

/-- **Chat streams.** The stream is whole if the function returns. -/
lemma triple_chatStream (u : Upstream) : Leads Live (chatStream env u) Done := by
  refine triple_bind (Q := fun _ s => On Live s ∨ On Done s) ?_ fun _ => ?_
  · refine triple_readSSE (fun event data => ?_) (fun _ => .inl) fun _ => Live.partial
    refine (triple_chatHandle env event data).post fun more s hs => ?_
    cases more with
    | true => exact hs
    | false => exact .inr hs
  · refine triple_get_bind fun s hs => ?_
    rcases hs with hs | hs
    · rw [if_neg (by simp [Live.not_finished hs])]
      split_ifs
      · exact (triple_finish env s.vars.reason).of_eq hs
      · exact (triple_fail fun _ => Live.partial).of_eq hs
    · rw [if_pos hs.1]
      exact (triple_pure fun _ hs => hs).of_eq hs

end Chat

/-! ## Responses streams -/

section Responses

variable {ν : Type} (env : Env ν)

/-- The names of items do not matter to the emitter. -/
lemma triple_keyFor {P : Emitter → Prop} {E : Run ResponsesVars → Prop} (itemID : String)
    (outputIndex : ℤ) (item : Object ν) :
    Triple (On P) (keyFor itemID outputIndex item) (fun _ => On P) E := by
  refine triple_get_bind fun s hs => ?_
  exact triple_bind (triple_modifyVars.of_eq hs) fun _ => triple_pure fun _ hs => hs

lemma triple_emitParts {itemKey : M ResponsesVars String}
    (hkey : Triple (On Live) itemKey (fun _ => On Live) (On Partial)) (i : ℕ)
    (parts : List (Json String ν)) :
    Leads Live (emitParts env itemKey i parts) Live := by
  induction parts generalizing i with
  | nil => exact triple_skip fun _ he => he
  | cons part parts ih =>
    refine triple_bind hkey fun key => triple_get_bind fun s hs => ?_
    split_ifs
    · exact (ih _).of_eq hs
    · refine (triple_bind (triple_text env .text _) fun _ => ?_).of_eq hs
      exact triple_bind triple_modifyVars fun _ => ih _

lemma triple_emitReasoning (key : String) (item : Object ν) :
    Leads Live (emitReasoning env key item) Live := by
  refine triple_get_bind fun s hs => ?_
  refine Triple.of_eq (triple_ite (fun _ => triple_pure fun _ hs => hs) fun _ => ?_) hs
  exact triple_bind triple_modifyVars fun _ => triple_thinkingItem env _

lemma triple_emitItem (i : ℕ) (item : Object ν) : Leads Live (emitItem env i item) Live := by
  refine triple_bind (triple_keyFor "" i item) fun key => ?_
  refine triple_ite (fun _ => ?_) fun _ => triple_ite (fun _ => ?_) fun _ =>
    triple_ite (fun _ => ?_) fun _ => ?_
  · exact triple_tool env _ _ _ _ _
  · exact triple_emitReasoning env _ _
  · exact triple_emitParts env (triple_keyFor _ _ _) _ _
  · exact triple_fail fun _ => Live.partial

lemma triple_emitItems (i : ℕ) (items : List (Json String ν)) :
    Leads Live (emitItems env i items) Live := by
  induction items generalizing i with
  | nil => exact triple_skip fun _ he => he
  | cons item items ih => exact triple_bind (triple_emitItem env i _) fun _ => ih _

lemma triple_complete (incomplete : Bool) (response : Object ν) :
    Leads Live (complete env incomplete response) Done := by
  refine triple_ite (fun _ => triple_fail fun _ => Live.partial) fun _ => ?_
  refine triple_bind (triple_emitItems env 0 _) fun _ => ?_
  exact triple_bind (triple_modifyEmitter fun _ he => he) fun _ => triple_finish env _

/-- After an event the message goes on, or it is finished. -/
lemma triple_responsesEvent (event : String) (value : Object ν) :
    Triple (On Live) (responsesEvent env event value)
      (fun more s => if more then On Live s else On Done s) (On Partial) := by
  have hkey : ∀ item : Object ν, Leads Live (keyOf env value item) Live :=
    fun item => triple_keyFor _ _ item
  have hmore : Triple (On Live) (pure true : M ResponsesVars Bool)
      (fun more s => if more then On Live s else On Done s) (On Partial) :=
    triple_pure fun _ hs => hs
  refine triple_ite (fun _ => ?_) fun _ => triple_ite (fun _ => ?_) fun _ =>
    triple_ite (fun _ => ?_) fun _ => triple_ite (fun _ => ?_) fun _ =>
    triple_ite (fun _ => ?_) fun _ => triple_ite (fun _ => ?_) fun _ =>
    triple_ite (fun _ => ?_) fun _ => triple_ite (fun _ => ?_) fun _ =>
    triple_ite (fun _ => ?_) fun _ => triple_ite (fun _ => ?_) fun _ => hmore
  · -- `response.created`
    refine triple_bind (triple_takeID _) fun _ => triple_more ?_
    exact (triple_start env).post fun _ _ => .inr
  · -- deltas of a text
    refine triple_bind (hkey _) fun _ => triple_bind triple_modifyVars fun _ => ?_
    exact triple_more (triple_text env .text _)
  · -- deltas of a reasoning
    exact triple_bind (hkey _) fun _ => triple_more triple_modifyVars
  · -- an item is added
    refine triple_ite (fun _ => ?_) fun _ => hmore
    exact triple_bind (hkey _) fun _ => triple_more (triple_tool env _ _ _ _ _)
  · -- deltas of the arguments of a function call
    exact triple_bind (hkey _) fun _ => triple_more (triple_tool env _ _ _ _ _)
  · -- its arguments are done
    refine triple_bind (hkey _) fun key => triple_emitter_bind fun e he => ?_
    refine triple_known (P := Live) ?_ he
    cases e.order.lookup key with
    | some t => exact triple_ite (fun _ => triple_more (triple_tool env _ _ _ _ _)) fun _ => hmore
    | none => exact hmore
  · -- an item is done
    refine triple_bind (hkey _) fun key => ?_
    refine triple_ite (fun _ => ?_) fun _ => triple_ite (fun _ => ?_) fun _ =>
      triple_ite (fun _ => ?_) fun _ => hmore
    · exact triple_more (triple_tool env _ _ _ _ _)
    · exact triple_more (triple_emitReasoning env _ _)
    · exact triple_more (triple_emitParts env (hkey _) _ _)
  · -- the upstream has failed
    exact triple_fail fun _ => Live.partial
  · -- a terminal response
    exact triple_last (triple_complete env _ _)
  · -- a text is done
    refine triple_bind (hkey _) fun key => triple_get_bind fun s hs => ?_
    refine Triple.of_eq (triple_ite (fun _ => ?_) fun _ => hmore) hs
    exact triple_bind triple_modifyVars fun _ => triple_more (triple_text env .text _)

lemma triple_responsesHandle (event : String) (data : List UInt8) :
    Triple (On Live) (responsesHandle env event data)
      (fun more s => if more then On Live s else On Live s ∨ On Done s) (On Partial) := by
  refine triple_ite (fun _ => triple_pure fun _ hs => .inl hs) fun _ => ?_
  cases unmarshalObject (env.unmarshal data) with
  | none => exact triple_fail fun _ => Live.partial
  | some value? =>
    refine (triple_responsesEvent env _ _).post fun more s hs => ?_
    cases more with
    | true => exact hs
    | false => exact .inr hs

lemma triple_responsesEnd :
    Triple (fun s => On Live s ∨ On Done s) responsesEnd (fun _ => On Done) (On Partial) := by
  refine Triple.pre (P := On fun e => Live e ∨ Done e) ?_ fun _ hs => hs
  refine triple_emitter_bind fun e he => triple_ite (fun hfinished => ?_) fun hfinished => ?_
  · rintro _ rfl
    rcases he with he | he
    · exact he.partial
    · exact he.partial
  · rintro _ rfl
    rcases he with he | he
    · exact absurd (by simp [he.not_finished]) hfinished
    · exact he

/-- **Responses streams.** The stream is whole if the function returns. -/
lemma triple_responsesStream (u : Upstream) : Leads Live (responsesStream env u) Done :=
  triple_bind (triple_readSSE (triple_responsesHandle env) (fun _ => .inl)
    fun _ => Live.partial) fun _ => triple_responsesEnd

end Responses

/-! ## The result -/

section Result

variable {V : Type}

/-- The events sent are the beginning of a valid stream, and all of one if there is no error. -/
def WellFormed : EStateM.Result Error (Run V) PUnit → Prop
  | .ok _ s => Valid s.emitter.sent
  | .error _ s => ∃ events, Valid events ∧ s.emitter.sent <+: events

lemma wellFormed_of_triple {m : M V PUnit} {s : Run V} (hs : Fresh s.emitter)
    (h : Triple (On Live) m (fun _ => On Done) (On Partial)) : WellFormed (m s) := by
  have hrun := h s (.inl hs)
  cases hm : m s with
  | ok _ s' =>
    rw [hm] at hrun
    exact AnthropicStream.valid_of_phase hrun.2
  | error _ s' =>
    rw [hm] at hrun
    obtain ⟨p, hp⟩ := hrun
    exact AnthropicStream.isPrefix_of_phase hp

end Result

section Theorem

variable {ν : Type} (env : Env ν)

/-- The state in which `ChatStream` begins. -/
def chatStart (model : String) : Run ChatVars :=
  ⟨newEmitter env model, false, ""⟩

/-- The state in which `ResponsesStream` begins. -/
def responsesStart (model : String) : Run ResponsesVars :=
  ⟨newEmitter env model, fun _ => "", fun _ => false, fun _ => "", fun _ => false⟩

/-- **Streams.** On every upstream the events that `ChatStream` and `ResponsesStream` give to the
sink are a prefix of a valid Anthropic stream, and the whole of one if no error is returned. -/
theorem streams_wellFormed (model : String) (u : Upstream) :
    WellFormed (chatStream env u (chatStart env model)) ∧
      WellFormed (responsesStream env u (responsesStart env model)) := by
  have hfresh : Fresh (newEmitter env model) := ⟨rfl, rfl, rfl, rfl, rfl, rfl⟩
  constructor
  · exact wellFormed_of_triple hfresh (triple_chatStream env u)
  · exact wellFormed_of_triple hfresh (triple_responsesStream env u)

end Theorem

end Yukino.AgentProxy.Claude
