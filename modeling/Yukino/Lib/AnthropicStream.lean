import Mathlib.Data.List.Induction
import Mathlib.Algebra.Order.Ring.Int

set_option autoImplicit false

/-!
# Streams of Anthropic messages

A message is streamed as events: `message_start`, the content blocks one after another, each with a
start, deltas and a stop, and then `message_delta` and `message_stop`.

## Main definitions

* `AnthropicStream.Event` — the events, with their data.
* `AnthropicStream.Valid` — the streams of whole messages.
* `AnthropicStream.phase` — reading a stream from left to right.

## Main results

* `AnthropicStream.valid_of_phase` — a stream that has been read to its end is valid.
* `AnthropicStream.isPrefix_of_phase` — a stream that could be read so far can be completed.
-/

namespace AnthropicStream

open List

/-- A content block as it starts. -/
inductive Block
  | text
  | thinking
  | redactedThinking (data : String)
  | toolUse (id name : String)
  deriving DecidableEq

inductive Delta
  | text (text : String)
  | thinking (thinking : String)
  | signature (signature : String)
  | inputJson (partialJson : String)
  deriving DecidableEq

/-- Counts of tokens; those of the cache are left out when they are not positive. -/
structure Usage where
  inputTokens : ℤ
  outputTokens : ℤ
  cacheReadInputTokens : Option ℤ
  cacheCreationInputTokens : Option ℤ
  deriving DecidableEq

inductive Event
  | messageStart (id model : String)
  | contentBlockStart (index : ℤ) (block : Block)
  | contentBlockDelta (index : ℤ) (delta : Delta)
  | contentBlockStop (index : ℤ)
  | messageDelta (stopReason : String) (usage : Usage)
  | messageStop
  deriving DecidableEq

/-- The events of content blocks, from an index on. -/
def renderFrom : ℤ → List (Block × List Delta) → List Event
  | _, [] => []
  | i, (block, deltas) :: blocks =>
    .contentBlockStart i block :: deltas.map (.contentBlockDelta i) ++
      .contentBlockStop i :: renderFrom (i + 1) blocks

/-- The beginning of a message, up to the end of a block. -/
def opening (id model : String) (blocks : List (Block × List Delta)) : List Event :=
  .messageStart id model :: renderFrom 0 blocks

/-- The stream of a message. -/
def Valid (events : List Event) : Prop :=
  ∃ id model blocks reason usage,
    events = opening id model blocks ++ [.messageDelta reason usage, .messageStop]

/-! ## Reading a stream -/

inductive Phase
  | initial
  /-- No block is open, and the next one has this index. -/
  | idle (next : ℤ)
  /-- The block with this index is open. -/
  | inBlock (index : ℤ)
  | ending
  | stopped
  deriving DecidableEq

/-- One event more. -/
def Phase.step : Phase → Event → Option Phase
  | .initial, .messageStart _ _ => some (.idle 0)
  | .idle next, .contentBlockStart index _ => if index = next then some (.inBlock next) else none
  | .inBlock open', .contentBlockDelta index _ =>
    if index = open' then some (.inBlock open') else none
  | .inBlock open', .contentBlockStop index =>
    if index = open' then some (.idle (open' + 1)) else none
  | .idle _, .messageDelta _ _ => some .ending
  | .ending, .messageStop => some .stopped
  | _, _ => none

def phase (events : List Event) : Option Phase :=
  events.foldlM Phase.step .initial

lemma phase_append (events : List Event) (event : Event) :
    phase (events ++ [event]) = (phase events).bind fun p => p.step event := by
  simp [phase]

/-- What has been read in each phase. -/
def Phase.Read : Phase → List Event → Prop
  | .initial, events => events = []
  | .idle next, events =>
    ∃ id model blocks, events = opening id model blocks ∧ next = blocks.length
  | .inBlock index, events =>
    ∃ (id model : String) (blocks : List (Block × List Delta)) (block : Block)
      (deltas : List Delta),
      events = opening id model blocks ++
        .contentBlockStart index block :: deltas.map (.contentBlockDelta index) ∧
      index = blocks.length
  | .ending, events =>
    ∃ id model blocks reason usage,
      events = opening id model blocks ++ [.messageDelta reason usage]
  | .stopped, events => Valid events

lemma renderFrom_append (i : ℤ) (blocks : List (Block × List Delta)) (block : Block)
    (deltas : List Delta) :
    renderFrom i (blocks ++ [(block, deltas)]) =
      renderFrom i blocks ++ .contentBlockStart (i + blocks.length) block ::
        deltas.map (.contentBlockDelta (i + blocks.length)) ++
          [.contentBlockStop (i + blocks.length)] := by
  induction blocks generalizing i with
  | nil => simp [renderFrom]
  | cons b blocks ih =>
    have hlen : i + 1 + (blocks.length : ℤ) = i + ((b :: blocks).length : ℤ) := by
      simp only [length_cons]
      omega
    rw [cons_append, renderFrom, renderFrom, ih, hlen]
    simp

/-- One event more is read. -/
lemma Phase.Read.step {p p' : Phase} {events : List Event} {event : Event} (h : p.Read events)
    (hstep : p.step event = some p') : p'.Read (events ++ [event]) := by
  unfold Phase.step at hstep
  split at hstep
  · cases hstep
    obtain rfl : events = [] := h
    exact ⟨_, _, [], rfl, rfl⟩
  · rename_i next index block
    split_ifs at hstep with hindex
    cases hstep
    obtain ⟨id, model, blocks, rfl, hnext⟩ := h
    refine ⟨id, model, blocks, block, [], ?_, hnext⟩
    rw [hindex, map_nil]
  · split_ifs at hstep with hindex
    cases hstep
    obtain ⟨id, model, blocks, block, deltas, rfl, hopen⟩ := h
    exact ⟨id, model, blocks, block, deltas ++ [_], by simp [hindex]; rfl, hopen⟩
  · split_ifs at hstep with hindex
    cases hstep
    obtain ⟨id, model, blocks, block, deltas, rfl, hopen⟩ := h
    refine ⟨id, model, blocks ++ [(block, deltas)], ?_, by simp [hopen]⟩
    simp only [opening, renderFrom_append, hindex, hopen]
    simp
  · cases hstep
    obtain ⟨id, model, blocks, rfl, -⟩ := h
    exact ⟨id, model, blocks, _, _, rfl⟩
  · cases hstep
    obtain ⟨id, model, blocks, reason, usage, rfl⟩ := h
    exact ⟨id, model, blocks, reason, usage, by simp⟩
  · cases hstep

lemma read_of_phase {p : Phase} {events : List Event} (h : phase events = some p) :
    p.Read events := by
  induction events using reverseRecOn generalizing p with
  | nil =>
    cases h
    rfl
  | append_singleton events event ih =>
    rw [phase_append, Option.bind_eq_some_iff] at h
    obtain ⟨p', hp', hstep⟩ := h
    exact (ih hp').step hstep

/-- A stream that has been read to its end is valid. -/
theorem valid_of_phase {events : List Event} (h : phase events = some .stopped) : Valid events :=
  read_of_phase h

/-- A stream that could be read so far can be completed. -/
theorem isPrefix_of_phase {events : List Event} {p : Phase} (h : phase events = some p) :
    ∃ whole, Valid whole ∧ events <+: whole := by
  have usage : Usage := ⟨0, 0, none, none⟩
  have hread := read_of_phase h
  cases p with
  | initial =>
    obtain rfl : events = [] := hread
    exact ⟨_, ⟨"", "", [], "", usage, rfl⟩, List.nil_prefix⟩
  | idle next =>
    obtain ⟨id, model, blocks, rfl, -⟩ := hread
    exact ⟨_, ⟨id, model, blocks, "", usage, rfl⟩, prefix_append _ _⟩
  | inBlock index =>
    obtain ⟨id, model, blocks, block, deltas, rfl, hindex⟩ := hread
    refine ⟨_, ⟨id, model, blocks ++ [(block, deltas)], "", usage, rfl⟩, ?_⟩
    rw [opening, opening, renderFrom_append, hindex]
    simp
  | ending =>
    obtain ⟨id, model, blocks, reason, usage, rfl⟩ := hread
    refine ⟨_, ⟨id, model, blocks, reason, usage, rfl⟩, ?_⟩
    simp
  | stopped => exact ⟨events, hread, prefix_rfl⟩

end AnthropicStream
