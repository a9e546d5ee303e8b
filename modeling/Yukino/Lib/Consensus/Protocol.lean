import Mathlib.Data.Finset.Card

set_option autoImplicit false

/-!
# Log replication with elected leaders, as an abstract protocol

Nodes move through numbered terms, elect at most one leader for each term by a quorum of
votes, and copy the leader's log. The protocol is described by the smallest actions that a
node can take, over a state that also records the history of every term: who voted for
whom, who was elected, the log of that leader, and which prefix of it each node has
acknowledged. Messages do not appear. What a message may claim is a statement about the
recorded history, and such statements stay true as the history grows.

## Main definitions

* `Consensus.QuorumSystem` — a family of sets of nodes of which any two meet.
* `Consensus.State`, `Consensus.Step` — the state and the actions of one node.
* `Consensus.Extends` — the order in which the history grows.
* `Consensus.LogOk` — a log all of whose prefixes come from elected leaders.

## Design

Logs are lists, and the index of an entry is its position counted from `1`. The log of the
leader of a term only grows, and `llog t` is the longest it has been. A node that accepts a
prefix of `llog t` keeps its own log when that already contains the prefix and otherwise
replaces it; whether the prefix can be checked locally is left to the implementation.
-/

namespace Consensus

/-- Entries that carry the term in which they were created. -/
class Termed (E : Type) where
  term : E → ℕ

/-- A family of finite sets of nodes of which any two have a member in common. -/
structure QuorumSystem (N : Type) where
  isQuorum : Finset N → Prop
  inter : ∀ {A B : Finset N}, isQuorum A → isQuorum B → ∃ v, v ∈ A ∧ v ∈ B

/-- Majorities of a finite set form a quorum system. -/
def QuorumSystem.majority {N : Type} [DecidableEq N] (ids : Finset N) : QuorumSystem N where
  isQuorum A := A ⊆ ids ∧ ids.card / 2 + 1 ≤ A.card
  inter := by
    rintro A B ⟨hA, hA'⟩ ⟨hB, hB'⟩
    by_contra hne
    push Not at hne
    have hdis : Disjoint A B := Finset.disjoint_left.2 hne
    have hle := Finset.card_le_card (Finset.union_subset hA hB)
    rw [Finset.card_union_of_disjoint hdis] at hle
    omega

/-- The state of all nodes and the history of all terms. -/
structure State (N E : Type) where
  /-- The current term of a node. -/
  term : N → ℕ
  /-- The log of a node. -/
  log : N → List E
  /-- The number of entries a node knows to be committed. -/
  commit : N → ℕ
  /-- The vote of a node in a term. -/
  voted : N → ℕ → Option N
  /-- The log with which a node stood for election in a term. -/
  clog : N → ℕ → List E
  /-- The leader elected in a term. -/
  elected : ℕ → Option N
  /-- The log of the leader of a term. -/
  llog : ℕ → List E
  /-- The length of the prefix of `llog` that a node has acknowledged in a term. -/
  acked : N → ℕ → ℕ
  /-- The index that the leader of a term has committed by counting acknowledgements. -/
  lcommit : ℕ → ℕ

section Logs

variable {E : Type} [Termed E]

/-- The term of the entry with index `k`, and `0` when there is none. -/
def termAt (l : List E) (k : ℕ) : ℕ :=
  if k = 0 then 0 else (l[k - 1]?.map Termed.term).getD 0

/-- The term of the last entry, and `0` for the empty log. -/
def lastTerm (l : List E) : ℕ := termAt l l.length

/-- The candidate's log is at least as up to date as the voter's. -/
def UpToDate (cand voter : List E) : Prop :=
  lastTerm voter < lastTerm cand ∨
    lastTerm voter = lastTerm cand ∧ voter.length ≤ cand.length

/-- A log after accepting `pre`: unchanged when it starts with `pre`, else `pre`. -/
def merge [DecidableEq E] (l pre : List E) : List E := if pre <+: l then l else pre

end Logs

variable {N E : Type} [DecidableEq N] [DecidableEq E] [Termed E]

/-- `f` with the value at `(i, t)` replaced. -/
def set₂ {α : Type} (f : N → ℕ → α) (i : N) (t : ℕ) (v : α) : N → ℕ → α :=
  fun j s => if j = i ∧ s = t then v else f j s

/-- The actions of node `i`. -/
inductive Step (Q : QuorumSystem N) (a : State N E) (i : N) : State N E → Prop
  /-- Enter a higher term. -/
  | adopt (t : ℕ) (ht : a.term i < t) :
    Step Q a i { a with term := Function.update a.term i t }
  /-- Stand for election in the next term, with a vote for oneself. -/
  | campaign :
    Step Q a i { a with
      term := Function.update a.term i (a.term i + 1)
      voted := set₂ a.voted i (a.term i + 1) (some i)
      clog := set₂ a.clog i (a.term i + 1) (a.log i) }
  /-- Vote in the current term. -/
  | grant (c : N) (hfree : ∀ d, a.voted i (a.term i) = some d → d = c)
      (hc : a.term i ≤ a.term c) (hup : UpToDate (a.clog c (a.term i)) (a.log i)) :
    Step Q a i { a with voted := set₂ a.voted i (a.term i) (some c) }
  /-- Become leader by a quorum of votes. -/
  | elect (q : Finset N) (hnew : a.elected (a.term i) = none) (hq : Q.isQuorum q)
      (hvotes : ∀ v ∈ q, a.voted v (a.term i) = some i)
      (hlog : a.log i = a.clog i (a.term i)) :
    Step Q a i { a with
      elected := Function.update a.elected (a.term i) (some i)
      llog := Function.update a.llog (a.term i) (a.log i) }
  /-- Append an entry as leader. -/
  | append (e : E) (hlead : a.elected (a.term i) = some i)
      (he : Termed.term e = a.term i) :
    Step Q a i { a with
      log := Function.update a.log i (a.log i ++ [e])
      llog := Function.update a.llog (a.term i) (a.log i ++ [e])
      acked := set₂ a.acked i (a.term i) ((a.log i).length + 1) }
  /-- Accept and acknowledge a prefix of the log of the current leader. -/
  | accept (k : ℕ) (hlead : a.elected (a.term i) ≠ none)
      (hother : a.elected (a.term i) ≠ some i) (hk : k ≤ (a.llog (a.term i)).length) :
    Step Q a i { a with
      log := Function.update a.log i (merge (a.log i) ((a.llog (a.term i)).take k))
      acked := set₂ a.acked i (a.term i) (max (a.acked i (a.term i)) k) }
  /-- Commit as leader: a quorum has acknowledged an entry of the current term. -/
  | leaderCommit (k : ℕ) (q : Finset N) (hlead : a.elected (a.term i) = some i)
      (hnew : a.commit i < k) (hk : k ≤ (a.llog (a.term i)).length)
      (ht : termAt (a.llog (a.term i)) k = a.term i) (hq : Q.isQuorum q)
      (hack : ∀ v ∈ q, k ≤ a.acked v (a.term i)) :
    Step Q a i { a with
      commit := Function.update a.commit i k
      lcommit := Function.update a.lcommit (a.term i) k }
  /-- Learn that a prefix of the own log is committed. -/
  | learnCommit (k t : ℕ) (ht : t ≤ a.term i) (hk : k ≤ a.lcommit t)
      (hlen : k ≤ (a.log i).length) (hlog : (a.log i).take k = (a.llog t).take k) :
    Step Q a i { a with commit := Function.update a.commit i (max (a.commit i) k) }

/-- Finitely many actions of node `i`. -/
def Steps (Q : QuorumSystem N) (i : N) : State N E → State N E → Prop :=
  Relation.ReflTransGen fun a b => Step Q a i b

/-- The state before the first action: every log is empty, nobody has voted. -/
structure Initial (a : State N E) : Prop where
  log : ∀ i, a.log i = []
  commit : ∀ i, a.commit i = 0
  voted : ∀ i t, a.voted i t = none
  clog : ∀ i t, a.clog i t = []
  elected : ∀ t, a.elected t = none
  llog : ∀ t, a.llog t = []
  acked : ∀ i t, a.acked i t = 0
  lcommit : ∀ t, a.lcommit t = 0

/-- The history of `b` continues that of `a`. -/
structure Extends (a b : State N E) : Prop where
  term : ∀ i, a.term i ≤ b.term i
  voted : ∀ v t c, a.voted v t = some c → b.voted v t = some c
  clog : ∀ c t, t ≤ a.term c → b.clog c t = a.clog c t
  elected : ∀ t c, a.elected t = some c → b.elected t = some c
  llog : ∀ t, a.llog t <+: b.llog t
  acked : ∀ v t, a.acked v t ≤ b.acked v t
  lcommit : ∀ t, a.lcommit t ≤ b.lcommit t

/-- The state of node `j` itself is the same in `a` and `b`, and it has not won another
election. -/
structure SameNode (a b : State N E) (j : N) : Prop where
  term : b.term j = a.term j
  log : b.log j = a.log j
  commit : b.commit j = a.commit j
  voted : ∀ t, b.voted j t = a.voted j t
  elected : ∀ t, b.elected t = some j → a.elected t = some j

/-- Every prefix of `l` is a prefix of the log of the leader of its last entry's term. -/
def LogOk (a : State N E) (l : List E) : Prop :=
  ∀ k e, l[k]? = some e →
    a.elected (Termed.term e) ≠ none ∧ l.take (k + 1) <+: a.llog (Termed.term e)

/-- The log of the leader of term `t'` starts with the first `k` entries of that of `t`. -/
def Has (a : State N E) (t' t k : ℕ) : Prop := (a.llog t).take k <+: a.llog t'

/-- All leaders of terms after `t` and before `t'` have the first `k` entries of term `t`'s
leader. -/
def HasBetween (a : State N E) (t t' k : ℕ) : Prop :=
  ∀ u, t < u → u < t' → a.elected u ≠ none → Has a u t k

/-- The leader of term `t` has committed index `k`: the entry is of its own term and a
quorum has acknowledged it. -/
def Committed (Q : QuorumSystem N) (a : State N E) (t k : ℕ) : Prop :=
  0 < k ∧ termAt (a.llog t) k = t ∧ ∃ q, Q.isQuorum q ∧ ∀ v ∈ q, k ≤ a.acked v t

end Consensus
