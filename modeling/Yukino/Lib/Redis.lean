import Mathlib.Data.List.AList
import Mathlib.Data.Finset.Card

set_option autoImplicit false

/-!
# Redis strings, sorted sets and sets

The documented behaviour of the commands on a string with a time to live, on a sorted set with
integer scores, and on a set whose key may have a time to live.

## Main definitions

* `Redis.Fate` — commands that are lost, or whose replies are.
* `Redis.ZSet`, `Redis.ZSet.zadd`, `Redis.ZSet.zrange`, `Redis.ZSet.zremrange` — sorted sets and the
  commands `ZADD`, `ZRANGE .. BYSCORE` and `ZREMRANGEBYSCORE`.
* `Redis.Str`, `Redis.Str.setNX`, `Redis.Str.del`, `Redis.Str.expire` — string keys and the commands
  `SET .. NX EX`, `DEL` and `EXPIRE`.
* `Redis.TSet`, `Redis.TSet.sadd`, `Redis.TSet.srem`, `Redis.TSet.expire` — sets with a time to live
  and the commands `SADD`, `SREM` and `EXPIRE`.

## Main results

* `Redis.ZSet.mem_zrange`, `Redis.ZSet.lookup_zremrange` — what the range commands return and leave.
-/

namespace Redis

open List

/-- What happens to a command of a client: it is lost, or its reply is lost, or it is answered. -/
inductive Fate
  | lost
  | unanswered
  | answered
  deriving DecidableEq

namespace Fate

/-- The reply that the client gets for a command, if any, and the state afterwards. -/
def send {σ α : Type*} (fate : Fate) (command : σ → Option α × σ) (s : σ) : Option α × σ :=
  match fate with
  | .lost => (none, s)
  | .unanswered => (none, (command s).2)
  | .answered => command s

lemma send_eq {σ α : Type*} (fate : Fate) (command : σ → Option α × σ) (s : σ) :
    fate.send command s = command s ∨ fate.send command s = (none, s) ∨
      fate.send command s = (none, (command s).2) := by
  cases fate with
  | lost => exact .inr (.inl rfl)
  | unanswered => exact .inr (.inr rfl)
  | answered => exact .inl rfl

end Fate

/-- A string key, if it is there: its value and its time to live in seconds. -/
abbrev Str := Option (String × ℤ)

namespace Str

/-- `GET key`. -/
def get (s : Str) : Option String := s.map Prod.fst

/-- `SET key value NX EX seconds`, and whether the key was set. -/
def setNX (s : Str) (value : String) (seconds : ℤ) : Bool × Str :=
  match s with
  | none => (true, some (value, seconds))
  | some entry => (false, some entry)

/-- `DEL key`, and the number of keys that were deleted. -/
def del (s : Str) : ℤ × Str := (if s.isSome then 1 else 0, none)

/-- `EXPIRE key seconds`, and the number of keys whose time to live was set. -/
def expire (s : Str) (seconds : ℤ) : ℤ × Str :=
  match s with
  | none => (0, none)
  | some entry => (1, some (entry.1, seconds))

lemma get_eq_some_iff {s : Str} {value : String} :
    s.get = some value ↔ ∃ seconds, s = some (value, seconds) := by
  cases s with
  | none => simp [get]
  | some entry => simp [get, Prod.ext_iff]

lemma setNX_of_some {s : Str} {value : String} (h : s.get = some value) (v : String)
    (seconds : ℤ) : s.setNX v seconds = (false, s) := by
  obtain ⟨seconds', rfl⟩ := get_eq_some_iff.1 h
  rfl

lemma get_expire (s : Str) (seconds : ℤ) : (s.expire seconds).2.get = s.get := by
  cases s with
  | none | some => rfl

end Str

/-- A sorted set: the score of each member. -/
abbrev ZSet := AList (fun _ : String => ℤ)

namespace ZSet

/-- `ZADD key score member`: the score of a member that is there is replaced. -/
def zadd (z : ZSet) (score : ℤ) (member : String) : ZSet := z.insert member score

/-- The members whose score is from `lo` to `hi`. -/
def inRange (z : ZSet) (lo hi : ℤ) : List (Σ _ : String, ℤ) :=
  z.entries.filter fun p => lo ≤ p.2 ∧ p.2 ≤ hi

/-- `ZRANGE key lo hi BYSCORE`: ordered by score, and by the members themselves where scores
are equal. -/
def zrange (z : ZSet) (lo hi : ℤ) : List String :=
  ((z.inRange lo hi).mergeSort fun p q => p.2 < q.2 || p.2 = q.2 && p.1 ≤ q.1).map Sigma.fst

/-- `ZREMRANGEBYSCORE key lo hi`. -/
def zremrange (z : ZSet) (lo hi : ℤ) : ZSet :=
  (z.inRange lo hi).foldl (fun z p => z.erase p.1) z

lemma mem_inRange {z : ZSet} {lo hi : ℤ} {p : Σ _ : String, ℤ} :
    p ∈ z.inRange lo hi ↔ z.lookup p.1 = some p.2 ∧ lo ≤ p.2 ∧ p.2 ≤ hi := by
  unfold inRange
  rw [mem_filter, decide_eq_true_eq]
  refine and_congr_left' ?_
  exact AList.mem_lookup_iff.symm

lemma mem_zrange {z : ZSet} {lo hi : ℤ} {member : String} :
    member ∈ z.zrange lo hi ↔ ∃ score, z.lookup member = some score ∧ lo ≤ score ∧ score ≤ hi := by
  unfold zrange
  simp only [mem_map, mem_mergeSort, mem_inRange]
  constructor
  · rintro ⟨p, hp, rfl⟩
    exact ⟨p.2, hp⟩
  · rintro ⟨score, h⟩
    exact ⟨⟨member, score⟩, h, rfl⟩

lemma lookup_foldl_erase (z : ZSet) (l : List (Σ _ : String, ℤ)) (member : String) :
    (l.foldl (fun z p => z.erase p.1) z).lookup member =
      if ∃ p ∈ l, p.1 = member then none else z.lookup member := by
  induction l generalizing z with
  | nil => simp
  | cons p l ih =>
    rw [foldl_cons, ih]
    by_cases hl : ∃ q ∈ l, q.1 = member
    · rw [if_pos hl, if_pos (exists_mem_cons_of_exists hl)]
    · rw [if_neg hl]
      rcases eq_or_ne p.1 member with heq | hne
      · rw [heq, AList.lookup_erase, if_pos ⟨p, by simp, heq⟩]
      · rw [AList.lookup_erase_ne (Ne.symm hne), if_neg]
        rintro ⟨q, hq, hm⟩
        rcases mem_cons.1 hq with rfl | hq
        · exact hne hm
        · exact hl ⟨q, hq, hm⟩

/-- What `ZREMRANGEBYSCORE` leaves is what was outside of the range. -/
lemma lookup_zremrange {z : ZSet} {lo hi : ℤ} {member : String} {score : ℤ} :
    (z.zremrange lo hi).lookup member = some score ↔
      z.lookup member = some score ∧ ¬ (lo ≤ score ∧ score ≤ hi) := by
  unfold zremrange
  rw [lookup_foldl_erase]
  split
  · rename_i h
    obtain ⟨p, hp, rfl⟩ := h
    obtain ⟨hlookup, hrange⟩ := mem_inRange.1 hp
    rw [hlookup]
    constructor
    · intro hf
      cases hf
    · rintro ⟨heq, hnot⟩
      cases heq
      exact absurd hrange hnot
  · rename_i h
    refine ⟨fun hlookup => ⟨hlookup, fun hrange => ?_⟩, fun hlookup => hlookup.1⟩
    exact h ⟨⟨member, score⟩, mem_inRange.2 ⟨hlookup, hrange⟩, rfl⟩

end ZSet

/-- A set, with the instant at which its key expires if it has a time to live. -/
structure TSet where
  members : Finset String := ∅
  expireAt : Option ℤ := none

namespace TSet

/-- The set that a command finds at an instant: none when its key has expired. -/
def live (s : TSet) (clock : ℤ) : TSet :=
  match s.expireAt with
  | none => s
  | some t => if t ≤ clock then {} else s

/-- `SADD key member`. -/
def sadd (s : TSet) (clock : ℤ) (member : String) : TSet :=
  let s := s.live clock
  { s with members := insert member s.members }

/-- `SREM key member`: a key without members is deleted. -/
def srem (s : TSet) (clock : ℤ) (member : String) : TSet :=
  let s := s.live clock
  if s.members.erase member = ∅ then {} else { s with members := s.members.erase member }

/-- `EXPIRE key seconds`. -/
def expire (s : TSet) (clock seconds : ℤ) : TSet := { s with expireAt := some (clock + seconds) }

lemma live_subset (s : TSet) (clock : ℤ) : (s.live clock).members ⊆ s.members := by
  unfold live
  split
  · exact Finset.Subset.refl _
  · split
    · exact Finset.empty_subset _
    · exact Finset.Subset.refl _

lemma notMem_srem (s : TSet) (clock : ℤ) (member : String) :
    member ∉ (s.srem clock member).members := by
  unfold srem
  dsimp only
  split
  · exact Finset.notMem_empty _
  · exact Finset.notMem_erase _ _

lemma srem_subset (s : TSet) (clock : ℤ) (member : String) :
    (s.srem clock member).members ⊆ s.members := by
  unfold srem
  dsimp only
  split
  · exact Finset.empty_subset _
  · exact (Finset.erase_subset _ _).trans (s.live_subset clock)

lemma mem_sadd {s : TSet} {clock : ℤ} {member x : String}
    (h : x ∈ (s.sadd clock member).members) : x = member ∨ x ∈ s.members := by
  rcases Finset.mem_insert.1 h with h | h
  · exact .inl h
  · exact .inr (s.live_subset clock h)

end TSet

end Redis
