import Mathlib.Data.Nat.Notation
import Mathlib.Tactic.SplitIfs

set_option autoImplicit false

/-!
# Processes over a shared state

A process makes calls one after another and goes on with their results. Several processes share a
state, and the calls of different processes come in any order.

## Main definitions

* `Processes.Prog` — what a process still does, as a tree over the results of its calls.

## Main results

* `Processes.exists_set` — a step leaves the other processes as they are.
-/

namespace Processes

/-- Calls and their results. -/
structure Interface where
  Call : Type
  Result : Call → Type

/-- What a process still does. -/
inductive Prog (I : Interface) (α : Type) : Type
  | done (a : α)
  | call (c : I.Call) (k : I.Result c → Prog I α)

namespace Prog

variable {I : Interface} {α β : Type}

def bind : Prog I α → (α → Prog I β) → Prog I β
  | done a, f => f a
  | call c k, f => call c fun r => (k r).bind f

instance : Monad (Prog I) where
  pure := done
  bind := bind

/-- One call. -/
def perform (c : I.Call) : Prog I (I.Result c) :=
  call c done

/-- The next call of a process satisfies a test. -/
def Next (P : I.Call → Bool) : Prog I α → Bool
  | done _ => false
  | call c _ => P c

def isDone : Prog I α → Bool
  | done _ => true
  | call _ _ => false

end Prog

/-- A property that some process has is still that of some process, if the one that takes the step
does not lose it. -/
lemma exists_set {π : Type} {P : π → Prop} {old new : π} {i : ℕ} {procs : List π}
    (hold : procs[i]? = some old) (hkeep : P old → P new) (h : ∃ p ∈ procs, P p) :
    ∃ p ∈ procs.set i new, P p := by
  obtain ⟨p, hmem, hp⟩ := h
  obtain ⟨j, hj⟩ := List.mem_iff_getElem?.1 hmem
  by_cases hij : i = j
  · subst hij
    rw [hold] at hj
    cases hj
    exact ⟨new, List.mem_set (List.getElem?_eq_some_iff.1 hold).1 new, hkeep hp⟩
  · exact ⟨p, List.mem_of_getElem? (by rw [List.getElem?_set_ne hij, hj]), hp⟩

end Processes
