import Mathlib.Data.List.Basic

set_option autoImplicit false

/-!
# Frames out of a buffer

A stream is cut into chunks that have nothing to do with its frames. The chunks are written to the
end of a buffer, and a reader takes frames from its front. If the reader takes a whole frame and
leaves a part of one alone, the frames come out in their order, however the stream is cut and
whenever the reader is called.

## Main definitions

* `Framing.Op`, `Framing.feed` — writes and reads in any order, and what the reads take.
* `Framing.IsFrame` — what the reader does to a frame and to its parts.

## Main results

* `Framing.feed_frames` — the reads take the first frames, and the buffer is left with the others.
* `Framing.feed_reads` — enough reads take all frames of the buffer.
-/

namespace Framing

open List

variable {β : Type*}

inductive Op (β : Type*)
  | write (chunk : List β)
  | read

/-- The bytes that are written. -/
def written : List (Op β) → List β
  | [] => []
  | .write chunk :: ops => chunk ++ written ops
  | .read :: ops => written ops

section Reader

variable (reader : List β → Option (List β) × List β)

/-- The frames that the reads take, and the buffer at the end. -/
def feed (buf : List β) : List (Op β) → List (List β) × List β
  | [] => ([], buf)
  | .write chunk :: ops => feed (buf ++ chunk) ops
  | .read :: ops =>
    match reader buf with
    | (none, buf) => feed buf ops
    | (some frame, buf) => (frame :: (feed buf ops).1, (feed buf ops).2)

/-- The reader takes the frame once it is whole, and leaves a part of it alone. -/
structure IsFrame (f : List β) : Prop where
  whole : ∀ rest, reader (f ++ rest) = (some f, rest)
  part : ∀ p, p <+: f → p ≠ f → reader p = (none, p)

end Reader

variable {reader : List β → Option (List β) × List β} {frames : List (List β)}
  {buf later : List β} {ops ops' : List (Op β)}

lemma feed_append :
    feed reader buf (ops ++ ops') =
      ((feed reader buf ops).1 ++ (feed reader (feed reader buf ops).2 ops').1,
        (feed reader (feed reader buf ops).2 ops').2) := by
  induction ops generalizing buf with
  | nil => simp [feed]
  | cons op ops ih =>
    cases op with
    | write chunk => simp [feed, ih]
    | read =>
      rw [cons_append, feed, feed]
      rcases reader buf with ⟨_ | frame, buf'⟩
      · simp [ih]
      · simp [ih]

variable (hnil : reader [] = (none, [])) (hframes : ∀ f ∈ frames, IsFrame reader f)
include hnil hframes

/-- What a read does to a buffer that begins a stream of frames. -/
lemma read_cases
    (hbuf : buf ++ later = frames.flatten) :
    reader buf = (none, buf) ∨
      ∃ f rest buf', frames = f :: rest ∧ reader buf = (some f, buf') ∧
        buf' ++ later = rest.flatten := by
  cases frames with
  | nil =>
    obtain ⟨rfl, -⟩ := append_eq_nil_iff.1 hbuf
    exact .inl hnil
  | cons f rest =>
    have hf := hframes f mem_cons_self
    rcases append_eq_append_iff.1 hbuf with ⟨more, hmore, -⟩ | ⟨buf', rfl, hrest⟩
    · by_cases hwhole : buf = f
      · subst hwhole
        refine .inr ⟨buf, rest, [], rfl, by simpa using hf.whole [], ?_⟩
        simpa using hbuf
      · exact .inl (hf.part buf ⟨more, hmore.symm⟩ hwhole)
    · exact .inr ⟨f, rest, buf', rfl, hf.whole buf', hrest.symm⟩

/-- **The frames come out in their order.** The reads take the first frames, and the buffer is left
with the others. -/
theorem feed_frames
    (hbuf : buf ++ (written ops ++ later) = frames.flatten) :
    ∃ k, (feed reader buf ops).1 = frames.take k ∧
      (feed reader buf ops).2 ++ later = (frames.drop k).flatten := by
  induction ops generalizing buf frames with
  | nil => exact ⟨0, by simpa [feed, written] using hbuf⟩
  | cons op ops ih =>
    cases op with
    | write chunk =>
      apply ih hframes
      simpa [written] using hbuf
    | read =>
      have hbuf' : buf ++ (written ops ++ later) = frames.flatten := hbuf
      rcases read_cases hnil hframes hbuf' with hread | ⟨f, rest, buf', rfl, hread, hrest⟩
      · rw [feed, hread]
        exact ih hframes hbuf'
      · rw [feed, hread]
        obtain ⟨k, hk, hleft⟩ := ih (forall_mem_cons.1 hframes).2 hrest
        exact ⟨k + 1, by simpa using hk, by simpa using hleft⟩

/-- **Enough reads take all frames** of the buffer. -/
theorem feed_reads
    {n : ℕ} (hn : frames.length ≤ n) :
    feed reader frames.flatten (replicate n .read) = (frames, []) := by
  induction n generalizing frames with
  | zero =>
    obtain rfl := length_eq_zero_iff.1 (Nat.le_zero.1 hn)
    rfl
  | succ n ih =>
    rw [replicate_succ, feed]
    cases frames with
    | nil =>
      rw [flatten_nil, hnil]
      exact ih hframes (Nat.zero_le _)
    | cons f rest =>
      rw [flatten_cons, (hframes f mem_cons_self).whole]
      have hrest := ih (forall_mem_cons.1 hframes).2 (Nat.le_of_succ_le_succ hn)
      simp [hrest]

/-- The reads take the frames of a stream that was written in any pieces, if enough of them follow
the last piece. -/
theorem feed_all
    (hwritten : written ops = frames.flatten) {n : ℕ} (hn : frames.length ≤ n) :
    (feed reader [] (ops ++ replicate n .read)).1 = frames := by
  have hbuf : [] ++ (written ops ++ []) = frames.flatten := by simpa using hwritten
  obtain ⟨k, hk, hleft⟩ := feed_frames hnil hframes hbuf
  rw [append_nil] at hleft
  have hdrop := feed_reads hnil (fun f hf => hframes f (mem_of_mem_drop hf))
    (show (frames.drop k).length ≤ n by simp; omega)
  rw [feed_append, hk, hleft, hdrop, take_append_drop]

end Framing
