import Mathlib.Data.List.Chain
import Mathlib.Data.List.Nodup

set_option autoImplicit false

/-!
# Doubly linked rings in a table of links

A doubly linked list with a sentinel, kept in a table with two links for every cell.

## Main definitions

* `LinkedRing.Dir`, `LinkedRing.Links` — the two directions, and a table of links.
* `LinkedRing.Ring` — following the links of a direction from the sentinel visits the cells of a
  list in order and comes back to the sentinel, and the other direction is its inverse.
* `LinkedRing.unlink`, `LinkedRing.pushFront` — taking a cell out and putting one in.

## Main results

* `LinkedRing.Ring.unlink`, `LinkedRing.Ring.pushFront` — what they do to the list.
* `LinkedRing.Ring.reverse` — the other direction visits the list in reverse.
* `LinkedRing.Ring.link_eq` — where the link of a cell goes.
-/

namespace LinkedRing

open List Function

inductive Dir
  | prev
  | next
  deriving DecidableEq, Repr

/-- The opposite direction. -/
def Dir.flip : Dir → Dir
  | .prev => .next
  | .next => .prev

@[simp] lemma Dir.flip_flip (t : Dir) : t.flip.flip = t := by cases t <;> rfl

@[simp] lemma Dir.flip_ne (t : Dir) : t.flip ≠ t := by cases t <;> decide

@[simp] lemma Dir.ne_flip (t : Dir) : t ≠ t.flip := by cases t <;> decide

variable {ι : Type}

abbrev Links (ι : Type) := Dir → ι → ι

/-- `b` comes after `a` in the direction `t`. -/
def Joined (link : Links ι) (t : Dir) (a b : ι) : Prop := link t a = b ∧ link t.flip b = a

/-- The ring of the cells `l` around the sentinel `z`. -/
structure Ring (z : ι) (link : Links ι) (t : Dir) (l : List ι) : Prop where
  nodup : (z :: l).Nodup
  chain : List.IsChain (Joined link t) (z :: l ++ [z])

lemma isChain_imp {R S : ι → ι → Prop} {l : List ι} (h : l.IsChain R)
    (himp : ∀ u ∈ l.dropLast, ∀ v ∈ l.tail, R u v → S u v) : l.IsChain S := by
  induction l with
  | nil => exact List.IsChain.nil
  | cons a l ih =>
    cases l with
    | nil => exact List.IsChain.singleton a
    | cons b l =>
      rw [isChain_cons_cons] at h ⊢
      refine ⟨himp a (by simp) b (by simp) h.1, ih h.2 fun u hu v hv => ?_⟩
      exact himp u (by simp [hu]) v (by simp only [tail_cons] at hv ⊢; simp [hv])

namespace Ring

variable {z x : ι} {link link' : Links ι} {t : Dir} {l l₁ l₂ : List ι}

lemma reverse (h : Ring z link t l) : Ring z link t.flip l.reverse where
  nodup := by
    have := h.nodup
    rw [nodup_cons] at this ⊢
    exact ⟨by simpa using this.1, nodup_reverse.2 this.2⟩
  chain := by
    have heq : z :: l.reverse ++ [z] = (z :: l ++ [z]).reverse := by simp
    rw [heq, isChain_reverse]
    refine h.chain.imp fun a b hab => ?_
    exact ⟨hab.2, by simpa using hab.1⟩

/-- The link of the sentinel goes to the first cell. -/
lemma link_sentinel (h : Ring z link t l) : link t z = l.headD z := by
  have hchain := h.chain
  cases l with
  | nil =>
    simp only [cons_append, nil_append, isChain_cons_cons] at hchain
    exact hchain.1.1
  | cons a l =>
    simp only [cons_append, isChain_cons_cons] at hchain
    exact hchain.1.1

section

variable (h : Ring z link t (l₁ ++ x :: l₂))
include h

/-- The link of a cell goes to the one after it, and from the last one to the sentinel. -/
lemma link_eq : link t x = l₂.headD z := by
  have heq : z :: (l₁ ++ x :: l₂) ++ [z] = (z :: l₁) ++ x :: (l₂ ++ [z]) := by simp
  have hchain := h.chain
  rw [heq, isChain_split] at hchain
  have hchain₂ := hchain.2
  cases l₂ with
  | nil =>
    simp only [nil_append, isChain_cons_cons] at hchain₂
    exact hchain₂.1.1
  | cons b l₂ =>
    simp only [cons_append, isChain_cons_cons] at hchain₂
    exact hchain₂.1.1

/-- The link back goes to the cell before. -/
lemma link_flip_eq : link t.flip x = l₁.reverse.headD z := by
  have hrev := h.reverse
  rw [reverse_append, reverse_cons, append_assoc] at hrev
  exact hrev.link_eq

/-- **Proof sketch.** Write the chain as `p ++ a :: x :: b :: q`. Only the links between `a`
and `b` change, `a` is not in `p` and `b` is not in `q`. -/
lemma unlink_of
    (hset : link' t (link t.flip x) = link t x)
    (hset' : link' t.flip (link t x) = link t.flip x)
    (hsame : ∀ i ≠ link t.flip x, link' t i = link t i)
    (hsame' : ∀ i ≠ link t x, link' t.flip i = link t.flip i) : Ring z link' t (l₁ ++ l₂) := by
  have hnodup := h.nodup
  have hz : z ∉ l₁ ++ l₂ := by
    have := (nodup_cons.1 hnodup).1
    simp only [mem_append, mem_cons, not_or] at this ⊢
    exact ⟨this.1, this.2.2⟩
  have hnodup₁₂ : (l₁ ++ x :: l₂).Nodup := (nodup_cons.1 hnodup).2
  rw [nodup_append, nodup_cons] at hnodup₁₂
  obtain ⟨hn₁, ⟨-, hn₂⟩, hdisj⟩ := hnodup₁₂
  have hdisj' : ∀ u ∈ l₁, u ∉ l₂ := fun u hu hu' => hdisj u hu u (mem_cons_of_mem _ hu') rfl
  rw [mem_append, not_or] at hz
  have hp : z :: l₁ = (z :: l₁).dropLast ++ [(z :: l₁).getLast (cons_ne_nil z l₁)] :=
    (dropLast_append_getLast _).symm
  obtain ⟨b, q, hq⟩ : ∃ b q, l₂ ++ [z] = b :: q := by
    cases l₂ with
    | nil => exact ⟨z, [], rfl⟩
    | cons b l₂ => exact ⟨b, l₂ ++ [z], rfl⟩
  generalize (z :: l₁).dropLast = p at hp
  generalize (z :: l₁).getLast (cons_ne_nil z l₁) = a at hp
  have hchain := h.chain
  rw [← cons_append, append_assoc, hp, cons_append, hq, append_assoc,
    singleton_append, isChain_append_cons_cons, isChain_cons_cons] at hchain
  obtain ⟨hpa, hax, hxb, hbq⟩ := hchain
  have ha : link t.flip x = a := hax.2
  have hb : link t x = b := hxb.1
  rw [ha] at hset hset' hsame
  rw [hb] at hset hset' hsame'
  have hzl₁ : (z :: l₁).Nodup := nodup_cons.2 ⟨hz.1, hn₁⟩
  have hl₂z : (l₂ ++ [z]).Nodup := by
    refine nodup_append.2 ⟨hn₂, nodup_singleton z, fun u hu v hv => ?_⟩
    rintro rfl
    exact hz.2 (by rwa [mem_singleton.1 hv] at hu)
  -- a cell of `l₁` is not `b`, and one of `l₂` is not `a`
  have hbl₁ : ∀ v ∈ l₁, v ≠ b := by
    rintro v hv rfl
    have hmem : v ∈ l₂ ++ [z] := by simp [hq]
    rcases mem_append.1 hmem with hmem | hmem
    · exact hdisj' v hv hmem
    · rw [mem_singleton.1 hmem] at hv
      exact hz.1 hv
  have hal₂ : ∀ u ∈ l₂, u ≠ a := by
    rintro u hu rfl
    have hmem : u ∈ z :: l₁ := by simp [hp]
    rcases mem_cons.1 hmem with rfl | hmem
    · exact hz.2 hu
    · exact hdisj' u hmem hu
  refine ⟨nodup_cons.2 ⟨by simp [hz], ?_⟩, ?_⟩
  · exact nodup_append.2 ⟨hn₁, hn₂, fun u hu v hv huv => hdisj' u hu (huv ▸ hv)⟩
  · rw [← cons_append, append_assoc, hp, hq, append_assoc, singleton_append,
      isChain_append_cons_cons]
    refine ⟨isChain_imp hpa fun u hu v hv huv => ?_, ⟨hset, hset'⟩,
      isChain_imp hbq fun u hu v hv huv => ?_⟩
    · rw [dropLast_concat] at hu
      rw [← hp] at hv
      have hua : u ≠ a := by
        rintro rfl
        rw [hp] at hzl₁
        exact (nodup_append.1 hzl₁).2.2 u hu u (by simp) rfl
      exact ⟨(hsame u hua).trans huv.1, (hsame' v (hbl₁ v hv)).trans huv.2⟩
    · rw [← hq, dropLast_concat] at hu
      have hvb : v ≠ b := by
        rintro rfl
        rw [hq] at hl₂z
        exact (nodup_cons.1 hl₂z).1 hv
      exact ⟨(hsame u (hal₂ u hu)).trans huv.1, (hsame' v hvb).trans huv.2⟩

end

lemma push_of (h : Ring z link t l) (hx : x ∉ z :: l)
    (hzx : link' t z = x) (hxz : link' t.flip x = z)
    (hxh : link' t x = link t z) (hhx : link' t.flip (link t z) = x)
    (hsame : ∀ i ∈ l, link' t i = link t i)
    (hsame' : ∀ i ≠ link t z, i ∈ z :: l → link' t.flip i = link t.flip i) :
    Ring z link' t (x :: l) := by
  have hnodup := nodup_cons.1 h.nodup
  rw [mem_cons, not_or] at hx
  refine ⟨?_, ?_⟩
  · refine nodup_cons.2 ⟨?_, nodup_cons.2 ⟨hx.2, hnodup.2⟩⟩
    rw [mem_cons, not_or]
    exact ⟨Ne.symm hx.1, hnodup.1⟩
  · obtain ⟨b, q, hq⟩ : ∃ b q, l ++ [z] = b :: q := by
      cases l with
      | nil => exact ⟨z, [], rfl⟩
      | cons b l => exact ⟨b, l ++ [z], rfl⟩
    have hlz : (l ++ [z]).Nodup := by
      refine nodup_append.2 ⟨hnodup.2, nodup_singleton z, fun u hu v hv => ?_⟩
      rintro rfl
      exact hnodup.1 (by rwa [mem_singleton.1 hv] at hu)
    have hchain := h.chain
    rw [cons_append, hq, isChain_cons_cons] at hchain
    obtain ⟨hzb, hbq⟩ := hchain
    rw [hzb.1] at hxh hhx hsame'
    rw [cons_append, cons_append, hq, isChain_cons_cons, isChain_cons_cons]
    refine ⟨⟨hzx, hxz⟩, ⟨hxh, hhx⟩, isChain_imp hbq fun u hu v hv huv => ?_⟩
    have hu' : u ∈ l := by
      rwa [← hq, dropLast_concat] at hu
    have hv' : v ∈ z :: l := by
      have hmem : v ∈ l ++ [z] := by
        rw [hq]
        exact mem_cons_of_mem _ hv
      simpa [or_comm] using hmem
    have hvb : v ≠ b := by
      rintro rfl
      rw [hq] at hlz
      exact (nodup_cons.1 hlz).1 hv
    exact ⟨(hsame u hu').trans huv.1, (hsame' v hvb hv').trans huv.2⟩

end Ring

variable [DecidableEq ι]

/-- One link is written. -/
def setLink (link : Links ι) (d : Dir) (i v : ι) : Links ι :=
  update link d (update (link d) i v)

lemma setLink_same (link : Links ι) (d : Dir) (i v j : ι) :
    setLink link d i v d j = if j = i then v else link d j := by
  rw [setLink, update_self, update_apply]

lemma setLink_of_ne (link : Links ι) {d d' : Dir} (h : d' ≠ d) (i v j : ι) :
    setLink link d i v d' j = link d' j := by
  rw [setLink, update_of_ne h]

/-- Takes the cell `x` out: its two neighbours are joined. -/
def unlink (link : Links ι) (t : Dir) (x : ι) : Links ι :=
  setLink (setLink link t.flip (link t x) (link t.flip x)) t (link t.flip x) (link t x)

/-- Puts the cell `x` in after the sentinel, in the direction `t`. -/
def pushFront (link : Links ι) (z : ι) (t : Dir) (x : ι) : Links ι :=
  setLink (setLink (setLink (setLink link t.flip x z) t x (link t z)) t.flip (link t z) x) t z x

variable {z x : ι} {link : Links ι} {t : Dir} {l l₁ l₂ : List ι}

theorem Ring.unlink (h : Ring z link t (l₁ ++ x :: l₂)) :
    Ring z (unlink link t x) t (l₁ ++ l₂) := by
  refine h.unlink_of ?_ ?_ ?_ ?_
  · simp [LinkedRing.unlink, setLink_same]
  · simp [LinkedRing.unlink, setLink_same, setLink_of_ne]
  all_goals
    intro i hi
    simp [LinkedRing.unlink, setLink_same, setLink_of_ne, hi]

theorem Ring.pushFront (h : Ring z link t l) (hx : x ∉ z :: l) :
    Ring z (pushFront link z t x) t (x :: l) := by
  have hx' := hx
  rw [mem_cons, not_or] at hx'
  refine h.push_of hx ?_ ?_ ?_ ?_ ?_ ?_
  · simp [LinkedRing.pushFront, setLink_same]
  · -- the first cell is not `x`
    have hne : x ≠ link t z := by
      rw [h.link_sentinel]
      cases l with
      | nil => exact hx'.1
      | cons a l =>
        rintro rfl
        exact hx'.2 (by simp)
    simp [LinkedRing.pushFront, setLink_same, setLink_of_ne, hne]
  · simp [LinkedRing.pushFront, setLink_same, setLink_of_ne, hx'.1]
  · simp [LinkedRing.pushFront, setLink_same, setLink_of_ne]
  · intro i hi
    have hiz : i ≠ z := fun heq => (nodup_cons.1 h.nodup).1 (heq ▸ hi)
    have hix : i ≠ x := fun heq => hx'.2 (heq ▸ hi)
    simp [LinkedRing.pushFront, setLink_same, setLink_of_ne, hiz, hix]
  · intro i hi hmem
    have hix : i ≠ x := fun heq => hx (heq ▸ hmem)
    simp [LinkedRing.pushFront, setLink_same, setLink_of_ne, hi, hix]

end LinkedRing
