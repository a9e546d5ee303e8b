import Yukino.Lib.Outcome
import Yukino.Lib.Consensus.Invariant
import Yukino.Raft.Log

set_option autoImplicit false

/-!
# What the methods of the log do

The methods of `log.go` work on a log that is split between storage and unstable entries.
Here each of them is described by its effect on the represented log `RaftLog.abs`, for logs
whose parts fit together (`RaftLog.WF`).

## Main definitions

* `Consec` — entries with consecutive indices.
* `RaftLog.WF` — storage, unstable entries, `applyIndex` and `commitIndex` fit together.
* `RaftLog.TermsOk` — every entry has a positive term, the dummy has term `0`.

## Main results

* `RaftLog.WF.slice_eq`, `RaftLog.WF.term_eq` — reading.
* `RaftLog.WF.append_ok`, `RaftLog.WF.append_ensures` — appending.
* `RaftLog.WF.maybeAppend_ensures` — what survives `maybeAppend`, whatever the entries are.
* `RaftLog.WF.maybeAppend_merge` — `maybeAppend` with entries of a leader's log.
-/

namespace Yukino.Replica

open Consensus Outcome
open List hiding merge

instance : Termed Entry := ⟨Entry.term⟩

/-! ## Consecutive indices -/

/-- The entries have the indices `j`, `j + 1`, and so on. -/
def Consec (j : ℕ) (es : List Entry) : Prop := ∀ k e, es[k]? = some e → e.index = j + k

namespace Consec

variable {j : ℕ} {xs ys : List Entry}

lemma nil (j : ℕ) : Consec j [] := by
  intro k e h
  simp at h

/-- The indices can be compared with a range. -/
lemma of_map (h : xs.map Entry.index = range' j xs.length) : Consec j xs := by
  intro k e he
  have hget : (xs.map Entry.index)[k]? = some e.index := by
    rw [getElem?_map, he]
    rfl
  rw [h, List.getElem?_range' (List.getElem?_eq_some_iff.1 he).1, Nat.one_mul] at hget
  exact (Option.some.inj hget).symm

lemma cons_index {e : Entry} {es : List Entry} (h : Consec j (e :: es)) : e.index = j :=
  h 0 e rfl

lemma append (hx : Consec j xs) (hy : Consec (j + xs.length) ys) : Consec j (xs ++ ys) := by
  intro k e h
  rw [getElem?_append] at h
  split at h
  · exact hx k e h
  · have := hy _ e h
    omega

lemma take (h : Consec j xs) (n : ℕ) : Consec j (xs.take n) := by
  intro k e hk
  rw [getElem?_take] at hk
  split at hk
  · exact h k e hk
  · cases hk

lemma drop (h : Consec j xs) (n : ℕ) : Consec (j + n) (xs.drop n) := by
  intro k e hk
  rw [getElem?_drop] at hk
  have := h _ e hk
  omega

lemma getLast? {e : Entry} (h : Consec j xs) (he : xs.getLast? = some e) :
    e.index + 1 = j + xs.length := by
  have hne : xs ≠ [] := by
    rintro rfl
    cases he
  have hpos : 0 < xs.length := length_pos_iff.2 hne
  rw [getLast?_eq_getElem?] at he
  have := h _ e he
  omega

end Consec

/-- A storage whose entries are numbered from `0` on starts with the dummy of index `0`. -/
lemma MemoryStorage.offset_eq_zero {st : MemoryStorage} (h : Consec 0 st.entries) :
    st.offset = 0 := by
  have := h 0 (st.entries.head st.entries_ne) (by rw [← head?_eq_getElem?, head?_eq_some_head])
  simpa [MemoryStorage.offset] using this

lemma MemoryStorage.lastIndex_add_one {st : MemoryStorage} (h : Consec 0 st.entries) :
    st.lastIndex + 1 = st.entries.length := by
  have := length_pos_iff.2 st.entries_ne
  rw [MemoryStorage.lastIndex, MemoryStorage.offset_eq_zero h]
  omega

namespace RaftLog

/-- The parts of a log fit together. -/
structure WF (l : RaftLog) : Prop where
  stored : Consec 0 l.storage.entries
  offset_pos : 1 ≤ l.unstable.offset
  offset_le : l.unstable.offset ≤ l.storage.entries.length
  unstable : Consec l.unstable.offset l.unstable.entries
  offset_eq : l.unstable.entries = [] → l.unstable.offset = l.storage.entries.length
  apply_le : l.applyIndex ≤ l.commitIndex
  commit_le : l.commitIndex ≤ l.abs.length

/-- Entries have positive terms, and the dummy before them has term `0`. -/
structure TermsOk (l : RaftLog) : Prop where
  dummy : ∀ e, l.storage.entries[0]? = some e → e.term = 0
  pos : ∀ e ∈ l.abs, 0 < e.term

/-- What the reactions of a node do to its log between two `Advance`: no committed entry is
lost, and what becomes unstable stays so. -/
structure Grows (l l' : RaftLog) : Prop where
  storage : l'.storage = l.storage
  applyIndex : l'.applyIndex = l.applyIndex
  commit_le : l.commitIndex ≤ l'.commitIndex
  committed : l'.abs.take l.commitIndex = l.abs.take l.commitIndex
  offset_le : l'.unstable.offset ≤ l.unstable.offset
  unstable_ne : l.unstable.entries ≠ [] → l'.unstable.entries ≠ []

namespace Grows

variable {l l₁ l₂ : RaftLog}

lemma refl (l : RaftLog) : Grows l l := ⟨rfl, rfl, le_rfl, rfl, le_rfl, id⟩

lemma trans (h : Grows l l₁) (h' : Grows l₁ l₂) : Grows l l₂ where
  storage := h'.storage.trans h.storage
  applyIndex := h'.applyIndex.trans h.applyIndex
  commit_le := h.commit_le.trans h'.commit_le
  committed := by
    rw [← h.committed, ← Nat.min_eq_left h.commit_le, ← take_take, h'.committed, take_take]
  offset_le := h'.offset_le.trans h.offset_le
  unstable_ne hne := h'.unstable_ne (h.unstable_ne hne)

/-- Entries that were committed before stay the same. -/
lemma take_eq (h : Grows l l₁) {k : ℕ} (hk : k ≤ l.commitIndex) : l₁.abs.take k = l.abs.take k := by
  rw [← Nat.min_eq_left hk, ← take_take, h.committed, take_take]

end Grows

namespace WF

variable {l : RaftLog}

/-! ## Lengths and indices -/

lemma storage_offset (h : l.WF) : l.storage.offset = 0 :=
  MemoryStorage.offset_eq_zero h.stored

lemma storage_pos (_ : l.WF) : 0 < l.storage.entries.length :=
  length_pos_iff.2 l.storage.entries_ne

lemma storage_lastIndex (h : l.WF) : l.storage.lastIndex + 1 = l.storage.entries.length :=
  MemoryStorage.lastIndex_add_one h.stored

lemma firstIndex_eq (h : l.WF) : l.firstIndex = 1 := by
  rw [firstIndex, MemoryStorage.firstIndex, h.storage_offset]

lemma length_stored (h : l.WF) :
    (l.storage.entries.tail.take (l.unstable.offset - 1)).length = l.unstable.offset - 1 := by
  have := h.offset_le
  rw [length_take_of_le]
  rw [length_tail]
  omega

lemma length_abs (h : l.WF) : l.abs.length + 1 = l.unstable.offset + l.unstable.entries.length := by
  have := h.offset_pos
  rw [abs, length_append, h.length_stored]
  omega

lemma lastIndex_eq (h : l.WF) : l.lastIndex = l.abs.length := by
  have hlen := h.length_abs
  have hst := h.storage_lastIndex
  unfold lastIndex Unstable.maybeLastIndex
  by_cases hu : l.unstable.entries = []
  · have := h.offset_eq hu
    simp only [hu, length_nil, ne_eq, not_true_eq_false, if_false] at hlen ⊢
    omega
  · have hpos : l.unstable.entries.length ≠ 0 := by
      rw [Ne, length_eq_zero_iff]
      exact hu
    rw [if_pos hpos]
    dsimp only
    omega

/-- The entry with index `k + 1` is read from the storage or from the unstable entries. -/
lemma getElem?_abs (h : l.WF) (k : ℕ) :
    l.abs[k]? = if k + 1 < l.unstable.offset then l.storage.entries[k + 1]?
      else l.unstable.entries[k + 1 - l.unstable.offset]? := by
  have hpos := h.offset_pos
  rw [abs, getElem?_append, h.length_stored]
  by_cases hk : k + 1 < l.unstable.offset
  · rw [if_pos (by omega), if_pos hk, getElem?_take_of_lt (by omega), getElem?_tail]
  · rw [if_neg (by omega), if_neg hk]
    congr 1
    omega

lemma consec_abs (h : l.WF) : Consec 1 l.abs := by
  intro k e hk
  rw [h.getElem?_abs] at hk
  split at hk
  · have := h.stored _ e hk
    omega
  · have := h.unstable _ e hk
    omega

/-! ## Reading -/

variable {lo hi k j p : ℕ} {es : List Entry}

section

variable (h : l.WF)
include h

lemma stableSlice_eq (hlo : 1 ≤ lo) (hlh : lo ≤ hi) :
    l.stableSlice lo hi =
      .ok ((l.storage.entries.drop lo).take (min l.unstable.offset hi - lo)) := by
  have hle := h.offset_le
  have hst := h.storage_lastIndex
  unfold stableSlice MemoryStorage.slice goSlice
  rw [h.storage_offset]
  by_cases hlt : lo < l.unstable.offset
  · rw [if_pos hlt, if_neg (by omega), if_neg (by omega), if_neg (by omega), if_pos (by omega)]
    rfl
  · rw [if_neg hlt, Nat.sub_eq_zero_of_le (by omega)]
    rfl

lemma unstableSlice_eq (hlh : lo ≤ hi) (hhi : hi ≤ l.abs.length + 1) :
    l.unstableSlice lo hi = .ok ((l.unstable.entries.drop (lo - l.unstable.offset)).take
      (hi - max lo l.unstable.offset)) := by
  have hlen := h.length_abs
  unfold unstableSlice Unstable.slice Unstable.mustCheckOutOfBounds goSlice
  by_cases hgt : hi > l.unstable.offset
  · rw [if_pos hgt, if_neg (by omega), if_neg (by omega)]
    change (if _ then _ else _) = _
    rw [if_pos (by omega)]
    congr 2
    · omega
    · congr 1
      omega
  · rw [if_neg hgt, Nat.sub_eq_zero_of_le (by omega)]
    rfl

/-- **Reading a slice**: `slice(lo, hi)` returns the entries with indices `lo` to `hi - 1`. -/
lemma slice_eq (hlo : 1 ≤ lo) (hlh : lo ≤ hi)
    (hhi : hi ≤ l.abs.length + 1) :
    l.slice lo hi = .ok ((l.abs.drop (lo - 1)).take (hi - lo)) := by
  have hcheck : l.mustCheckOutOfBounds lo hi = .ok () := by
    unfold mustCheckOutOfBounds
    rw [h.firstIndex_eq, h.lastIndex_eq, if_neg (by omega), if_neg (by omega), if_neg (by omega)]
  unfold slice
  rw [hcheck, h.stableSlice_eq hlo hlh, h.unstableSlice_eq hlh hhi]
  by_cases heq : lo = hi
  · rw [if_pos heq, heq, Nat.sub_self]
    rfl
  · rw [if_neg heq]
    change Except.ok _ = _
    congr 1
    -- compare the two lists position by position
    have hoff := h.offset_le
    refine ext_getElem? fun k => ?_
    rw [getElem?_append, length_take, length_drop, getElem?_take,
      getElem?_drop, getElem?_take, getElem?_drop, getElem?_take,
      getElem?_drop, h.getElem?_abs]
    by_cases hk : k < min l.unstable.offset hi - lo
    · rw [if_pos (by omega), if_pos (by omega), if_pos (by omega), if_pos (by omega)]
      congr 1
      omega
    · rw [if_neg (by omega)]
      by_cases hk' : k < hi - lo
      · rw [if_pos (by omega), if_pos hk', if_neg (by omega)]
        congr 1
        omega
      · rw [if_neg (by omega), if_neg hk']

lemma slice_bounds (hs : l.slice lo hi = .ok es) : 1 ≤ lo ∧ lo ≤ hi ∧ hi ≤ l.abs.length + 1 := by
  obtain ⟨u, hcheck, hrest⟩ := bind_eq_ok.1 hs
  unfold mustCheckOutOfBounds at hcheck
  rw [h.firstIndex_eq, h.lastIndex_eq] at hcheck
  split at hcheck
  · cases hcheck
  · split at hcheck
    · cases hcheck
    · split at hcheck
      · cases hcheck
      · omega

lemma nextEntries_eq :
    l.nextEntries =
      .ok ((l.abs.drop l.applyIndex).take (l.commitIndex - l.applyIndex)) := by
  have hcl := h.commit_le
  unfold nextEntries
  rw [h.firstIndex_eq, Nat.max_eq_left (by omega)]
  by_cases hlt : l.applyIndex < l.commitIndex
  · rw [if_pos (by omega), h.slice_eq (by omega) (by omega) (by omega)]
    congr 2
    omega
  · rw [if_neg (by omega), Nat.sub_eq_zero_of_le (by omega)]
    rfl

lemma entriesFrom_eq {i : ℕ} (hi : 1 ≤ i) : l.entriesFrom i = .ok (l.abs.drop (i - 1)) := by
  unfold entriesFrom
  rw [h.lastIndex_eq]
  by_cases hgt : i > l.abs.length
  · rw [if_pos hgt, drop_eq_nil_of_le (by omega)]
  · rw [if_neg hgt, h.slice_eq hi (by omega) le_rfl, take_of_length_le]
    rw [length_drop]
    omega

/-- The term of an unstable entry. -/
lemma maybeTerm_eq {i : ℕ} (hi : l.unstable.offset ≤ i) :
    l.unstable.maybeTerm i = if i ≤ l.abs.length then some (termAt l.abs i) else none := by
  have hpos := h.offset_pos
  have hla := h.length_abs
  unfold Unstable.maybeTerm Unstable.maybeLastIndex
  rw [if_neg (by omega)]
  by_cases hle : i ≤ l.abs.length
  · have hlt : i - l.unstable.offset < l.unstable.entries.length := by omega
    rw [if_pos hle, if_pos (by omega)]
    dsimp only
    rw [if_neg (by omega), termAt_pos (by omega), h.getElem?_abs, if_neg (by omega),
      Nat.sub_add_cancel (by omega), getElem?_eq_getElem hlt]
    rfl
  · rw [if_neg hle]
    by_cases hu : l.unstable.entries.length = 0
    · rw [if_neg (not_not.2 hu)]
    · rw [if_pos hu]
      dsimp only
      rw [if_pos (by omega)]

/-- **Reading a term**: `term(i)` never fails, and is `0` for the dummy and out of range. -/
lemma term_eq (ht : l.TermsOk) (i : ℕ) : l.term i = .ok (termAt l.abs i) := by
  have hlen := h.length_abs
  have hoff := h.offset_le
  have hpos := h.offset_pos
  unfold term
  rw [h.firstIndex_eq, h.lastIndex_eq]
  by_cases hout : i < 1 - 1 ∨ i > l.abs.length
  · rw [if_pos hout, termAt, if_neg (by omega), getElem?_eq_none (by omega)]
    rfl
  · rw [if_neg hout]
    have hst : l.storage.term i = l.storage.entries[i]?.elim (.error .unavailable)
        fun e => .ok e.term := by
      unfold MemoryStorage.term
      rw [h.storage_offset, if_neg i.not_lt_zero, Nat.sub_zero]
      cases l.storage.entries[i]? <;> rfl
    by_cases hi : i < l.unstable.offset
    · have hnone : l.unstable.maybeTerm i = none := by
        unfold Unstable.maybeTerm
        rw [if_pos hi]
      rw [hnone]
      rw [hst]
      rcases Nat.eq_zero_or_pos i with rfl | hip
      · have hd := getElem?_eq_getElem (l := l.storage.entries) h.storage_pos
        rw [hd, Option.elim_some, ht.dummy _ hd]
        rfl
      · rw [termAt_pos hip, h.getElem?_abs, if_pos (by omega), Nat.sub_add_cancel hip,
          getElem?_eq_getElem (by omega)]
        rfl
    · -- the entry is unstable, and its term is positive
      obtain ⟨e, hget⟩ : ∃ e, l.abs[i - 1]? = some e :=
        ⟨_, getElem?_eq_getElem (by omega)⟩
      have hterm : termAt l.abs i = e.term := by
        rw [termAt_pos (by omega), hget]
        rfl
      rw [h.maybeTerm_eq (not_lt.1 hi), if_pos (by omega), hterm]
      exact if_pos (ht.pos _ (mem_of_getElem? hget)).ne'

lemma lastTerm_eq (ht : l.TermsOk) : l.lastTerm = .ok (Consensus.lastTerm l.abs) := by
  unfold lastTerm
  rw [h.term_eq ht, h.lastIndex_eq]
  rfl

lemma matchTerm_eq (ht : l.TermsOk) (i t : ℕ) : l.matchTerm i t = decide (termAt l.abs i = t) := by
  unfold matchTerm
  rw [h.term_eq ht]

/-- `isUpToDate` compares the last terms, then the last indices. -/
lemma isUpToDate_eq (ht : l.TermsOk) (index term : ℕ) :
    l.isUpToDate index term = .ok (decide (Consensus.lastTerm l.abs < term ∨
      Consensus.lastTerm l.abs = term ∧ l.abs.length ≤ index)) := by
  unfold isUpToDate
  rw [h.lastTerm_eq ht, h.lastIndex_eq]
  change Except.ok _ = _
  congr 1
  rw [Bool.eq_iff_iff]
  simp only [Bool.or_eq_true, Bool.and_eq_true, decide_eq_true_eq, beq_iff_eq]
  exact or_congr_right (and_congr_left' eq_comm)

/-! ## Committing and applying -/

/-- `commitTo` never lowers the commit index, and panics only beyond the last index. -/
lemma commitTo_eq (hk : k ≤ l.abs.length) :
    l.commitTo k = .ok { l with commitIndex := max l.commitIndex k } := by
  unfold commitTo
  rw [h.lastIndex_eq]
  by_cases hge : l.commitIndex ≥ k
  · rw [if_pos hge, Nat.max_eq_left hge]
  · rw [if_neg hge, if_neg (by omega), Nat.max_eq_right (by omega)]

/-- Raising the commit index within the log keeps its parts fitting. -/
lemma setCommit (hk : k ≤ l.commitIndex ∨ k ≤ l.abs.length) :
    WF { l with commitIndex := max l.commitIndex k } :=
  { h with
    apply_le := h.apply_le.trans (le_max_left _ _)
    commit_le := by
      have := h.commit_le
      change max l.commitIndex k ≤ l.abs.length
      omega }

end

/-- Committing raises the commit index, within the log, and does not change the entries. -/
lemma commitTo_ensures (l : RaftLog) (k : ℕ) :
    Ensures (l.commitTo k) fun l' => l'.abs = l.abs ∧ Grows l l' ∧ (l.WF → WF l') := by
  unfold commitTo
  split
  · exact .ok ⟨rfl, Grows.refl l, id⟩
  rename_i hge
  split
  · exact .error _
  rename_i hgt
  have heq : max l.commitIndex k = k := Nat.max_eq_right (by omega)
  refine .ok ⟨rfl, { Grows.refl l with commit_le := by dsimp only; omega }, fun h => ?_⟩
  rw [h.lastIndex_eq] at hgt
  exact heq ▸ h.setCommit (k := k) (.inr (not_lt.1 hgt))

/-- `maybeCommit` commits a new index whose entry is of the given term. -/
lemma maybeCommit_eq (h : l.WF) (ht : l.TermsOk) {term : ℕ} (hpos : 1 ≤ term) :
    l.maybeCommit k term =
      if l.commitIndex < k ∧ termAt l.abs k = term then
        .ok ({ l with commitIndex := k }, true)
      else .ok (l, false) := by
  unfold maybeCommit
  rw [h.term_eq ht]
  by_cases hgt : l.commitIndex < k
  · rw [if_pos hgt]
    change (if _ then _ else _) = _
    by_cases hterm : termAt l.abs k = term
    · rw [if_pos hterm, if_pos ⟨hgt, hterm⟩,
        h.commitTo_eq (le_length_of_termAt_pos (by omega)), Nat.max_eq_right hgt.le]
      rfl
    · rw [if_neg hterm, if_neg (by tauto)]
  · rw [if_neg hgt, if_neg (by tauto)]

lemma maybeCommit_ensures (l : RaftLog) (k term : ℕ) :
    Ensures (l.maybeCommit k term) fun p =>
      p.1.abs = l.abs ∧ Grows l p.1 ∧ (l.WF → WF p.1) := by
  have hsame : l.abs = l.abs ∧ Grows l l ∧ (l.WF → WF l) := ⟨rfl, Grows.refl l, id⟩
  unfold maybeCommit
  split
  · refine Ensures.bind' fun t => ?_
    split
    · exact (commitTo_ensures l k).bind fun l' hl' => .ok hl'
    · exact .ok hsame
  · exact .ok hsame

/-! ## Appending -/

section

variable (h : l.WF) (hes : es ≠ []) (hc : Consec j es)
include h hes hc

/-- **Appending** entries with the indices `j`, `j + 1`, ... cuts the log before `j` and
puts them there. It panics when that would remove a committed entry or leave a gap. -/
lemma append_ok
    (hj : l.commitIndex < j) (hlen : j ≤ l.abs.length + 1) :
    ∃ u, l.append es = .ok { l with unstable := u } ∧
      WF { l with unstable := u } ∧
      abs { l with unstable := u } = l.abs.take (j - 1) ++ es ∧ u.entries ≠ [] ∧
      u.offset ≤ l.unstable.offset := by
  have hla := h.length_abs
  have hle := h.offset_le
  have hpos := h.offset_pos
  obtain ⟨e, rest, rfl⟩ := exists_cons_of_ne_nil hes
  have hidx : e.index = j := hc.cons_index
  -- the three cases of `truncateAndAppend`, with the entries that are kept
  have htrunc : ∃ u, l.unstable.truncateAndAppend (e :: rest) = .ok u ∧
      u.offset = min j l.unstable.offset ∧
      u.entries = l.unstable.entries.take (j - l.unstable.offset) ++ e :: rest := by
    unfold Unstable.truncateAndAppend
    dsimp only
    rw [hidx]
    by_cases h1 : j = l.unstable.offset + l.unstable.entries.length
    · rw [if_pos h1]
      refine ⟨_, rfl, ?_, ?_⟩
      · dsimp only
        omega
      · rw [take_of_length_le (by omega)]
    · rw [if_neg h1]
      by_cases h2 : j ≤ l.unstable.offset
      · rw [if_pos h2]
        refine ⟨_, rfl, ?_, ?_⟩
        · dsimp only
          omega
        · rw [Nat.sub_eq_zero_of_le h2]
          rfl
      · rw [if_neg h2]
        unfold Unstable.slice Unstable.mustCheckOutOfBounds goSlice
        rw [if_neg (by omega), if_neg (by omega)]
        refine ⟨_, by rw [if_pos (by omega)]; rfl, ?_, ?_⟩
        · dsimp only
          omega
        · simp
  obtain ⟨u, hu, huoff, hue⟩ := htrunc
  have habs : abs { l with unstable := u } = l.abs.take (j - 1) ++ e :: rest := by
    unfold abs
    rw [hue, huoff, ← append_assoc]
    congr 1
    rw [take_append, h.length_stored, take_take]
    congr 2
    · omega
    · omega
  refine ⟨u, ?_, ?_, habs, ?_, ?_⟩
  · unfold append
    dsimp only
    rw [if_neg (by omega), hu]
    rfl
  · have hkept : Consec u.offset (l.unstable.entries.take (j - l.unstable.offset)) := by
      by_cases h2 : j ≤ l.unstable.offset
      · rw [Nat.sub_eq_zero_of_le h2]
        exact Consec.nil _
      · rw [huoff, Nat.min_eq_right (by omega)]
        exact h.unstable.take _
    refine { h with offset_pos := ?_, offset_le := ?_, unstable := ?_, offset_eq := ?_,
                    commit_le := ?_ }
    · dsimp only
      omega
    · dsimp only
      omega
    · rw [hue]
      refine hkept.append ?_
      rw [length_take]
      convert hc using 1
      omega
    · intro hnil
      rw [hue] at hnil
      simp at hnil
    · rw [habs, length_append, length_take]
      dsimp only [length_cons]
      omega
  · rw [hue]
    simp
  · omega

/-- When `append` returns, no committed entry was removed and there is no gap. -/
lemma append_bounds
    (hj : 1 ≤ j) : Ensures (l.append es) fun _ => l.commitIndex < j ∧ j ≤ l.abs.length + 1 := by
  have hla := h.length_abs
  obtain ⟨e, rest, rfl⟩ := exists_cons_of_ne_nil hes
  have hidx : e.index = j := hc.cons_index
  unfold append
  dsimp only
  split
  · exact .error _
  · unfold Unstable.truncateAndAppend
    dsimp only
    rw [hidx]
    by_cases h1 : j = l.unstable.offset + l.unstable.entries.length
    · exact Ensures.bind' fun u => .ok ⟨by omega, by omega⟩
    · rw [if_neg h1]
      by_cases h2 : j ≤ l.unstable.offset
      · exact Ensures.bind' fun u => .ok ⟨by omega, by omega⟩
      · rw [if_neg h2]
        unfold Unstable.slice Unstable.mustCheckOutOfBounds
        rw [if_neg (by omega)]
        by_cases h3 : j > l.unstable.offset + l.unstable.entries.length
        · rw [if_pos (.inr h3)]
          exact .error _
        · exact Ensures.bind' fun u => .ok ⟨by omega, by omega⟩

/-- What an append does, if it returns. -/
lemma append_ensures
    (hj : 1 ≤ j) :
    Ensures (l.append es) fun l' => ∃ u, l' = { l with unstable := u } ∧
      WF { l with unstable := u } ∧
      abs { l with unstable := u } = l.abs.take (j - 1) ++ es ∧ u.entries ≠ [] ∧
      u.offset ≤ l.unstable.offset ∧ l.commitIndex < j ∧ j ≤ l.abs.length + 1 := by
  intro l' hl'
  obtain ⟨h1, h2⟩ := h.append_bounds hes hc hj l' hl'
  obtain ⟨u, hu, hwf, habs, hne, hoff⟩ := h.append_ok hes hc h1 h2
  rw [hl'] at hu
  cases hu
  exact ⟨u, rfl, hwf, habs, hne, hoff, h1, h2⟩

end

/-! ## `maybeAppend` -/

/-- `findConflict` returns `0` when every entry matches, and otherwise the index of the
first one that does not. -/
lemma findConflict_cases (l : RaftLog) (hc : Consec j es) :
    (l.findConflict es = 0 ∧ ∀ e ∈ es, l.matchTerm e.index e.term) ∨
    ∃ k e, es[k]? = some e ∧ l.findConflict es = j + k ∧ ¬l.matchTerm e.index e.term ∧
      ∀ k' e', k' < k → es[k']? = some e' → l.matchTerm e'.index e'.term := by
  induction es generalizing j with
  | nil => exact .inl ⟨rfl, by simp⟩
  | cons e es ih =>
    have htail : Consec (j + 1) es := hc.drop 1
    unfold findConflict
    by_cases hm : l.matchTerm e.index e.term
    · rw [if_pos hm]
      rcases ih htail with ⟨h0, hall⟩ | ⟨k, e', hk, hf, hno, hbefore⟩
      · refine .inl ⟨h0, fun x hx => ?_⟩
        rcases mem_cons.1 hx with rfl | hx
        · exact hm
        · exact hall x hx
      · refine .inr ⟨k + 1, e', by simpa using hk, by omega, hno, ?_⟩
        intro k' x hk' hx
        cases k' with
        | zero =>
          cases hx
          exact hm
        | succ k' => exact hbefore k' x (by omega) (by simpa using hx)
    · rw [if_neg hm]
      exact .inr ⟨0, e, rfl, by rw [hc.cons_index]; rfl, hm, by omega⟩

/-- Appending after the committed entries only makes the log grow. -/
lemma append_grows (h : l.WF) (hes : es ≠ []) (hc : Consec j es)
    (hj : 1 ≤ j) : Ensures (l.append es) fun l' => WF l' ∧ Grows l l' ∧ l'.abs ⊆ l.abs ++ es := by
  refine (h.append_ensures hes hc hj).mono ?_
  rintro l₁ ⟨u, rfl, hwf, habs, hne, hoff, hlt, hle⟩
  rw [habs]
  refine ⟨hwf, ⟨rfl, rfl, le_rfl, ?_, hoff, fun _ => hne⟩, fun e he => ?_⟩
  · rw [habs, take_append_of_le_length, take_take]
    · congr 1
      omega
    · rw [length_take]
      omega
  · exact mem_append.2 ((mem_append.1 he).imp_left mem_of_mem_take)

/-- The switch of `maybeAppend`: nothing is done when every entry matches, and otherwise the
entries from the first one on that does not are appended, unless it is a committed one. -/
lemma appendConflict_cases (l : RaftLog) (hes : Consec (p + 1) es) :
    ((∀ e ∈ es, l.matchTerm e.index e.term) ∧ l.appendConflict p es = .ok l) ∨
    ∃ k e, es[k]? = some e ∧ ¬l.matchTerm e.index e.term ∧
      (∀ k' e', k' < k → es[k']? = some e' → l.matchTerm e'.index e'.term) ∧
      l.appendConflict p es = if p + 1 + k ≤ l.commitIndex then
        .error (.raised "conflict before commit index") else l.append (es.drop k) := by
  unfold appendConflict
  rcases findConflict_cases l hes with ⟨h0, hall⟩ | ⟨k, e, hk, hf, hno, hbefore⟩
  · exact .inl ⟨hall, if_pos h0⟩
  · refine .inr ⟨k, e, hk, hno, hbefore, ?_⟩
    have hlt : k < es.length := (List.getElem?_eq_some_iff.1 hk).1
    have hfresh : goSlice es k es.length = .ok (es.drop k) := by
      unfold goSlice
      rw [if_pos ⟨hlt.le, le_rfl⟩, take_of_length_le]
      rw [length_drop]
    rw [hf, if_neg (by omega), if_neg (show ¬ p + 1 + k < p + 1 by omega),
      show p + 1 + k - (p + 1) = k by omega, hfresh]
    rfl

/-- The switch of `maybeAppend` keeps the committed entries, whatever the entries are. -/
lemma appendConflict_ensures (h : l.WF) (hes : Consec (p + 1) es) :
    Ensures (l.appendConflict p es) fun l' => WF l' ∧ Grows l l' ∧ l'.abs ⊆ l.abs ++ es := by
  rcases appendConflict_cases l hes with ⟨-, heq⟩ | ⟨k, e, hk, -, -, heq⟩
  · rw [heq]
    exact .ok ⟨h, Grows.refl l, subset_append_left _ _⟩
  · rw [heq]
    split
    · exact .error _
    have hlt : k < es.length := (List.getElem?_eq_some_iff.1 hk).1
    have hne : es.drop k ≠ [] := by
      rw [Ne, drop_eq_nil_iff]
      omega
    refine (h.append_grows hne (hes.drop k) (by omega)).mono fun l' hl' => ?_
    exact ⟨hl'.1, hl'.2.1, fun e he => mem_append.2 ((mem_append.1 (hl'.2.2 he)).imp_right
      mem_of_mem_drop)⟩

/-- What is left of a log after `maybeAppend`, whatever the entries are: nothing committed
is lost, and what is there was there before or comes from the message. -/
lemma maybeAppend_ensures (h : l.WF) {t c : ℕ} (hes : Consec (p + 1) es) :
    Ensures (l.maybeAppend p t c es) fun o => ∀ l' k, o = some (l', k) →
      WF l' ∧ Grows l l' ∧ l'.abs ⊆ l.abs ++ es := by
  unfold maybeAppend
  split
  · refine (h.appendConflict_ensures hes).bind fun l₁ hl₁ => ?_
    refine (commitTo_ensures l₁ _).bind fun l₂ hl₂ => .ok ?_
    intro l' k hlk
    cases hlk
    exact ⟨hl₂.2.2 hl₁.1, hl₁.2.1.trans hl₂.2.1, hl₂.1 ▸ hl₁.2.2⟩
  · exact .ok fun l' k hlk => nomatch hlk

section Leader

/-! A follower's log meets the log `L` of a leader: wherever the terms of the two agree, so
do the entries up to there, and the follower's committed entries are in `L`. -/

variable {L : List Entry} {p n c : ℕ}
  (hmatch : ∀ i, 0 < i → i ≤ L.length → termAt l.abs i = termAt L i → l.abs.take i = L.take i)
  (hcommit : l.abs.take l.commitIndex <+: L) (hL : Consec 1 L) (hpn : p + n ≤ L.length)

include hL in
/-- The entry with index `p + 1 + k` in a fragment of `L`. -/
lemma fragment_getElem? {k : ℕ} {e : Entry} (he : ((L.drop p).take n)[k]? = some e) :
    k < n ∧ e.index = p + 1 + k ∧ e.term = termAt L (p + 1 + k) := by
  rw [getElem?_take] at he
  split at he
  · rename_i hk
    rw [getElem?_drop] at he
    refine ⟨hk, ?_, ?_⟩
    · have := hL _ e he
      omega
    · rw [termAt_pos (by omega), show p + 1 + k - 1 = p + k by omega, he]
      rfl
  · cases he

include hmatch hcommit hL hpn in
/-- **The entries of a leader's log are merged in.** If the previous entry matches, the log
starts with the first `p + n` entries of the leader's log afterwards, and it is only changed
if it did not before.

**Proof sketch.** Without a conflict the terms agree up to `p + n`, hence so do the entries.
With a conflict at index `j` the entries before `j` agree and the rest is replaced; `j` is
not committed, since the committed entries are those of the leader. -/
lemma appendConflict_merge (h : l.WF) (ht : l.TermsOk)
    (hprev : termAt l.abs p = termAt L p) :
    ∃ u, l.appendConflict p ((L.drop p).take n) = .ok { l with unstable := u } ∧
      WF { l with unstable := u } ∧
      abs { l with unstable := u } = merge l.abs (L.take (p + n)) := by
  have hcl := h.commit_le
  have hlen : ((L.drop p).take n).length = n := by
    rw [length_take, length_drop]
    omega
  have hcons : Consec (p + 1) ((L.drop p).take n) := by
    intro k e he
    exact (fragment_getElem? hL he).2.1
  have hagree : ∀ i, i ≤ L.length → termAt l.abs i = termAt L i →
      l.abs.take i = L.take i := by
    intro i hi hti
    rcases Nat.eq_zero_or_pos i with rfl | hpos
    · simp
    · exact hmatch i hpos hi hti
  -- the log agrees with `L` up to any index before which every entry matches
  have hupto : ∀ k ≤ n, (∀ k' e', k' < k → ((L.drop p).take n)[k']? = some e' →
      l.matchTerm e'.index e'.term) → l.abs.take (p + k) = L.take (p + k) := by
    intro k hk hall
    rcases Nat.eq_zero_or_pos k with rfl | hpos
    · exact hagree p (by omega) hprev
    · have hlt : k - 1 < ((L.drop p).take n).length := by omega
      have he := getElem?_eq_getElem hlt
      obtain ⟨-, hidx, hterm⟩ := fragment_getElem? hL he
      have hm := hall (k - 1) _ (by omega) he
      rw [h.matchTerm_eq ht, decide_eq_true_eq, hidx, hterm,
        show p + 1 + (k - 1) = p + k by omega] at hm
      exact hagree _ (by omega) hm
  rcases appendConflict_cases l hcons with ⟨hall, hsame⟩ | ⟨k, e, hk, hno, hbefore, happend⟩
  · have heq := hupto n le_rfl fun k' e' _ he' => hall e' (mem_of_getElem? he')
    refine ⟨l.unstable, hsame, h, ?_⟩
    rw [merge, if_pos]
    exact heq ▸ List.take_prefix _ _
  · obtain ⟨hkn, hidx, hterm⟩ := fragment_getElem? hL hk
    have heq := hupto k hkn.le hbefore
    rw [h.matchTerm_eq ht, decide_eq_true_eq, hidx, hterm] at hno
    -- the conflict lies beyond the committed entries and is a real difference
    have hgt : l.commitIndex < p + 1 + k := by
      by_contra hle
      push Not at hle
      refine hno ?_
      have hpre := termAt_of_isPrefix hcommit (k := p + 1 + k) (by rw [length_take]; omega)
      rw [← hpre, termAt_take hle]
    have hlen' : p + k ≤ l.abs.length := by
      have := congrArg length heq
      rw [length_take, length_take] at this
      omega
    have hne : ((L.drop p).take n).drop k ≠ [] := by
      rw [Ne, drop_eq_nil_iff]
      omega
    obtain ⟨u, hu, hwf, habs, -⟩ := h.append_ok hne (hcons.drop k) hgt (by omega)
    rw [happend, if_neg (by omega)]
    refine ⟨u, hu, hwf, ?_⟩
    have hnotpre : ¬L.take (p + n) <+: l.abs := by
      intro hpre
      refine hno ?_
      rw [← termAt_of_isPrefix hpre (k := p + 1 + k) (by rw [length_take]; omega),
        termAt_take (by omega)]
    rw [habs, merge, if_neg hnotpre, show p + 1 + k - 1 = p + k by omega, heq]
    refine ext_getElem? fun m => ?_
    rw [getElem?_append, length_take, getElem?_take, getElem?_drop,
      getElem?_take, getElem?_drop, getElem?_take]
    by_cases hm : m < p + k
    · rw [if_pos (by omega), if_pos hm, if_pos (by omega)]
    · rw [if_neg (by omega)]
      by_cases hm' : m < p + n
      · rw [if_pos (by omega), if_pos hm']
        congr 1
        omega
      · rw [if_neg (by omega), if_neg hm']

include hmatch hcommit hL hpn in
/-- `maybeAppend` with a fragment of a leader's log: it is rejected if the previous entry
does not match, and merged in otherwise. -/
lemma maybeAppend_merge (h : l.WF) (ht : l.TermsOk) :
    (termAt l.abs p ≠ termAt L p ∧
      l.maybeAppend p (termAt L p) c ((L.drop p).take n) = .ok none) ∨
    ∃ u, l.maybeAppend p (termAt L p) c ((L.drop p).take n) =
        .ok (some ({ l with unstable := u
                            commitIndex := max l.commitIndex (min c (p + n)) }, p + n)) ∧
      WF { l with unstable := u, commitIndex := max l.commitIndex (min c (p + n)) } ∧
      abs { l with unstable := u } = merge l.abs (L.take (p + n)) := by
  have hlen : ((L.drop p).take n).length = n := by
    rw [length_take, length_drop]
    omega
  unfold maybeAppend
  rw [h.matchTerm_eq ht, hlen]
  by_cases hprev : termAt l.abs p = termAt L p
  · right
    obtain ⟨u, hu, hwf, habs⟩ :=
      appendConflict_merge hmatch hcommit hL hpn h ht hprev
    have hle : min c (p + n) ≤ (abs { l with unstable := u }).length := by
      have := (habs ▸ prefix_merge_self l.abs (L.take (p + n)) :
        L.take (p + n) <+: abs { l with unstable := u }).length_le
      rw [length_take] at this
      omega
    refine ⟨u, ?_, hwf.setCommit (.inr hle), habs⟩
    rw [if_pos (by simpa using hprev), hu]
    change (RaftLog.commitTo _ _ >>= _) = _
    rw [hwf.commitTo_eq hle]
    rfl
  · left
    refine ⟨hprev, ?_⟩
    rw [if_neg (by simpa using hprev)]

end Leader

/-! ## Saving entries -/

section Save

/-- The hard state and `applyIndex` do not matter for the represented log. -/
lemma abs_setStorage {st : MemoryStorage} (hst : st.entries = l.storage.entries) (a : ℕ) :
    abs { l with storage := st, applyIndex := a } = l.abs := by
  unfold abs
  rw [hst]

lemma setStorage (h : l.WF) {st : MemoryStorage} {a : ℕ} (hst : st.entries = l.storage.entries)
    (ha : a ≤ l.commitIndex) : WF { l with storage := st, applyIndex := a } where
  stored := by
    rw [hst]
    exact h.stored
  offset_pos := h.offset_pos
  offset_le := by
    rw [hst]
    exact h.offset_le
  unstable := h.unstable
  offset_eq hnil := by
    rw [hst]
    exact h.offset_eq hnil
  apply_le := ha
  commit_le := by
    rw [abs_setStorage hst]
    exact h.commit_le

variable {j : ℕ} {es : List Entry} {e : Entry}

/-- Saving the entries of an earlier `Ready` replaces the end of the storage. -/
lemma storage_append_eq (h : l.WF) (hne : es ≠ []) (hes : Consec j es)
    (hj : j ≤ l.storage.entries.length) :
    ∃ st, l.storage.append es = .ok st ∧ st.hardState = l.storage.hardState ∧
      st.entries = l.storage.entries.take j ++ es := by
  have hlast := h.storage_lastIndex
  obtain ⟨x, xs, rfl⟩ := exists_cons_of_ne_nil hne
  have hidx : x.index = j := hes.cons_index
  have hoff := h.storage_offset
  unfold MemoryStorage.append
  dsimp only
  rw [if_neg (by omega), if_neg (by omega)]
  exact ⟨_, rfl, rfl, by dsimp only; rw [hidx, hoff, Nat.sub_zero]⟩

variable (h : l.WF) (hes : Consec j es) (hj : l.unstable.offset ≤ j)
  (hjl : j ≤ l.storage.entries.length) (hu : l.unstable.entries ≠ [])
  {st : MemoryStorage} (hst : st.entries = l.storage.entries.take j ++ es)

include hj hjl hst in
/-- The represented log does not see the stored entries behind the unstable ones. -/
lemma abs_of_saved : abs { l with storage := st } = l.abs := by
  unfold abs
  congr 1
  rw [hst]
  refine ext_getElem? fun k => ?_
  rw [getElem?_take, getElem?_take, getElem?_tail, getElem?_tail]
  by_cases hk : k < l.unstable.offset - 1
  · rw [if_pos hk, if_pos hk, getElem?_append_left (by rw [length_take]; omega),
      getElem?_take_of_lt (by omega)]
  · rw [if_neg hk, if_neg hk]

include h hes hj hjl hu hst in
lemma saved : WF { l with storage := st } := by
  have hlen : st.entries.length = j + es.length := by
    rw [hst, length_append, length_take]
    omega
  refine { h with
    stored := ?_, offset_le := ?_, offset_eq := fun hnil => absurd hnil hu, commit_le := ?_ }
  · rw [hst]
    refine (h.stored.take j).append ?_
    rw [length_take, Nat.min_eq_left hjl, Nat.zero_add]
    exact hes
  · change l.unstable.offset ≤ st.entries.length
    omega
  · rw [abs_of_saved hj hjl hst]
    exact h.commit_le

include h hes hj hjl hst in
/-- The saved entries come to the front if the log has the last one of them. -/
lemma saved_stableTo_of_term (hlast : es.getLast? = some e) (hle : e.index ≤ l.abs.length)
    (hterm : termAt l.abs e.index = e.term) :
    stableTo { l with storage := st } e.index e.term = { l with
      storage := st
      unstable := {
        entries := l.unstable.entries.drop (e.index - l.unstable.offset + 1)
        offset := e.index + 1 } } ∧
    (l.storage.entries.tail.take (j - 1) ++ es).length = e.index ∧
    (stableTo { l with storage := st } e.index e.term).abs =
      l.storage.entries.tail.take (j - 1) ++ es ++ l.abs.drop e.index := by
  have hpos := h.offset_pos
  have hidx := hes.getLast? hlast
  have hespos := length_pos_of_mem (mem_of_getLast? hlast)
  have hstable : stableTo { l with storage := st } e.index e.term = { l with
      storage := st
      unstable := {
        entries := l.unstable.entries.drop (e.index - l.unstable.offset + 1)
        offset := e.index + 1 } } := by
    unfold stableTo Unstable.stableTo
    rw [h.maybeTerm_eq (by omega), if_pos hle, hterm]
    dsimp only
    rw [if_pos ⟨rfl, by omega⟩]
  have hRlen : (l.storage.entries.tail.take (j - 1) ++ es).length = e.index := by
    rw [length_append, length_take, length_tail]
    omega
  have hdrop : l.unstable.entries.drop (e.index - l.unstable.offset + 1) =
      l.abs.drop e.index := by
    have hnil : (l.storage.entries.tail.take (l.unstable.offset - 1)).drop e.index = [] :=
      drop_eq_nil_of_le (by rw [h.length_stored]; omega)
    rw [abs, drop_append, hnil, h.length_stored]
    congr 1
    omega
  have htail : st.entries.tail.take e.index = l.storage.entries.tail.take (j - 1) ++ es := by
    have hjne : l.storage.entries.take j ≠ [] := by
      rw [Ne, take_eq_nil_iff]
      rintro (h0 | h0)
      · omega
      · exact l.storage.entries_ne h0
    have htt : (l.storage.entries.take j).tail = l.storage.entries.tail.take (j - 1) := by
      rw [← drop_one, ← drop_one, drop_take]
    rw [hst, tail_append_of_ne_nil hjne, htt, take_of_length_le]
    rw [hRlen]
  refine ⟨hstable, hRlen, ?_⟩
  rw [hstable]
  unfold abs at hdrop ⊢
  rw [Nat.add_sub_cancel, htail, hdrop]

include h hes hj in
/-- Without the last saved entry in the log, `stableTo` does nothing. -/
lemma saved_stableTo_of_ne (hlast : es.getLast? = some e)
    (hne : ¬ (e.index ≤ l.abs.length ∧ termAt l.abs e.index = e.term)) :
    stableTo { l with storage := st } e.index e.term = { l with storage := st } := by
  have hidx := hes.getLast? hlast
  have hespos := length_pos_of_mem (mem_of_getLast? hlast)
  unfold stableTo Unstable.stableTo
  rw [h.maybeTerm_eq (by omega)]
  by_cases hle : e.index ≤ l.abs.length
  · rw [if_pos hle]
    dsimp only
    rw [if_neg]
    rintro ⟨hterm, -⟩
    exact hne ⟨hle, hterm.symm⟩
  · rw [if_neg hle]

include h hes hj hjl hu hst in
/-- **Saving the entries of an earlier `Ready`.** If the entry at the last saved index still
has the same term, the log starts with the saved entries afterwards; otherwise it stays as
it is.

**Proof sketch.** Unless the terms agree, `stableTo` does nothing, and the represented log
does not see the new end of the storage. If they agree, the unstable entries up to the last
saved index are dropped in favour of the saved ones. -/
lemma saved_stableTo (hlast : es.getLast? = some e) :
    WF (stableTo { l with storage := st } e.index e.term) ∧
    ((stableTo { l with storage := st } e.index e.term).abs = l.abs ∨
      ∃ R, R = l.storage.entries.tail.take (j - 1) ++ es ∧ R.length ≤ l.abs.length ∧
        termAt l.abs R.length = e.term ∧
        (stableTo { l with storage := st } e.index e.term).abs = R ++ l.abs.drop R.length) := by
  have hsaved := h.saved hes hj hjl hu hst
  by_cases hhas : e.index ≤ l.abs.length ∧ termAt l.abs e.index = e.term
  swap
  · rw [saved_stableTo_of_ne h hes hj hlast hhas]
    exact ⟨hsaved, .inl (abs_of_saved hj hjl hst)⟩
  obtain ⟨hle, hterm⟩ := hhas
  obtain ⟨hstable, hRlen, hnew⟩ := saved_stableTo_of_term h hes hj hjl hst hlast hle hterm
  have hidx := hes.getLast? hlast
  have hlen : st.entries.length = e.index + 1 := by
    rw [hst, length_append, length_take]
    omega
  have hespos := length_pos_of_mem (mem_of_getLast? hlast)
  have hcommit := h.commit_le
  refine ⟨?_, .inr ⟨_, rfl, ?_, ?_, ?_⟩⟩
  · have hbound : l.commitIndex ≤
        (stableTo { l with storage := st } e.index e.term).abs.length := by
      rw [hnew, length_append, length_drop]
      omega
    rw [hstable] at hbound ⊢
    refine { stored := hsaved.stored, offset_pos := by dsimp only; omega,
             offset_le := hlen.ge, unstable := ?_, offset_eq := fun _ => hlen.symm,
             apply_le := h.apply_le, commit_le := hbound }
    have := h.unstable.drop (e.index - l.unstable.offset + 1)
    dsimp only
    convert this using 1
    omega
  · rw [hRlen]
    exact hle
  · rw [hRlen]
    exact hterm
  · rw [hRlen]
    exact hnew

end Save

end WF

end RaftLog

end Yukino.Replica
