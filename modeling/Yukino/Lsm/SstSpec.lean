import Yukino.Lib.Outcome
import Yukino.Lsm.Sst

set_option autoImplicit false

/-!
# What a table holds

## Main definitions

* `separators` — the entries of the index of blocks.
* `Written` — what a writer has written so far.
* `tableOf` — a table of blocks with an index.
* `Node.Holds` — a node looks up, and reads back, the pairs of a list.

## Main results

* `readRecords_encodeBlock` — the records of a block are read back.
* `finish_appendAll_eq_tableOf` — what `Finish` leaves.
* `newNode_holds` — a table holds its pairs, if its first key is separable.
-/

namespace Yukino.Lsm

open Uvarint Outcome SSTReader List Option
open SortedAssoc (Ascending)

/-! ## Records -/

section Records

variable {prevKey key value rest : Bytes}

lemma sharedPrefixLen_spec (a b : Bytes) :
    sharedPrefixLen a b ≤ a.length ∧ sharedPrefixLen a b ≤ b.length ∧
      a.take (sharedPrefixLen a b) = b.take (sharedPrefixLen a b) := by
  fun_induction sharedPrefixLen a b with
  | case1 as b bs ih => simpa using ih
  | case2 => simp
  | case3 => simp

@[simp] lemma sharedPrefixLen_nil (b : Bytes) : sharedPrefixLen [] b = 0 := by
  rfl

lemma readFull_append (a b : Bytes) : readFull a.length (a ++ b) = .ok (a, b) := by
  simp [readFull]

lemma readUvarint_put {x : ℕ} (hx : x < 2 ^ 64) (rest : Bytes) :
    readUvarint (put x ++ rest) = .ok (x, rest) := by
  unfold readUvarint
  rw [read_put hx]
  rfl

/-- **A record is read back** behind a key that has the shared prefix. -/
lemma readRecord_encodeRecord {p : Bytes} (hkey : key.length < 2 ^ 64)
    (hvalue : value.length < 2 ^ 64) (hlen : sharedPrefixLen p key ≤ prevKey.length)
    (htake : prevKey.take (sharedPrefixLen p key) = key.take (sharedPrefixLen p key)) :
    readRecord prevKey (encodeRecord p key value ++ rest) = .ok ((key, value), rest) := by
  obtain ⟨-, hle, -⟩ := sharedPrefixLen_spec p key
  have hdrop : (key.drop (sharedPrefixLen p key)).length =
      key.length - sharedPrefixLen p key := length_drop ..
  unfold encodeRecord readRecord
  simp only [append_assoc]
  rw [readUvarint_put (by omega), ok_bind, readUvarint_put (by omega), ok_bind,
    readUvarint_put hvalue, ok_bind, ← hdrop, readFull_append, ok_bind, readFull_append, ok_bind]
  simp only [if_pos hlen, htake, take_append_drop]

lemma length_encodeRecord_pos (p key value : Bytes) : 0 < (encodeRecord p key value).length := by
  have := length_put_pos (sharedPrefixLen p key)
  simp only [encodeRecord, length_append]
  omega

end Records

/-! ## Blocks -/

/-- The last key of a list of pairs, `p` if there is none. -/
def lastKey : Bytes → List KV → Bytes
  | p, [] => p
  | _, kv :: l => lastKey kv.1 l

/-- The records of a list of pairs behind the key `p`. -/
def encodeBlock : Bytes → List KV → Bytes
  | _, [] => []
  | p, kv :: l => encodeRecord p kv.1 kv.2 ++ encodeBlock kv.1 l

/-- Keys and values have lengths of 64 bits. -/
def Short (kvs : List KV) : Prop :=
  ∀ kv ∈ kvs, kv.1.length < 2 ^ 64 ∧ kv.2.length < 2 ^ 64

section Blocks

variable {kvs l : List KV} {p prevKey rest : Bytes}

lemma lastKey_append (p : Bytes) (kvs l : List KV) :
    lastKey p (kvs ++ l) = lastKey (lastKey p kvs) l := by
  induction kvs generalizing p with
  | nil => rfl
  | cons a kvs ih => exact ih _

lemma lastKey_mem (h : kvs ≠ []) : ∃ v, (lastKey p kvs, v) ∈ kvs := by
  induction kvs generalizing p with
  | nil => exact absurd rfl h
  | cons a l ih =>
    cases l with
    | nil => exact ⟨a.2, mem_cons_self⟩
    | cons b l =>
      obtain ⟨v, hv⟩ := ih (p := a.1) (cons_ne_nil b l)
      exact ⟨v, mem_cons_of_mem _ hv⟩

lemma encodeBlock_append (p : Bytes) (kvs : List KV) (kv : KV) :
    encodeBlock p (kvs ++ [kv]) = encodeBlock p kvs ++ encodeRecord (lastKey p kvs) kv.1 kv.2 := by
  induction kvs generalizing p with
  | nil => simp [encodeBlock, lastKey]
  | cons a l ih => simp [encodeBlock, lastKey, ih]

lemma length_le_length_encodeBlock (p : Bytes) (kvs : List KV) :
    kvs.length ≤ (encodeBlock p kvs).length := by
  induction kvs generalizing p with
  | nil => exact le_rfl
  | cons a l ih =>
    have hpos := length_encodeRecord_pos p a.1 a.2
    have hle := ih a.1
    simp only [encodeBlock, length_append, length_cons]
    omega

/-- **The records of a block are read back**, and the rest of the stream after them. -/
lemma readRecords_encodeBlock (hshort : Short kvs) (hp : p = prevKey ∨ p = []) (rest : Bytes)
    (rounds : ℕ) :
    readRecords (kvs.length + rounds) prevKey (encodeBlock p kvs ++ rest) =
      (readRecords rounds (lastKey prevKey kvs) rest).map (kvs ++ ·) := by
  induction kvs generalizing p prevKey with
  | nil =>
    simp only [length_nil, Nat.zero_add, encodeBlock, nil_append, lastKey]
    cases readRecords rounds prevKey rest <;> rfl
  | cons a l ih =>
    obtain ⟨hkey, hvalue⟩ := hshort a mem_cons_self
    have hrecord : readRecord prevKey (encodeRecord p a.1 a.2 ++ (encodeBlock a.1 l ++ rest)) =
        .ok (a, encodeBlock a.1 l ++ rest) := by
      refine readRecord_encodeRecord hkey hvalue ?_ ?_
      · rcases hp with rfl | rfl
        · exact (sharedPrefixLen_spec _ _).1
        · simp
      · rcases hp with rfl | rfl
        · exact (sharedPrefixLen_spec _ _).2.2
        · simp
    rw [length_cons, Nat.add_right_comm, encodeBlock, append_assoc, readRecords, hrecord]
    simp only [lastKey]
    rw [ih (forall_mem_cons.1 hshort).2 (.inl rfl)]
    cases readRecords rounds (lastKey a.1 l) rest <;> rfl

lemma readRecords_nil (rounds : ℕ) (prevKey : Bytes) : readRecords rounds prevKey [] = .ok [] := by
  cases rounds <;> rfl

/-- The blocks of a table one after another. -/
def encodeBlocks (blocks : List (List KV)) : Bytes :=
  (blocks.map (encodeBlock [])).flatten

lemma length_encodeBlocks_cons (b : List KV) (bs : List (List KV)) :
    (encodeBlocks (b :: bs)).length = (encodeBlock [] b).length + (encodeBlocks bs).length := by
  simp [encodeBlocks]

/-- Blocks one after another are read as one stream: the first record of a block shares
nothing. -/
lemma readRecords_encodeBlocks {blocks : List (List KV)} (hshort : Short blocks.flatten)
    (prevKey : Bytes) (rounds : ℕ) :
    readRecords (blocks.flatten.length + rounds) prevKey (encodeBlocks blocks) =
      .ok blocks.flatten := by
  induction blocks generalizing prevKey with
  | nil => exact readRecords_nil _ _
  | cons b blocks ih =>
    rw [flatten_cons] at hshort ⊢
    have hb : Short b := fun kv hkv => hshort kv (mem_append_left _ hkv)
    have hrest : Short blocks.flatten := fun kv hkv => hshort kv (mem_append_right _ hkv)
    rw [length_append, Nat.add_assoc]
    show readRecords _ prevKey (encodeBlock [] b ++ encodeBlocks blocks) = _
    rw [readRecords_encodeBlock hb (.inr rfl), ih hrest]
    rfl

lemma length_flatten_le_length_encodeBlocks (blocks : List (List KV)) :
    blocks.flatten.length ≤ (encodeBlocks blocks).length := by
  induction blocks with
  | nil => exact le_rfl
  | cons b blocks ih =>
    have hle := length_le_length_encodeBlock [] b
    rw [length_encodeBlocks_cons, flatten_cons, length_append]
    omega

lemma readBlockData_encodeBlocks {blocks : List (List KV)} (hshort : Short blocks.flatten) :
    readBlockData (encodeBlocks blocks) = .ok blocks.flatten := by
  have hle := length_flatten_le_length_encodeBlocks blocks
  have h := readRecords_encodeBlocks hshort []
    ((encodeBlocks blocks).length + 1 - blocks.flatten.length)
  rw [Nat.add_sub_of_le (by omega)] at h
  exact h

lemma readBlockData_encodeBlock (hshort : Short kvs) :
    readBlockData (encodeBlock [] kvs) = .ok kvs := by
  have hkvs : Short [kvs].flatten := by simpa using hshort
  simpa [encodeBlocks] using readBlockData_encodeBlocks hkvs

end Blocks

/-! ## The writer -/

/-- The block that holds the pairs of a list. -/
def blockOf (kvs : List KV) : Block :=
  ⟨encodeBlock [] kvs, kvs.length, lastKey [] kvs⟩

lemma blockOf_append (kvs : List KV) (kv : KV) :
    (blockOf kvs).append kv.1 kv.2 = blockOf (kvs ++ [kv]) := by
  simp [blockOf, Block.append, encodeBlock_append, lastKey_append, lastKey]

/-- The index entries of blocks, the first of which is at an offset. -/
def entries : ℕ → List (List KV) → List Index
  | _, [] => []
  | offset, b :: bs =>
    ⟨lastKey [] b, offset, (encodeBlock [] b).length⟩ ::
      entries (offset + (encodeBlock [] b).length) bs

/-- The first key of a list of pairs, `d` if there is none. -/
def firstKey (d : Bytes) (kvs : List KV) : Bytes :=
  (kvs.head?.map Prod.fst).getD d

/-- The index entries in front of blocks, and in front of a key behind them: each has the separator
from the key before it, and the place of the block before it. -/
def separators : Bytes → ℕ → ℕ → List (List KV) → Bytes → List Index
  | p, offset, size, [], key => [⟨getSeparatorBetween p key, offset, size⟩]
  | p, offset, size, b :: bs, key =>
    ⟨getSeparatorBetween p (firstKey [] b), offset, size⟩ ::
      separators (lastKey p b) (offset + size) (encodeBlock [] b).length bs key

/-- The filters of blocks, by their offsets. -/
def filterEntries (conf : Config) : ℕ → List (List KV) → List (ℕ × Bytes)
  | _, [] => []
  | offset, b :: bs =>
    (offset, conf.filter.hash (b.map Prod.fst)) ::
      filterEntries conf (offset + (encodeBlock [] b).length) bs

/-- A map of filters from its entries. -/
def toFilters (l : List (ℕ × Bytes)) : AList (fun _ : ℕ => Bytes) :=
  l.foldl (fun filters e => filters.insert e.1 e.2) ∅

/-- The record of an index entry. -/
def Index.record (e : Index) : KV :=
  (e.key, put e.prevBlockOffset ++ put e.prevBlockSize)

/-- The record of a filter. -/
def filterRecord (e : ℕ × Bytes) : KV :=
  (put e.1, e.2)

section Writer

variable {conf : Config} {w : SSTWriter} {blocks bs : List (List KV)} {b cur : List KV}
  {first : Bytes}

lemma encodeBlocks_append (bs : List (List KV)) (b : List KV) :
    encodeBlocks (bs ++ [b]) = encodeBlocks bs ++ encodeBlock [] b := by
  simp [encodeBlocks]

lemma separators_append (p : Bytes) (offset size : ℕ) (bs : List (List KV)) (b : List KV)
    (key : Bytes) : separators p offset size (bs ++ [b]) key =
      separators p offset size bs (firstKey [] b) ++
        [⟨getSeparatorBetween (lastKey p (bs.flatten ++ b)) key,
          offset + size + (encodeBlocks bs).length, (encodeBlock [] b).length⟩] := by
  induction bs generalizing p offset size with
  | nil => simp [separators, encodeBlocks]
  | cons a bs ih =>
    simp only [cons_append, separators, ih, length_encodeBlocks_cons, Nat.add_assoc, flatten_cons,
      append_assoc, lastKey_append]

lemma filterEntries_append (conf : Config) (offset : ℕ) (bs bs' : List (List KV)) :
    filterEntries conf offset (bs ++ bs') = filterEntries conf offset bs ++
      filterEntries conf (offset + (encodeBlocks bs).length) bs' := by
  induction bs generalizing offset with
  | nil => simp [filterEntries, encodeBlocks]
  | cons a bs ih =>
    simp only [cons_append, filterEntries, ih, length_encodeBlocks_cons, Nat.add_assoc]

/-- In the file of the blocks, a block of some of their pairs is at the offset and has the size; an
empty block is anywhere. -/
def Spans (blocks : List (List KV)) (offset size : ℕ) : Prop :=
  ∃ front b back, encodeBlocks blocks = front ++ (encodeBlock [] b ++ back) ∧
    front.length = offset ∧ (encodeBlock [] b).length = size ∧ b ⊆ blocks.flatten

lemma spans_zero (blocks : List (List KV)) : Spans blocks 0 0 :=
  ⟨[], [], _, rfl, rfl, rfl, nil_subset _⟩

/-- The last block. -/
lemma spans_last (blocks : List (List KV)) (b : List KV) :
    Spans (blocks ++ [b]) (encodeBlocks blocks).length (encodeBlock [] b).length :=
  ⟨encodeBlocks blocks, b, [], by rw [encodeBlocks_append, append_nil], rfl, rfl, by simp⟩

lemma Spans.append {offset size : ℕ} (h : Spans blocks offset size) (b : List KV) :
    Spans (blocks ++ [b]) offset size := by
  obtain ⟨front, a, back, heq, hoffset, hsize, hsub⟩ := h
  refine ⟨front, a, back ++ encodeBlock [] b, ?_, hoffset, hsize, ?_⟩
  · rw [encodeBlocks_append, heq, append_assoc, append_assoc]
  · rw [flatten_append]
    exact List.Subset.trans hsub (subset_append_left _ _)

lemma Spans.le {offset size : ℕ} (h : Spans blocks offset size) :
    offset + size ≤ (encodeBlocks blocks).length := by
  obtain ⟨front, b, back, heq, rfl, rfl, -⟩ := h
  simp only [heq, length_append]
  omega

/-- Each index entry leads to a block. -/
lemma spans_of_mem_separators {key : Bytes} {e : Index} (he : e ∈ separators [] 0 0 blocks key) :
    Spans blocks e.prevBlockOffset e.prevBlockSize := by
  induction blocks using reverseRecOn generalizing key with
  | nil =>
    rw [mem_singleton.1 he]
    exact spans_zero _
  | append_singleton bs b ih =>
    rw [separators_append] at he
    rcases mem_append.1 he with he | he
    · exact (ih he).append b
    · rw [mem_singleton.1 he, Nat.zero_add]
      exact spans_last bs b

/-- The writer has written the blocks `blocks` and has `cur` in its current block, whatever the keys
are. The first pair of a block brings the index entry in front of it. -/
structure Written (conf : Config) (w : SSTWriter) (blocks : List (List KV)) (cur : List KV) :
    Prop where
  dataBuf : w.dataBuf = encodeBlocks blocks
  dataBlock : w.dataBlock = blockOf cur
  hashedKeys : w.hashedKeys = cur.map Prod.fst
  prevKey : w.prevKey = lastKey [] (blocks.flatten ++ cur)
  blockToFilter : w.blockToFilter = toFilters (filterEntries conf 0 blocks)
  filterBlock : w.filterBlock = blockOf ((filterEntries conf 0 blocks).map filterRecord)
  indexBlock : w.indexBlock = blockOf (w.index.map Index.record)
  index : ∀ key, (if cur = [] then w.insertIndex key else w).index =
    separators [] 0 0 blocks (firstKey key cur)
  nonempty : ∀ b ∈ blocks, b ≠ []

lemma written_new (conf : Config) : Written conf {} [] [] where
  dataBuf := rfl
  dataBlock := rfl
  hashedKeys := rfl
  prevKey := rfl
  blockToFilter := rfl
  filterBlock := rfl
  indexBlock := rfl
  index _ := rfl
  nonempty := by simp

/-- Finishing the current block. -/
lemma Written.refreshBlock (h : Written conf w blocks cur) (hcur : cur ≠ []) :
    Written conf (w.refreshBlock conf) (blocks ++ [cur]) [] := by
  have hkeys : w.hashedKeys.length ≠ 0 := by
    rw [h.hashedKeys, length_map]
    exact fun hlen => hcur (length_eq_zero_iff.1 hlen)
  have hoffset : w.dataBuf.length = 0 + (encodeBlocks blocks).length := by
    rw [h.dataBuf, Nat.zero_add]
  have hrecord : w.dataBlock.record = encodeBlock [] cur := by rw [h.dataBlock]; rfl
  unfold SSTWriter.refreshBlock
  rw [if_neg hkeys]
  constructor
  · simp [h.dataBuf, hrecord, encodeBlocks_append]
  · rfl
  · rfl
  · simp [h.prevKey]
  · simp [filterEntries_append, filterEntries, toFilters, h.blockToFilter, hoffset, h.hashedKeys]
  · rw [filterEntries_append, filterEntries, filterEntries, map_append, map_singleton,
      ← blockOf_append, ← h.filterBlock, ← h.hashedKeys, hoffset]
    rfl
  · exact h.indexBlock
  · intro key
    have hindex := h.index []
    rw [if_neg hcur] at hindex
    rw [if_pos rfl, separators_append, ← hindex, ← h.prevKey, ← hrecord, Nat.add_zero, ← hoffset]
    rfl
  · intro b hb
    rcases mem_append.1 hb with hb | hb
    · exact h.nonempty b hb
    · rw [mem_singleton.1 hb]
      exact hcur

/-- `refreshBlock` finishes the current block, unless it is empty. -/
lemma Written.exists_refreshBlock (h : Written conf w blocks cur) :
    ∃ blocks', Written conf (w.refreshBlock conf) blocks' [] ∧
      blocks'.flatten = blocks.flatten ++ cur := by
  by_cases hcur : cur = []
  · subst hcur
    have hsame : w.refreshBlock conf = w := by
      unfold SSTWriter.refreshBlock
      rw [h.hashedKeys]
      rfl
    exact ⟨blocks, by rwa [hsame], by simp⟩
  · exact ⟨_, h.refreshBlock hcur, by simp⟩

/-- The index entry in front of a key, if the current block is empty. -/
lemma Written.insertIndex (h : Written conf w blocks cur) (key : Bytes) :
    (if w.dataBlock.entriesCnt = 0 then w.insertIndex key else w) =
      { w with
        index := separators [] 0 0 blocks (firstKey key cur)
        indexBlock :=
          blockOf ((separators [] 0 0 blocks (firstKey key cur)).map Index.record) } := by
  have hcnt : w.dataBlock.entriesCnt = 0 ↔ cur = [] := by
    rw [h.dataBlock]
    exact length_eq_zero_iff
  simp only [hcnt, ← h.index key]
  split_ifs
  · have hblock : (w.insertIndex key).indexBlock =
        blockOf ((w.insertIndex key).index.map Index.record) := by
      show w.indexBlock.append _ _ = blockOf ((w.index ++ [_]).map Index.record)
      rw [map_append, map_singleton, ← blockOf_append, h.indexBlock]
      rfl
    rw [← hblock]
    rfl
  · rw [← h.indexBlock]

/-- A pair comes into the current block. -/
lemma Written.addPair (h : Written conf w blocks cur) (kv : KV) :
    Written conf (w.addPair kv.1 kv.2) blocks (cur ++ [kv]) := by
  unfold SSTWriter.addPair
  rw [h.insertIndex kv.1]
  exact
    { h with
      dataBlock := by simp only [h.dataBlock, blockOf_append]
      hashedKeys := by simp [h.hashedKeys]
      prevKey := by rw [← append_assoc, lastKey_append]; rfl
      indexBlock := rfl
      index := fun key => by
        rw [if_neg (by simp)]
        cases cur <;> rfl }

lemma Written.append (h : Written conf w blocks cur) (kv : KV) :
    ∃ blocks' cur', Written conf (w.append conf kv.1 kv.2) blocks' cur' ∧
      blocks'.flatten ++ cur' = blocks.flatten ++ cur ++ [kv] := by
  have hadd := h.addPair kv
  unfold SSTWriter.append
  simp only
  split_ifs
  · exact ⟨blocks ++ [cur ++ [kv]], [], hadd.refreshBlock (by simp), by simp⟩
  · exact ⟨blocks, cur ++ [kv], hadd, by simp⟩

/-- Appending any pairs. -/
lemma written_appendAll (conf : Config) (kvs : List KV) :
    ∃ blocks cur, Written conf (SSTWriter.appendAll conf {} kvs) blocks cur ∧
      blocks.flatten ++ cur = kvs := by
  induction kvs using reverseRecOn with
  | nil => exact ⟨[], [], written_new conf, rfl⟩
  | append_singleton kvs kv ih =>
    obtain ⟨blocks, cur, hw, hflat⟩ := ih
    obtain ⟨blocks', cur', hw', hflat'⟩ := hw.append kv
    refine ⟨blocks', cur', ?_, by rw [hflat', hflat]⟩
    rw [SSTWriter.appendAll, foldl_append]
    exact hw'

/-- The section of the filters. -/
def filterSection (conf : Config) (blocks : List (List KV)) : Bytes :=
  encodeBlock [] ((filterEntries conf 0 blocks).map filterRecord)

/-- The section of the index. -/
def indexSection (index : List Index) : Bytes :=
  encodeBlock [] (index.map Index.record)

/-- A table of blocks with an index. -/
def tableOf (conf : Config) (index : List Index) (blocks : List (List KV)) :
    SSTWriter.Finished where
  writes := [encodeBlocks blocks, filterSection conf blocks, indexSection index,
    SSTWriter.footer (encodeBlocks blocks).length (filterSection conf blocks).length
      ((encodeBlocks blocks).length + (filterSection conf blocks).length)
      (indexSection index).length]
  size := (encodeBlocks blocks).length + (filterSection conf blocks).length +
    (indexSection index).length
  blockToFilter := toFilters (filterEntries conf 0 blocks)
  index := index

/-- **What `Finish` leaves**, whatever the keys are: a table of blocks that hold the pairs, with an
index of these blocks.

**Proof sketch.** Induction on the pairs: `Written` describes the writer after each of them. At the
end the current block is finished, and the last key gets an index entry as if it began a block. -/
lemma finish_appendAll_eq_tableOf (conf : Config) (kvs : List KV) :
    ∃ blocks, blocks.flatten = kvs ∧ (∀ b ∈ blocks, b ≠ []) ∧
      (SSTWriter.appendAll conf {} kvs).finish conf =
        tableOf conf (separators [] 0 0 blocks (lastKey [] kvs)) blocks := by
  obtain ⟨blocks₀, cur, hw₀, hflat₀⟩ := written_appendAll conf kvs
  obtain ⟨blocks, hw, hflat⟩ := hw₀.exists_refreshBlock
  rw [hflat₀] at hflat
  refine ⟨blocks, hflat, hw.nonempty, ?_⟩
  have hprev := hw.prevKey
  rw [append_nil, hflat] at hprev
  have hindex := hw.insertIndex (lastKey [] kvs)
  rw [if_pos (by rw [hw.dataBlock]; rfl)] at hindex
  unfold SSTWriter.finish tableOf filterSection indexSection
  simp only [hprev, hindex, hw.dataBuf, hw.filterBlock, hw.blockToFilter, blockOf]
  rfl

lemma getSeparatorBetween_of_ne_nil {a b : Bytes} (ha : a ≠ []) (hb : b ≠ []) :
    getSeparatorBetween a b = a := by
  obtain ⟨last, hlast⟩ : ∃ last, b.getLast? = some last :=
    isSome_iff_exists.1 (by simpa using hb)
  rw [getSeparatorBetween, hlast]
  simp only [if_neg ha]

/-- Between keys that are not empty, a separator is the last key of the block before. -/
lemma separators_eq {p key : Bytes} (hp : p ≠ []) (hkey : key ≠ [])
    (hkeys : ∀ kv ∈ blocks.flatten, kv.1 ≠ []) (hne : ∀ b ∈ blocks, b ≠ []) (offset size : ℕ) :
    separators p offset size blocks key = ⟨p, offset, size⟩ :: entries (offset + size) blocks := by
  induction blocks generalizing p offset size with
  | nil => rw [separators, getSeparatorBetween_of_ne_nil hp hkey, entries]
  | cons b bs ih =>
    obtain ⟨kv, b, rfl⟩ := exists_cons_of_ne_nil (hne b mem_cons_self)
    obtain ⟨v, hv⟩ := lastKey_mem (p := p) (cons_ne_nil kv b)
    have hfirst : firstKey [] (kv :: b) ≠ [] := hkeys kv (by simp)
    have hlast : lastKey p (kv :: b) ≠ [] := hkeys _ (mem_append_left _ hv)
    rw [separators, getSeparatorBetween_of_ne_nil hp hfirst, entries,
      ih hlast (fun kv hkv => hkeys kv (mem_append_right _ hkv))
        fun b hb => hne b (mem_cons_of_mem _ hb)]
    rfl

/-- A table of blocks whose first key is `first`. -/
def table (conf : Config) (first : Bytes) (blocks : List (List KV)) : SSTWriter.Finished :=
  tableOf conf (⟨getSeparatorBetween [] first, 0, 0⟩ :: entries 0 blocks) blocks

/-- What `Finish` leaves if no key is empty. -/
lemma finish_appendAll (conf : Config) {kv : KV} {kvs : List KV}
    (hkeys : ∀ a ∈ kv :: kvs, a.1 ≠ []) :
    ∃ blocks, blocks.flatten = kv :: kvs ∧ (∀ b ∈ blocks, b ≠ []) ∧
      (SSTWriter.appendAll conf {} (kv :: kvs)).finish conf = table conf kv.1 blocks := by
  obtain ⟨blocks, hflat, hne, hfinish⟩ := finish_appendAll_eq_tableOf conf (kv :: kvs)
  refine ⟨blocks, hflat, hne, ?_⟩
  obtain ⟨v, hlast⟩ := lastKey_mem (p := []) (cons_ne_nil kv kvs)
  rw [hfinish, table]
  cases blocks with
  | nil => cases hflat
  | cons b bs =>
    obtain ⟨a, b, rfl⟩ := exists_cons_of_ne_nil (hne b mem_cons_self)
    obtain ⟨rfl, hrest⟩ := cons_eq_cons.1 hflat
    obtain ⟨v', hv'⟩ := lastKey_mem (p := []) (cons_ne_nil a b)
    have hlast : lastKey [] (a :: kvs) ≠ [] := hkeys _ hlast
    rw [← hflat] at hkeys
    have hnext : lastKey [] (a :: b) ≠ [] := hkeys _ (mem_append_left _ hv')
    rw [separators, separators_eq hnext hlast (fun kv hkv => hkeys kv (mem_append_right _ hkv))
      fun b hb => hne b (mem_cons_of_mem _ hb)]
    rfl

/-! ### The first and the last entry of the index -/

/-- The index starts with the separator in front of the first key. -/
lemma head?_index_finish (conf : Config) (kv : KV) (kvs : List KV) :
    ((SSTWriter.appendAll conf {} (kv :: kvs)).finish conf).index.head? =
      some ⟨getSeparatorBetween [] kv.1, 0, 0⟩ := by
  obtain ⟨blocks, hflat, hne, hfinish⟩ := finish_appendAll_eq_tableOf conf (kv :: kvs)
  rw [hfinish]
  cases blocks with
  | nil => cases hflat
  | cons b bs =>
    obtain ⟨a, b, rfl⟩ := exists_cons_of_ne_nil (hne b mem_cons_self)
    obtain ⟨rfl, -⟩ := cons_eq_cons.1 hflat
    rfl

lemma getSeparatorBetween_self (key : Bytes) : getSeparatorBetween key key = key := by
  rcases eq_or_ne key [] with rfl | hne
  · rfl
  · exact getSeparatorBetween_of_ne_nil hne hne

/-- The index ends with the last key. -/
lemma getLast?_index_finish (conf : Config) (kvs : List KV) :
    ∃ e, ((SSTWriter.appendAll conf {} kvs).finish conf).index.getLast? = some e ∧
      e.key = lastKey [] kvs := by
  obtain ⟨blocks, hflat, -, hfinish⟩ := finish_appendAll_eq_tableOf conf kvs
  rw [hfinish]
  rcases eq_nil_or_concat' blocks with rfl | ⟨bs, b, rfl⟩
  · exact ⟨_, rfl, by rw [← hflat]; rfl⟩
  · rw [flatten_append, flatten_singleton] at hflat
    refine ⟨_, by rw [tableOf, separators_append, getLast?_concat], ?_⟩
    rw [hflat, getSeparatorBetween_self]

end Writer

/-! ## Looking a key up -/

section Lookup

variable {conf : Config} {blocks : List (List KV)} {b kvs : List KV} {key : Bytes} {offset : ℕ}

variable {index : List Index} {start : ℕ} {e : ℕ × Bytes} {l : List (ℕ × Bytes)}

/-- The binary search down to one entry. -/
lemma filter_eq_find? (hlt : start < index.length)
    (hlow : ∀ i e, i < start → index[i]? = some e → e.key < key)
    (hhigh : start + 1 = index.length ∨ ∃ e, index[start]? = some e ∧ key ≤ e.key) :
    index[start]?.filter (key ≤ ·.key) = index.find? (key ≤ ·.key) := by
  rw [getElem?_eq_getElem hlt, filter_some]
  split_ifs with hkey
  · symm
    rw [find?_eq_some_iff_getElem]
    refine ⟨hkey, start, hlt, rfl, fun j hj => ?_⟩
    have := hlow j _ hj (getElem?_eq_getElem (by omega))
    simpa using this
  · symm
    rw [find?_eq_none]
    intro e he
    obtain ⟨i, hi, rfl⟩ := getElem_of_mem he
    rcases hhigh with hlast | ⟨e, hget, hge⟩
    · rcases lt_or_eq_of_le (show i ≤ start by omega) with his | rfl
      · have := hlow i _ his (getElem?_eq_getElem hi)
        simpa using this
      · exact hkey
    · rw [getElem?_eq_getElem hlt] at hget
      cases hget
      exact absurd (by simpa using hge) hkey

/-- The binary search finds the first entry from the key on. -/
lemma binarySearchIndex_eq (hmono : index.Pairwise (·.key ≤ ·.key))
    {rounds stop : ℕ} (hle : start ≤ stop) (hlt : stop < index.length)
    (hrounds : stop - start ≤ rounds)
    (hlow : ∀ i e, i < start → index[i]? = some e → e.key < key)
    (hhigh : stop + 1 = index.length ∨ ∃ e, index[stop]? = some e ∧ key ≤ e.key) :
    Node.binarySearchIndex index key rounds start stop = index.find? (key ≤ ·.key) := by
  induction rounds generalizing start stop with
  | zero =>
    obtain rfl : start = stop := by omega
    exact filter_eq_find? hlt hlow hhigh
  | succ rounds ih =>
    unfold Node.binarySearchIndex
    split_ifs with heq
    · subst heq
      exact filter_eq_find? hlt hlow hhigh
    · have hmid : start + (stop - start) / 2 < index.length := by omega
      simp only [getElem?_eq_getElem hmid]
      split_ifs with hless
      · -- all entries up to the middle are before the key
        refine ih (by omega) hlt (by omega) (fun i e hi hget => ?_) hhigh
        obtain ⟨hilen, rfl⟩ := List.getElem?_eq_some_iff.1 hget
        rcases lt_or_eq_of_le (show i ≤ start + (stop - start) / 2 by omega) with him | rfl
        · exact lt_of_le_of_lt (pairwise_iff_getElem.1 hmono _ _ _ _ him) hless
        · exact hless
      · exact ih (by omega) hmid (by omega) hlow
          (.inr ⟨_, getElem?_eq_getElem hmid, not_lt.1 hless⟩)

lemma Ascending.le_lastKey (h : Ascending kvs) {kv : KV} (hkv : kv ∈ kvs) (p : Bytes) :
    kv.1 ≤ lastKey p kvs := by
  induction kvs generalizing p with
  | nil => cases hkv
  | cons a l ih =>
    obtain ⟨ha, hl⟩ := pairwise_cons.1 h
    rcases mem_cons.1 hkv with rfl | hkv
    · cases l with
      | nil => exact le_rfl
      | cons b l =>
        obtain ⟨v, hv⟩ := lastKey_mem (p := kv.1) (cons_ne_nil b l)
        exact (ha _ hv).le
    · exact ih hl hkv a.1

lemma lookup_eq_none_of_forall (kvs : List KV) (h : ∀ kv ∈ kvs, kv.1 ≠ key) :
    kvs.lookup key = none := by
  rw [lookup_eq_none_iff]
  intro kv hkv
  exact bne_iff_ne.2 (h kv hkv).symm

lemma entries_key_of_mem {e : Index} (he : e ∈ entries offset blocks) :
    ∃ b ∈ blocks, e.key = lastKey [] b := by
  induction blocks generalizing offset with
  | nil => cases he
  | cons b bs ih =>
    rcases mem_cons.1 he with rfl | he
    · exact ⟨b, mem_cons_self, rfl⟩
    · obtain ⟨b', hb', hkey⟩ := ih he
      exact ⟨b', mem_cons_of_mem _ hb', hkey⟩

/-- The keys of the index ascend. -/
lemma pairwise_entries (hasc : Ascending blocks.flatten) (hne : ∀ b ∈ blocks, b ≠ []) :
    (entries offset blocks).Pairwise (·.key ≤ ·.key) := by
  induction blocks generalizing offset with
  | nil => exact List.Pairwise.nil
  | cons b bs ih =>
    obtain ⟨-, hbs, hacross⟩ := pairwise_append.1 hasc
    refine pairwise_cons.2 ⟨fun e he => ?_, ih hbs (forall_mem_cons.1 hne).2⟩
    obtain ⟨b', hb', hkey⟩ := entries_key_of_mem he
    obtain ⟨v, hv⟩ := lastKey_mem (p := []) (hne b mem_cons_self)
    obtain ⟨v', hv'⟩ := lastKey_mem (p := []) (hne b' (mem_cons_of_mem _ hb'))
    rw [hkey]
    exact (hacross _ hv _ (mem_flatten.2 ⟨b', hb', hv'⟩)).le

/-- The first entry from a key on is that of the block in which the key must be. -/
lemma find?_entries (key : Bytes) (hasc : Ascending blocks.flatten) (hne : ∀ b ∈ blocks, b ≠ [])
    (offset : ℕ) :
    match (entries offset blocks).find? (key ≤ ·.key) with
    | none => blocks.flatten.lookup key = none
    | some e => ∃ pre b post, blocks = pre ++ b :: post ∧
        e.prevBlockOffset = offset + (encodeBlocks pre).length ∧
        e.prevBlockSize = (encodeBlock [] b).length ∧
        b.lookup key = blocks.flatten.lookup key := by
  induction blocks generalizing offset with
  | nil => simp [entries]
  | cons b bs ih =>
    rw [flatten_cons] at hasc ⊢
    obtain ⟨hb, hbs, hacross⟩ := pairwise_append.1 hasc
    rw [entries, find?_cons, lookup_append]
    obtain ⟨v, hv⟩ := lastKey_mem (p := []) (hne b mem_cons_self)
    by_cases hkey : key ≤ lastKey [] b
    · simp only [hkey]
      refine ⟨[], b, bs, rfl, by simp [encodeBlocks], rfl, ?_⟩
      -- the keys of the later blocks are behind the last key of this one
      rw [lookup_eq_none_of_forall bs.flatten, or_none]
      intro kv hkv heq
      exact absurd (hacross _ hv kv hkv) (not_lt.2 (heq ▸ hkey))
    · simp only [hkey]
      have hnone : b.lookup key = none := by
        refine lookup_eq_none_of_forall b fun kv hkv heq => hkey ?_
        rw [← heq]
        exact Ascending.le_lastKey hb hkv []
      have hrec := ih hbs (forall_mem_cons.1 hne).2 (offset + (encodeBlock [] b).length)
      rw [hnone]
      split at hrec
      · next hfind =>
        rw [hfind]
        exact hrec
      · next e hfind =>
        rw [hfind]
        obtain ⟨pre, b', post, rfl, hoff, hsize, hlookup⟩ := hrec
        refine ⟨b :: pre, b', post, rfl, ?_, hsize, hlookup⟩
        rw [hoff, length_encodeBlocks_cons, Nat.add_assoc]

lemma lookup_foldl_insert_of_lt {m : AList (fun _ : ℕ => Bytes)} {k : ℕ}
    (h : ∀ e ∈ l, k < e.1) :
    (l.foldl (fun filters e => filters.insert e.1 e.2) m).lookup k = m.lookup k := by
  induction l generalizing m with
  | nil => rfl
  | cons e l ih =>
    rw [foldl_cons, ih (forall_mem_cons.1 h).2, AList.lookup_insert_ne (h e mem_cons_self).ne]

/-- Filters by ascending offsets are found. -/
lemma lookup_toFilters (hasc : l.Pairwise (·.1 < ·.1))
    (he : e ∈ l) : (toFilters l).lookup e.1 = some e.2 := by
  suffices hgen : ∀ m : AList (fun _ : ℕ => Bytes),
      (l.foldl (fun filters e => filters.insert e.1 e.2) m).lookup e.1 = some e.2 from hgen ∅
  induction l with
  | nil => cases he
  | cons a l ih =>
    obtain ⟨ha, hl⟩ := pairwise_cons.1 hasc
    intro m
    rw [foldl_cons]
    rcases mem_cons.1 he with rfl | he
    · rw [lookup_foldl_insert_of_lt ha, AList.lookup_insert]
    · exact ih hl he _

lemma length_encodeBlock_pos (hb : b ≠ []) : 0 < (encodeBlock [] b).length :=
  lt_of_lt_of_le (length_pos_iff.2 hb) (length_le_length_encodeBlock [] b)

lemma bounds_of_mem_filterEntries (he : e ∈ filterEntries conf offset blocks) :
    offset ≤ e.1 ∧ e.1 ≤ offset + (encodeBlocks blocks).length := by
  induction blocks generalizing offset with
  | nil => cases he
  | cons b bs ih =>
    rw [length_encodeBlocks_cons]
    rcases mem_cons.1 he with rfl | he
    · exact ⟨le_rfl, Nat.le_add_right _ _⟩
    · have := ih he
      omega

lemma pairwise_filterEntries (hne : ∀ b ∈ blocks, b ≠ []) :
    (filterEntries conf offset blocks).Pairwise (·.1 < ·.1) := by
  induction blocks generalizing offset with
  | nil => exact List.Pairwise.nil
  | cons b bs ih =>
    have hpos := length_encodeBlock_pos (hne b mem_cons_self)
    refine pairwise_cons.2 ⟨fun e he => ?_, ih (forall_mem_cons.1 hne).2⟩
    have := bounds_of_mem_filterEntries he
    omega

/-- A block is read from its place in the file. -/
lemma readBlock_encodeBlocks (pre : List (List KV)) (b : List KV) (post : List (List KV))
    (rest : Bytes) :
    readBlock (encodeBlocks (pre ++ b :: post) ++ rest) (encodeBlocks pre).length
      (encodeBlock [] b).length = .ok (encodeBlock [] b) := by
  have hsplit : encodeBlocks (pre ++ b :: post) ++ rest =
      encodeBlocks pre ++ (encodeBlock [] b ++ (encodeBlocks post ++ rest)) := by
    simp [encodeBlocks]
  unfold readBlock
  rw [hsplit, drop_left, readFull_append, ok_bind]

lemma separator_lt {first : Bytes} (h : Separable first = true) :
    getSeparatorBetween [] first < first := by
  rcases eq_nil_or_concat' first with rfl | ⟨init, last, rfl⟩
  · cases h
  · have hlast : last ≠ 0 := by simpa [Separable] using h
    have hlt : last - 1 < last := by
      have := Fin.pos_iff_ne_zero.2 hlast
      rw [Fin.lt_def]
      omega
    rw [getSeparatorBetween, getLast?_concat]
    simp only [dropLast_concat]
    exact List.Lex.append_left _ (.rel hlt) init

end Lookup

/-! ## Footers -/

variable {a b c d : ℕ} {conf : Config} {index : List Index} {blocks : List (List KV)}

/-- **The footer is read back** if its numbers are below `2 ^ 56`. -/
lemma readFooter_footer (ha : a < 2 ^ 56) (hb : b < 2 ^ 56) (hc : c < 2 ^ 56)
    (hd : d < 2 ^ 56) (file : Bytes) :
    readFooter (file ++ SSTWriter.footer a b c d) = .ok ⟨a, b, c, d⟩ := by
  have hla := length_put_le (k := 7) ha
  have hlb := length_put_le (k := 7) hb
  have hlc := length_put_le (k := 7) hc
  have hld := length_put_le (k := 7) hd
  have hlen : (SSTWriter.footer a b c d).length = sstFooterSize := by
    simp only [SSTWriter.footer, sstFooterSize, length_append, length_replicate]
    omega
  unfold readFooter
  rw [if_neg (by rw [length_append]; omega)]
  rw [length_append, hlen, Nat.add_sub_cancel, drop_left]
  unfold SSTWriter.footer
  simp only [append_assoc]
  rw [readUvarint_put (by omega), ok_bind, readUvarint_put (by omega), ok_bind,
    readUvarint_put (by omega), ok_bind, readUvarint_put (by omega), ok_bind]

/-- The offsets and the sizes in the footer of a table are below `2 ^ 56`, so that they fit it. -/
structure FooterFits (conf : Config) (index : List Index) (blocks : List (List KV)) : Prop where
  indexOffset : (encodeBlocks blocks).length + (filterSection conf blocks).length < 2 ^ 56
  indexSize : (indexSection index).length < 2 ^ 56

lemma footerFits_of_size
    (h : (tableOf conf index blocks).size < 2 ^ 56) : FooterFits conf index blocks := by
  simp only [tableOf] at h
  exact ⟨by omega, by omega⟩

/-- The footer of a table is read back. -/
lemma readFooter_tableOf
    (h : FooterFits conf index blocks) :
    readFooter (tableOf conf index blocks).writes.flatten =
      .ok ⟨(encodeBlocks blocks).length, (filterSection conf blocks).length,
        (encodeBlocks blocks).length + (filterSection conf blocks).length,
        (indexSection index).length⟩ := by
  have hoffset := h.indexOffset
  simp only [tableOf, flatten_cons, flatten_nil, append_nil]
  rw [← append_assoc, ← append_assoc]
  exact readFooter_footer (by omega) (by omega) hoffset h.indexSize _

/-! ## Tables -/

/-- The node looks up and reads back the pairs of the list, between its two keys. -/
structure Node.Holds (conf : Config) (n : Node) (kvs : List KV) : Prop where
  ne_nil : kvs ≠ []
  ascending : Ascending kvs
  get : ∀ key, n.get conf key = .ok (kvs.lookup key)
  getAll : n.getAll = .ok kvs
  start_lt : ∀ kv ∈ kvs, n.startKey < kv.1
  le_end : ∀ kv ∈ kvs, kv.1 ≤ n.endKey
  end_mem : ∃ v, (n.endKey, v) ∈ kvs

/-- The sizes that a table must keep to. -/
structure Fits (conf : Config) (kvs : List KV) : Prop where
  short : Short kvs
  size : ((SSTWriter.appendAll conf {} kvs).finish conf).size < 2 ^ 56

section Tables

variable {conf : Config} {blocks : List (List KV)} {index : List Index} {kvs : List KV}
  {key first : Bytes}

/-- The data of a table are read back as one stream. -/
lemma readData_tableOf (hshort : Short blocks.flatten) (hfit : FooterFits conf index blocks) :
    readData (tableOf conf index blocks).writes.flatten = .ok blocks.flatten := by
  rw [readData, readFooter_tableOf hfit, ok_bind]
  simp only [tableOf, flatten_cons]
  unfold readBlock
  rw [drop_zero, readFull_append]
  exact readBlockData_encodeBlocks hshort

/-- The pairs are read back from the file of their table. -/
lemma readData_finish (h : Fits conf kvs) :
    readData ((SSTWriter.appendAll conf {} kvs).finish conf).writes.flatten = .ok kvs := by
  obtain ⟨blocks, hflat, -, hfinish⟩ := finish_appendAll_eq_tableOf conf kvs
  have hsize := h.size
  have hshort := h.short
  rw [hfinish] at hsize ⊢
  rw [← hflat] at hshort
  rw [readData_tableOf hshort (footerFits_of_size hsize), hflat]

/-- A key is found through the index entry of its block. -/
lemma get_table (hblocks : ∀ b ∈ blocks, b ≠ [])
    (hasc : Ascending blocks.flatten) (hshort : Short blocks.flatten)
    (hsep : ∀ kv ∈ blocks.flatten, getSeparatorBetween [] first < kv.1) {n : Node}
    (hindex : n.index = (table conf first blocks).index)
    (hfilter : n.blockToFilter = (table conf first blocks).blockToFilter)
    (hfile : ∃ rest, n.file = encodeBlocks blocks ++ rest) (key : Bytes) :
    n.get conf key = .ok (blocks.flatten.lookup key) := by
  obtain ⟨rest, hfile⟩ := hfile
  have hindex' : n.index = ⟨getSeparatorBetween [] first, 0, 0⟩ :: entries 0 blocks := hindex
  have hmono : n.index.Pairwise (·.key ≤ ·.key) := by
    rw [hindex']
    refine pairwise_cons.2 ⟨fun e he => ?_, pairwise_entries hasc hblocks⟩
    obtain ⟨b, hb, hkey⟩ := entries_key_of_mem he
    obtain ⟨v, hv⟩ := lastKey_mem (p := []) (hblocks b hb)
    rw [hkey]
    exact (hsep _ (mem_flatten.2 ⟨b, hb, hv⟩)).le
  have hlen : n.index.length ≠ 0 := by simp [hindex']
  unfold Node.get
  rw [if_neg hlen, binarySearchIndex_eq hmono (Nat.zero_le _) (by omega) (by omega)
    (fun i e hi => absurd hi (by omega)) (.inl (by omega)), hindex', find?_cons]
  by_cases hbefore : key ≤ getSeparatorBetween [] first
  · -- the entry in front of the first block stands for an empty block
    have hnone : blocks.flatten.lookup key = none :=
      lookup_eq_none_of_forall _ fun kv hkv heq =>
        absurd (hsep kv hkv) (not_lt.2 (heq ▸ hbefore))
    simp only [hbefore, decide_true, hnone]
    cases n.blockToFilter.lookup 0 with
    | none => rfl
    | some bitmap =>
      simp only
      split_ifs
      · rfl
      · simp [readBlock, readFull, readBlockData, readRecords_nil, ok_bind]
  · simp only [hbefore, decide_false]
    have hfind := find?_entries key hasc hblocks 0
    cases he : (entries 0 blocks).find? (key ≤ ·.key) with
    | none =>
      rw [he] at hfind
      rw [hfind]
    | some e =>
      rw [he] at hfind
      obtain ⟨pre, b, post, hsplit, hoff, hsize, hlookup⟩ := hfind
      rw [Nat.zero_add] at hoff
      have hmem : (e.prevBlockOffset, conf.filter.hash (b.map Prod.fst)) ∈
          filterEntries conf 0 blocks := by
        rw [hsplit, filterEntries_append, Nat.zero_add, hoff]
        exact mem_append_right _ mem_cons_self
      have hbitmap : n.blockToFilter.lookup e.prevBlockOffset =
          some (conf.filter.hash (b.map Prod.fst)) := by
        rw [hfilter]
        exact lookup_toFilters (pairwise_filterEntries hblocks) hmem
      simp only [hbitmap]
      have hb : Short b := fun kv hkv => hshort kv (by
        rw [hsplit]
        simp [hkv])
      rw [← hlookup]
      split_ifs with hexist
      · -- the filter denies no key of the block
        rw [lookup_eq_none_of_forall b]
        intro kv hkv heq
        rw [conf.filter.exist_hash _ key (heq ▸ mem_map_of_mem hkv)] at hexist
        cases hexist
      · rw [hfile, hoff, hsize, hsplit, readBlock_encodeBlocks, ok_bind,
          readBlockData_encodeBlock hb, ok_bind]

/-- The node of the table that is written from pairs. -/
def nodeOf (conf : Config) (level seq : ℕ) (kvs : List KV) : Except Fault Node :=
  let f := (SSTWriter.appendAll conf {} kvs).finish conf
  newNode f.writes.flatten level seq f.size f.blockToFilter f.index

/-- Every table has a node, from the separator in front of its first key to its last key. -/
lemma exists_nodeOf (conf : Config) (level seq : ℕ) (kv : KV) (kvs : List KV) :
    ∃ n, nodeOf conf level seq (kv :: kvs) = .ok n ∧
      n.startKey = getSeparatorBetween [] kv.1 ∧ n.endKey = lastKey [] (kv :: kvs) ∧
      n.index = ((SSTWriter.appendAll conf {} (kv :: kvs)).finish conf).index ∧
      n.blockToFilter = ((SSTWriter.appendAll conf {} (kv :: kvs)).finish conf).blockToFilter ∧
      n.file = ((SSTWriter.appendAll conf {} (kv :: kvs)).finish conf).writes.flatten := by
  have hhead := head?_index_finish conf kv kvs
  obtain ⟨last, hlast, hkey⟩ := getLast?_index_finish conf (kv :: kvs)
  exact ⟨_, by rw [nodeOf, newNode, hhead, hlast], rfl, hkey, rfl, rfl, rfl⟩

lemma mem_of_binarySearchIndex {e : Index} {rounds start stop : ℕ}
    (h : Node.binarySearchIndex index key rounds start stop = some e) : e ∈ index := by
  induction rounds generalizing start stop with
  | zero => exact mem_of_getElem? (filter_eq_some_iff.1 h).1
  | succ rounds ih =>
    unfold Node.binarySearchIndex at h
    split_ifs at h
    · exact mem_of_getElem? (filter_eq_some_iff.1 h).1
    · dsimp only at h
      split at h
      · cases h
      · split_ifs at h <;> exact ih h

/-- A table finds no other keys than its own, whatever its first key is: each entry of the index
leads to a block of some of its pairs. -/
lemma get_nodeOf_eq_none {level seq : ℕ} {n : Node} (hne : kvs ≠ []) (hshort : Short kvs)
    (hn : nodeOf conf level seq kvs = .ok n) (hkey : kvs.lookup key = none) :
    n.get conf key = .ok none := by
  obtain ⟨kv, rest, rfl⟩ := exists_cons_of_ne_nil hne
  obtain ⟨n', hn', -, -, hindex, -, hfile⟩ := exists_nodeOf conf level seq kv rest
  obtain rfl : n = n' := Except.ok.inj (hn.symm.trans hn')
  obtain ⟨blocks, hflat, -, hfinish⟩ := finish_appendAll_eq_tableOf conf (kv :: rest)
  rw [hfinish] at hindex hfile
  unfold Node.get
  split_ifs
  · rfl
  split
  · rfl
  next e he =>
  split
  · rfl
  split_ifs
  · rfl
  obtain ⟨front, b, back, heq, hfront, hb, hsub⟩ :=
    spans_of_mem_separators (hindex ▸ mem_of_binarySearchIndex he)
  rw [hflat] at hsub
  have hnone : b.lookup key = none :=
    lookup_eq_none_iff.2 fun kv hkv => lookup_eq_none_iff.1 hkey kv (hsub hkv)
  have hread : readBlock n.file e.prevBlockOffset e.prevBlockSize = .ok (encodeBlock [] b) := by
    rw [hfile, readBlock, ← hfront, ← hb]
    simp only [tableOf, flatten_cons, heq, append_assoc, drop_left, readFull_append, ok_bind]
  rw [hread, ok_bind, readBlockData_encodeBlock fun kv hkv => hshort kv (hsub hkv), ok_bind, hnone]

/-- A separable first key has a separator below all keys. -/
lemma separator_lt_of_mem {kv₀ kv : KV} (hasc : Ascending (kv₀ :: kvs))
    (hsep : Separable kv₀.1 = true) (hkv : kv ∈ kv₀ :: kvs) :
    getSeparatorBetween [] kv₀.1 < kv.1 := by
  rcases mem_cons.1 hkv with rfl | hkv
  · exact separator_lt hsep
  · exact (separator_lt hsep).trans (rel_of_pairwise_cons hasc hkv)

lemma key_ne_nil_of_lt {a b : Bytes} (h : a < b) : b ≠ [] := by
  rintro rfl
  exact not_lt_nil _ h

/-- **A table finds exactly its pairs**, if its first key is separable. -/
lemma get_nodeOf {kv₀ : KV} (hasc : Ascending (kv₀ :: kvs)) (hsep : Separable kv₀.1 = true)
    (hshort : Short (kv₀ :: kvs)) {level seq : ℕ} {n : Node}
    (hn : nodeOf conf level seq (kv₀ :: kvs) = .ok n) (key : Bytes) :
    n.get conf key = .ok ((kv₀ :: kvs).lookup key) := by
  have hlt : ∀ kv ∈ kv₀ :: kvs, getSeparatorBetween [] kv₀.1 < kv.1 := fun kv hkv =>
    separator_lt_of_mem hasc hsep hkv
  obtain ⟨blocks, hflat, hblocks, hfinish⟩ := finish_appendAll conf
    fun kv hkv => key_ne_nil_of_lt (hlt kv hkv)
  obtain ⟨n', hn', -, -, hindex, hfilter, hfile⟩ := exists_nodeOf conf level seq kv₀ kvs
  obtain rfl : n = n' := Except.ok.inj (hn.symm.trans hn')
  rw [hfinish] at hindex hfilter hfile
  rw [← hflat] at hasc hshort hlt ⊢
  exact get_table hblocks hasc hshort hlt hindex hfilter ⟨_, hfile.trans flatten_cons⟩ key

/-- **A table holds the pairs it was written from**, if its first key is separable. -/
theorem newNode_holds (hne : kvs ≠ []) (hasc : Ascending kvs)
    (hfirst : ∀ kv ∈ kvs.head?, Separable kv.1 = true) (hfits : Fits conf kvs) (level seq : ℕ) :
    ∃ n, nodeOf conf level seq kvs = .ok n ∧ n.Holds conf kvs := by
  obtain ⟨kv₀, rest, rfl⟩ := exists_cons_of_ne_nil hne
  have hsep : Separable kv₀.1 = true := hfirst kv₀ rfl
  obtain ⟨n, hn, hstart, hend, -, -, hfile⟩ := exists_nodeOf conf level seq kv₀ rest
  refine ⟨n, hn, ?_⟩
  exact
    { ne_nil := hne
      ascending := hasc
      get := get_nodeOf hasc hsep hfits.short hn
      getAll := by rw [Node.getAll, hfile, readData_finish hfits]
      start_lt := fun kv hkv => by
        rw [hstart]
        exact separator_lt_of_mem hasc hsep hkv
      le_end := fun kv hkv => by
        rw [hend]
        exact Ascending.le_lastKey hasc hkv []
      end_mem := by
        rw [hend]
        exact lastKey_mem hne }

end Tables

end Yukino.Lsm
