import Yukino.Lsm.Insertion
import Yukino.Lib.Runs
import Yukino.Lsm.Wal

set_option autoImplicit false

/-!
# Loading a table from its file

`loadNode` reads the filters, the index and the size of a table back from its file. The node it
makes is the one that was made when the table was written.

## Main results

* `reads_back` — the data, the filters, the index and the size are read back from the
  bytes of a table.
-/

namespace Yukino.Lsm

open Outcome SSTReader Uvarint List
open SortedAssoc (Ascending)

section Tables

variable {conf : Config} {blocks : List (List KV)} {index : List Index} {kvs : List KV}
  {offset : ℕ}

/-! ## Bounds -/

/-- A pair is no longer than the records up to its own: what its key shares with the key before is
written there. -/
lemma length_le_encodeBlock {kv : KV} (hkv : kv ∈ kvs) (p : Bytes) :
    kv.1.length ≤ p.length + (encodeBlock p kvs).length ∧
      kv.2.length ≤ (encodeBlock p kvs).length := by
  induction kvs generalizing p with
  | nil => cases hkv
  | cons a l ih =>
    have hshared := (sharedPrefixLen_spec p a.1).1
    have hlen : a.1.length ≤ p.length + (encodeRecord p a.1 a.2).length ∧
        a.2.length ≤ (encodeRecord p a.1 a.2).length := by
      simp only [encodeRecord, length_append, length_drop]
      omega
    rw [encodeBlock, length_append]
    rcases mem_cons.1 hkv with rfl | hkv
    · omega
    · have := ih hkv a.1
      omega

lemma short_of_length_encodeBlock (h : (encodeBlock [] kvs).length < 2 ^ 64) : Short kvs := by
  intro kv hkv
  have hle := length_le_encodeBlock hkv []
  rw [length_nil, Nat.zero_add] at hle
  exact ⟨hle.1.trans_lt h, hle.2.trans_lt h⟩

lemma short_of_length_encodeBlocks (h : (encodeBlocks blocks).length < 2 ^ 64) :
    Short blocks.flatten := by
  induction blocks with
  | nil => exact fun kv hkv => nomatch hkv
  | cons b bs ih =>
    rw [length_encodeBlocks_cons] at h
    intro kv hkv
    rcases mem_append.1 hkv with hkv | hkv
    · exact short_of_length_encodeBlock (by omega) kv hkv
    · exact ih (by omega) kv hkv

lemma uvarint_put {x : ℕ} (hx : x < 2 ^ 64) : uvarint (put x) = x := by
  have h := read_put hx []
  rw [append_nil] at h
  rw [uvarint, h]

/-! ## Reading the parts -/

lemma readBlock_append (a b rest : Bytes) :
    readBlock (a ++ (b ++ rest)) a.length b.length = .ok b := by
  rw [readBlock, drop_left, readFull_append, ok_bind]

/-- The filters are read back. -/
lemma readFilter_tableOf (hfit : FooterFits conf index blocks) :
    readFilter (tableOf conf index blocks).writes.flatten =
      .ok (tableOf conf index blocks).blockToFilter := by
  have hoffset := hfit.indexOffset
  have hshort : Short ((filterEntries conf 0 blocks).map filterRecord) :=
    short_of_length_encodeBlock (show (filterSection conf blocks).length < 2 ^ 64 by omega)
  rw [readFilter, readFooter_tableOf hfit, ok_bind]
  simp only [tableOf, flatten_cons]
  rw [readBlock_append, ok_bind, filterSection, readBlockData_encodeBlock hshort, ok_bind,
    foldl_map]
  congr 1
  refine foldl_ext _ _ _ fun filters e he => ?_
  have hx : e.1 < 2 ^ 64 := by
    have := bounds_of_mem_filterEntries he
    omega
  show filters.insert (uvarint (put e.1)) e.2 = filters.insert e.1 e.2
  rw [uvarint_put hx]

lemma toIndex_record {e : Index} (hoffset : e.prevBlockOffset < 2 ^ 64)
    (hsize : e.prevBlockSize < 2 ^ 64) : toIndex e.record = .ok e := by
  have hread : Uvarint.read e.record.2 = .ok (e.prevBlockOffset, put e.prevBlockSize) :=
    read_put hoffset _
  simp only [toIndex, hread, uvarint_put hsize]
  rfl

/-- The index is read back, if its entries lie within the blocks. -/
lemma readIndex_tableOf (hfit : FooterFits conf index blocks)
    (hle : ∀ e ∈ index, e.prevBlockOffset + e.prevBlockSize ≤ (encodeBlocks blocks).length) :
    readIndex (tableOf conf index blocks).writes.flatten = .ok index := by
  have hoffset := hfit.indexOffset
  have hsize := hfit.indexSize
  have hshort : Short (index.map Index.record) :=
    short_of_length_encodeBlock (show (indexSection index).length < 2 ^ 64 by omega)
  have hfile : (tableOf conf index blocks).writes.flatten =
      (encodeBlocks blocks ++ filterSection conf blocks) ++ (indexSection index ++
        SSTWriter.footer (encodeBlocks blocks).length (filterSection conf blocks).length
          ((encodeBlocks blocks).length + (filterSection conf blocks).length)
          (indexSection index).length) := by
    simp [tableOf]
  rw [readIndex, readFooter_tableOf hfit, ok_bind]
  rw [hfile, ← length_append, readBlock_append, ok_bind, indexSection,
    readBlockData_encodeBlock hshort]
  refine mapM_map fun e he => ?_
  have := hle e he
  exact toIndex_record (by omega) (by omega)

/-- The size is read back. -/
lemma size_tableOf (hfit : FooterFits conf index blocks) :
    SSTReader.size (tableOf conf index blocks).writes.flatten =
      .ok (tableOf conf index blocks).size := by
  rw [SSTReader.size, readFooter_tableOf hfit]
  rfl

/-- **The file of a table is read back.** From the bytes that `Finish` writes, `SSTReader` reads
the pairs in their order and the filters, the index and the size that `Finish` returns. The numbers
in the footer must be below `2 ^ 56`: the offset of the index, which is the size of the data and the
filters, and the size of the index.

**Proof sketch.** The first record of a block shares nothing with the key before, so the blocks are
one stream for the reader. A key is not longer than the section it is in, so all lengths are read
back. -/
theorem reads_back (conf : Config) (kvs : List KV) {f : SSTWriter.Finished}
    (hf : (SSTWriter.appendAll conf {} kvs).finish conf = f)
    (hoffset : (f.writes.take 2).flatten.length < 2 ^ 56)
    (hindex : ((f.writes.drop 2).take 1).flatten.length < 2 ^ 56) :
    readData f.writes.flatten = .ok kvs ∧ readFilter f.writes.flatten = .ok f.blockToFilter ∧
      readIndex f.writes.flatten = .ok f.index ∧
      SSTReader.size f.writes.flatten = .ok f.size := by
  obtain ⟨blocks, hflat, -, hfinish⟩ := finish_appendAll_eq_tableOf conf kvs
  rw [hf] at hfinish
  rw [hfinish] at hoffset hindex
  have hfit : FooterFits conf (separators [] 0 0 blocks (lastKey [] kvs)) blocks :=
    ⟨by simpa [tableOf] using hoffset, by simpa [tableOf] using hindex⟩
  have hshort : Short blocks.flatten :=
    short_of_length_encodeBlocks (by have := hfit.indexOffset; omega)
  have hdata := readData_tableOf hshort hfit
  have hfilter := readFilter_tableOf hfit
  have hindex' := readIndex_tableOf hfit fun e he => (spans_of_mem_separators he).le
  have hsize := size_tableOf hfit
  rw [hflat] at hdata
  rw [hfinish]
  exact ⟨hdata, hfilter, hindex', hsize⟩

/-- A table that starts with the empty key. -/
theorem reads_back_empty_key :
    let conf := newConfig 0 0 0 1 none
    let f := (SSTWriter.appendAll conf {} [([], [1]), ([0], []), ([0, 7], [2])]).finish conf
    readData f.writes.flatten = .ok [([], [1]), ([0], []), ([0, 7], [2])] ∧
      readFilter f.writes.flatten = .ok f.blockToFilter ∧
      readIndex f.writes.flatten = .ok f.index ∧
      SSTReader.size f.writes.flatten = .ok f.size :=
  reads_back (newConfig 0 0 0 1 none) [([], [1]), ([0], []), ([0, 7], [2])] rfl
    (by decide +kernel) (by decide +kernel)

end Tables

end Yukino.Lsm
