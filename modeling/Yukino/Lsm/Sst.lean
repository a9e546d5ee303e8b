import Yukino.Lib.SortedAssoc
import Yukino.Lsm.Filter

set_option autoImplicit false

/-!
# Sorted tables of `components/lsm_tree`

A table is a file of data blocks, a block of filters, a block of index entries and a footer.
`SSTWriter` writes one from pairs in ascending order of their keys, `SSTReader` reads the parts
back, and `Node` looks a key up with the index and the filters kept in memory.

## Main definitions

* `Config` — the configuration of a tree.
* `Block` — a block of records, each without the prefix it shares with the last key.
* `SSTWriter`, with `append` and `finish`.
* `SSTReader` — reading a file.
* `Node`, with `get` and `getAll`.

## Design

A file is the list of its bytes. `finish` gives the four writes it makes one by one. The reader
keeps the numbers of the footer once it has read them; the model reads them each time. A footer
that does not fit its size would stop the writer, which needs a table of `2 ^ 56` bytes or more.
-/

namespace Yukino.Lsm

open Uvarint

/-- `KV`. -/
abbrev KV := Bytes × Bytes

structure Config where
  maxLevel : ℕ
  sstSize : ℕ
  sstNumPerLevel : ℕ
  sstDataBlockSize : ℕ
  filter : Filter
  two_le : 2 ≤ maxLevel

/-- `NewConfig`, with the defaults of `repair`. -/
def newConfig (maxLevel : ℤ) (sstSize : ℕ) (sstNumPerLevel sstDataBlockSize : ℤ)
    (filter : Option Filter) : Config where
  maxLevel := if maxLevel ≤ 1 then 7 else maxLevel.toNat
  sstSize := if sstSize ≤ 0 then 1024 * 1024 else sstSize
  sstNumPerLevel := if sstNumPerLevel ≤ 0 then 10 else sstNumPerLevel.toNat
  sstDataBlockSize := if sstDataBlockSize ≤ 0 then 16 * 1024 else sstDataBlockSize.toNat
  filter := filter.getD (BloomFilter.filter ⟨1024, by decide, by decide⟩)
  two_le := by split_ifs <;> omega

/-- `SSTFooterSize`, which no option changes. -/
def sstFooterSize : ℕ := 32

/-! ## Keys -/

def sharedPrefixLen : Bytes → Bytes → ℕ
  | a :: as, b :: bs => if a = b then sharedPrefixLen as bs + 1 else 0
  | _, _ => 0

/-- A key from `a` on and before `b`, if `a` is empty or the last byte of `b` is not zero. -/
def getSeparatorBetween (a b : Bytes) : Bytes :=
  match b.getLast? with
  | none => b
  | some last => if a = [] then b.dropLast ++ [last - 1] else a

/-- A key that is neither empty nor ends in a zero byte, so that the separator in front of it is
smaller. -/
def Separable (key : Bytes) : Bool :=
  match key.getLast? with
  | none => false
  | some last => last ≠ 0

/-! ## Blocks -/

structure Block where
  record : Bytes := []
  entriesCnt : ℕ := 0
  prevKey : Bytes := []

/-- A record behind the key `prevKey`. -/
def encodeRecord (prevKey key value : Bytes) : Bytes :=
  let shared := sharedPrefixLen prevKey key
  put shared ++ put (key.length - shared) ++ put value.length ++ key.drop shared ++ value

def Block.append (b : Block) (key value : Bytes) : Block where
  record := b.record ++ encodeRecord b.prevKey key value
  entriesCnt := b.entriesCnt + 1
  prevKey := key

/-! ## Writing a table -/

structure Index where
  key : Bytes
  prevBlockOffset : ℕ
  prevBlockSize : ℕ
  deriving DecidableEq

structure SSTWriter where
  dataBuf : Bytes := []
  blockToFilter : AList (fun _ : ℕ => Bytes) := ∅
  index : List Index := []
  dataBlock : Block := {}
  filterBlock : Block := {}
  indexBlock : Block := {}
  /-- The keys in the filter since its last reset. -/
  hashedKeys : List Bytes := []
  prevKey : Bytes := []
  prevBlockOffset : ℕ := 0
  prevBlockSize : ℕ := 0

namespace SSTWriter

def insertIndex (w : SSTWriter) (key : Bytes) : SSTWriter :=
  let indexKey := getSeparatorBetween w.prevKey key
  { w with
    indexBlock := w.indexBlock.append indexKey (put w.prevBlockOffset ++ put w.prevBlockSize)
    index := w.index ++ [⟨indexKey, w.prevBlockOffset, w.prevBlockSize⟩] }

def refreshBlock (conf : Config) (w : SSTWriter) : SSTWriter :=
  if w.hashedKeys.length = 0 then w else
  let offset := w.dataBuf.length
  let filterBitmap := conf.filter.hash w.hashedKeys
  { w with
    prevBlockOffset := offset
    blockToFilter := w.blockToFilter.insert offset filterBitmap
    filterBlock := w.filterBlock.append (put offset) filterBitmap
    hashedKeys := []
    prevBlockSize := w.dataBlock.record.length
    dataBuf := w.dataBuf ++ w.dataBlock.record
    dataBlock := {} }

/-- A pair in the current block, in front of which an empty block gets its index entry. -/
def addPair (w : SSTWriter) (key value : Bytes) : SSTWriter :=
  let w := if w.dataBlock.entriesCnt = 0 then w.insertIndex key else w
  { w with
    dataBlock := w.dataBlock.append key value
    hashedKeys := w.hashedKeys ++ [key]
    prevKey := key }

def append (conf : Config) (w : SSTWriter) (key value : Bytes) : SSTWriter :=
  let w := w.addPair key value
  if w.dataBlock.record.length ≥ conf.sstDataBlockSize then w.refreshBlock conf else w

/-- Pairs appended one after another. -/
def appendAll (conf : Config) (w : SSTWriter) (kvs : List KV) : SSTWriter :=
  kvs.foldl (fun w kv => w.append conf kv.1 kv.2) w

def size (w : SSTWriter) : ℕ :=
  w.dataBuf.length

/-- What `Finish` leaves: the writes it makes and what it returns. -/
structure Finished where
  writes : List Bytes
  size : ℕ
  blockToFilter : AList (fun _ : ℕ => Bytes)
  index : List Index

/-- The offsets and sizes of the filters and of the index, padded to the size of the footer. -/
def footer (filterOffset filterSize indexOffset indexSize : ℕ) : Bytes :=
  let numbers := put filterOffset ++ put filterSize ++ put indexOffset ++ put indexSize
  numbers ++ List.replicate (sstFooterSize - numbers.length) 0

def finish (conf : Config) (w : SSTWriter) : Finished :=
  let w := (w.refreshBlock conf).insertIndex (w.refreshBlock conf).prevKey
  let dataBuf := w.dataBuf
  let filterBuf := w.filterBlock.record
  let indexBuf := w.indexBlock.record
  { writes := [dataBuf, filterBuf, indexBuf,
      footer dataBuf.length filterBuf.length (dataBuf.length + filterBuf.length) indexBuf.length]
    size := dataBuf.length + filterBuf.length + indexBuf.length
    blockToFilter := w.blockToFilter
    index := w.index }

end SSTWriter

/-! ## Reading a table -/

/-- How reading a file stops. -/
inductive Fault
  | read (e : ReadError)
  /-- A seek in front of the file. -/
  | seek
  /-- A slice out of range, or no index entry in a node. -/
  | panic
  deriving DecidableEq, Repr

namespace SSTReader

/-- `io.ReadFull`. -/
def readFull (n : ℕ) (buf : Bytes) : Except Fault (Bytes × Bytes) :=
  if n ≤ buf.length then .ok (buf.take n, buf.drop n)
  else .error (.read (if buf = [] then .eof else .unexpectedEOF))

def readUvarint (buf : Bytes) : Except Fault (ℕ × Bytes) :=
  (Uvarint.read buf).mapError .read

def readRecord (prevKey buf : Bytes) : Except Fault (KV × Bytes) := do
  let (sharedPrefixLen, buf) ← readUvarint buf
  let (keyLen, buf) ← readUvarint buf
  let (valLen, buf) ← readUvarint buf
  let (key, buf) ← readFull keyLen buf
  let (value, buf) ← readFull valLen buf
  if sharedPrefixLen ≤ prevKey.length then
    .ok ((prevKey.take sharedPrefixLen ++ key, value), buf)
  else .error .panic

/-- The records of a stream up to its end; a record takes more than one byte, so the length of
the stream bounds the rounds. -/
def readRecords : ℕ → Bytes → Bytes → Except Fault (List KV)
  | 0, _, _ => .ok []
  | rounds + 1, prevKey, buf =>
    match readRecord prevKey buf with
    | .error (.read .eof) => .ok []
    | .error e => .error e
    | .ok (kv, buf) => do
      let kvs ← readRecords rounds kv.1 buf
      .ok (kv :: kvs)

def readBlockData (block : Bytes) : Except Fault (List KV) :=
  readRecords (block.length + 1) [] block

structure Footer where
  filterOffset : ℕ
  filterSize : ℕ
  indexOffset : ℕ
  indexSize : ℕ
  deriving DecidableEq

def readFooter (file : Bytes) : Except Fault Footer :=
  if file.length < sstFooterSize then .error .seek else do
  let buf := file.drop (file.length - sstFooterSize)
  let (filterOffset, buf) ← readUvarint buf
  let (filterSize, buf) ← readUvarint buf
  let (indexOffset, buf) ← readUvarint buf
  let (indexSize, _) ← readUvarint buf
  .ok ⟨filterOffset, filterSize, indexOffset, indexSize⟩

def readBlock (file : Bytes) (offset size : ℕ) : Except Fault Bytes := do
  let (block, _) ← readFull size (file.drop offset)
  .ok block

/-- `binary.Uvarint`, which gives `0` where there is no number. -/
def uvarint (buf : Bytes) : ℕ :=
  match Uvarint.read buf with
  | .ok (x, _) => x
  | .error _ => 0

def readFilter (file : Bytes) : Except Fault (AList (fun _ : ℕ => Bytes)) := do
  let footer ← readFooter file
  let block ← readBlock file footer.filterOffset footer.filterSize
  let kvs ← readBlockData block
  .ok (kvs.foldl (fun filters kv => filters.insert (uvarint kv.1) kv.2) ∅)

/-- An index entry from its record: the offset is sliced off before the size is decoded. -/
def toIndex (kv : KV) : Except Fault Index :=
  match Uvarint.read kv.2 with
  | .ok (blockOffset, rest) => .ok ⟨kv.1, blockOffset, uvarint rest⟩
  | .error .overflow => .error .panic
  | .error _ => .ok ⟨kv.1, 0, uvarint kv.2⟩

def readIndex (file : Bytes) : Except Fault (List Index) := do
  let footer ← readFooter file
  let block ← readBlock file footer.indexOffset footer.indexSize
  let kvs ← readBlockData block
  kvs.mapM toIndex

def size (file : Bytes) : Except Fault ℕ := do
  let footer ← readFooter file
  .ok (footer.indexOffset + footer.indexSize)

def readData (file : Bytes) : Except Fault (List KV) := do
  let footer ← readFooter file
  let block ← readBlock file 0 footer.filterOffset
  readBlockData block

end SSTReader

/-! ## Looking a key up -/

structure Node where
  level : ℕ
  seq : ℕ
  size : ℕ
  blockToFilter : AList (fun _ : ℕ => Bytes)
  index : List Index
  startKey : Bytes
  endKey : Bytes
  /-- What the reader of the node reads from. -/
  file : Bytes

/-- `NewNode`, which needs an index entry. -/
def newNode (file : Bytes) (level seq size : ℕ) (blockToFilter : AList (fun _ : ℕ => Bytes))
    (index : List Index) : Except Fault Node :=
  match index.head?, index.getLast? with
  | some first, some last => .ok
    { level, seq, size, blockToFilter, index, startKey := first.key, endKey := last.key, file }
  | _, _ => .error .panic

namespace Node

def getAll (n : Node) : Except Fault (List KV) :=
  SSTReader.readData n.file

/-- The binary search from `start` to `stop`, both included, halving `stop - start` in each
round. -/
def binarySearchIndex (index : List Index) (key : Bytes) : ℕ → ℕ → ℕ → Option Index
  | 0, start, _ => index[start]?.filter (key ≤ ·.key)
  | rounds + 1, start, stop =>
    if start = stop then index[start]?.filter (key ≤ ·.key) else
    let mid := start + (stop - start) / 2
    match index[mid]? with
    | none => none
    | some entry =>
      if entry.key < key then binarySearchIndex index key rounds (mid + 1) stop
      else binarySearchIndex index key rounds start mid

def get (conf : Config) (n : Node) (key : Bytes) : Except Fault (Option Bytes) :=
  if n.index.length = 0 then .ok none else
  match binarySearchIndex n.index key n.index.length 0 (n.index.length - 1) with
  | none => .ok none
  | some index =>
    match n.blockToFilter.lookup index.prevBlockOffset with
    | none => .ok none
    | some bitmap =>
      if !conf.filter.exist bitmap key then .ok none else do
      let block ← SSTReader.readBlock n.file index.prevBlockOffset index.prevBlockSize
      let kvs ← SSTReader.readBlockData block
      .ok (kvs.lookup key)

end Node

end Yukino.Lsm
