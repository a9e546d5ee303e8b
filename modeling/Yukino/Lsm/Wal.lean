import Yukino.Lsm.SstSpec
import Yukino.Lsm.Tree

set_option autoImplicit false

/-!
# The log of a memtable, `components/lsm_tree/wal`

Every pair is appended to the log before it is put into the memtable, and a memtable is rebuilt from
its log.

## Main definitions

* `WAL.readAll`, `WAL.restoreToMemtable` — reading a log.
* `WAL.logOf` — the log of pairs that were put one after another.

## Main results

* `WAL.restoreToMemtable_logOf` — the memtable that is rebuilt is the one that was
  written.
-/

namespace Yukino.Lsm

open Outcome SSTReader List

namespace WAL

/-- `readAll`: the pairs up to the end of the log; a record takes more than one byte, so the length
of the log bounds the rounds. -/
def readAll : ℕ → Bytes → Except Fault (List KV)
  | 0, _ => .ok []
  | rounds + 1, reader =>
    match readUvarint reader with
    | .error (.read .eof) => .ok []
    | .error e => .error e
    | .ok (keyLen, reader) => do
      let (valLen, reader) ← readUvarint reader
      let (key, reader) ← readFull keyLen reader
      let (value, reader) ← readFull valLen reader
      let kvs ← readAll rounds reader
      .ok ((key, value) :: kvs)

def restoreToMemtable (body : Bytes) (memTable : MemTable) : Except Fault MemTable := do
  let kvs ← readAll (body.length + 1) body
  .ok (memTable.putAll kvs)

/-- The log of pairs that were put one after another. -/
def logOf (kvs : List KV) : Bytes :=
  (kvs.map fun kv => Tree.logRecord kv.1 kv.2).flatten

lemma length_le_length_logOf (kvs : List KV) : kvs.length ≤ (logOf kvs).length := by
  induction kvs with
  | nil => exact le_rfl
  | cons kv kvs ih =>
    have hpos := Uvarint.length_put_pos kv.1.length
    simp only [logOf, Tree.logRecord, map_cons, flatten_cons, length_append, length_cons] at ih ⊢
    omega

/-- The pairs are read back in the order in which they were put. -/
lemma readAll_logOf {kvs : List KV} (hshort : Short kvs) (rounds : ℕ) :
    readAll (kvs.length + rounds) (logOf kvs) = .ok kvs := by
  induction kvs with
  | nil => cases rounds <;> rfl
  | cons kv kvs ih =>
    obtain ⟨hkey, hvalue⟩ := hshort kv mem_cons_self
    have hrest := ih (forall_mem_cons.1 hshort).2
    have hlog : logOf (kv :: kvs) = Uvarint.put kv.1.length ++
        (Uvarint.put kv.2.length ++ (kv.1 ++ (kv.2 ++ logOf kvs))) := by
      simp [logOf, Tree.logRecord]
    rw [length_cons, Nat.add_right_comm, readAll, hlog, readUvarint_put hkey]
    simp only [readUvarint_put hvalue, ok_bind, readFull_append, hrest]

/-- **Round trip.** A memtable is rebuilt from the log of its pairs. -/
lemma restoreToMemtable_logOf {kvs : List KV} (hshort : Short kvs) (memTable : MemTable) :
    restoreToMemtable (logOf kvs) memTable = .ok (memTable.putAll kvs) := by
  have hle := length_le_length_logOf kvs
  have hrounds : (logOf kvs).length + 1 = kvs.length + ((logOf kvs).length + 1 - kvs.length) := by
    omega
  rw [restoreToMemtable, hrounds, readAll_logOf hshort, ok_bind]

end WAL

end Yukino.Lsm
