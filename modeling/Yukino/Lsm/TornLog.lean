import Yukino.Lsm.Wal

set_option autoImplicit false

/-!
# A log that is cut off

A process that stops in the middle of `WALWriter.Write` leaves a log whose last record is not
complete. `readAll` takes only the end of the log in front of a record for the end of the pairs.
If the log ends inside a record, then `ReadUvarint` or `ReadFull` reports an error, which
`RestoreToMemtable` passes on: the pairs in front of the record are not restored either.

## Main definitions

* `WAL.contained` — the pairs whose records are complete in the first bytes of a log.

## Main results

* `WAL.readAll_of_torn` — a log that ends inside a record is not read.
* `WAL.restores_contained_iff` — the complete pairs of a cut off log are restored if and
  only if the log ends between two records.
-/

namespace Yukino.Lsm.WAL

open Outcome SSTReader List

/-- The pairs whose records are complete in the first `length` bytes of their log. -/
def contained : List KV → ℕ → List KV
  | [], _ => []
  | kv :: kvs, length =>
    if (Tree.logRecord kv.1 kv.2).length ≤ length then
      kv :: contained kvs (length - (Tree.logRecord kv.1 kv.2).length)
    else []

section Contained

variable {kvs : List KV} {kv : KV} {P : Bytes}

lemma logOf_cons (kv : KV) (kvs : List KV) :
    logOf (kv :: kvs) = Tree.logRecord kv.1 kv.2 ++ logOf kvs := by
  simp [logOf]

lemma logRecord_ne_nil (key value : Bytes) : Tree.logRecord key value ≠ [] := by
  have hpos := Uvarint.length_put_pos key.length
  intro hnil
  simp [Tree.logRecord] at hnil
  simp [hnil.1] at hpos

/-- In the log of some of the pairs exactly these are complete. -/
lemma contained_take (kvs : List KV) (n : ℕ) :
    contained kvs (logOf (kvs.take n)).length = kvs.take n := by
  induction kvs generalizing n with
  | nil => simp [contained]
  | cons kv kvs ih =>
    cases n with
    | zero =>
      have hpos := length_pos_iff.2 (logRecord_ne_nil kv.1 kv.2)
      exact if_neg (not_le.2 hpos)
    | succ n =>
      rw [take_succ_cons, logOf_cons, length_append, contained,
        if_pos (Nat.le_add_right _ _), Nat.add_sub_cancel_left, ih]

end Contained

/-! ## Reading a cut off record -/

section Torn

variable {a b P : Bytes} {kv : KV} {kvs : List KV} {x : ℕ}

/-- A prefix of two parts ends inside the first one or behind it. -/
lemma prefix_append_cases (h : P <+: a ++ b) : (P <+: a ∧ P ≠ a) ∨ ∃ Q, Q <+: b ∧ P = a ++ Q := by
  by_cases hlen : P.length < a.length
  · refine .inl ⟨prefix_of_prefix_length_le h (prefix_append a b) hlen.le, ?_⟩
    rintro rfl
    exact absurd hlen (lt_irrefl _)
  · obtain ⟨Q, rfl⟩ := prefix_of_prefix_length_le (prefix_append a b) h (not_lt.1 hlen)
    exact .inr ⟨Q, (prefix_append_right_inj a).1 h, rfl⟩

lemma readFull_of_prefix (hpre : P <+: a) (hne : P ≠ a) : ∃ e, readFull a.length P = .error e := by
  have hlt : P.length < a.length :=
    lt_of_le_of_ne hpre.length_le fun heq => hne (hpre.eq_of_length heq)
  exact ⟨_, by rw [readFull, if_neg (not_le.2 hlt)]⟩

lemma readUvarint_cut (hpre : P <+: Uvarint.put x) (hne : P ≠ Uvarint.put x) :
    readUvarint P = .error (.read (if P = [] then .eof else .unexpectedEOF)) := by
  rw [readUvarint, Uvarint.read_of_prefix hpre hne]
  rfl

/-- **A log that ends inside its first record is not read.**

**Proof sketch.** The cut is inside the length of the key, the length of the value, the key or the
value. Only in front of the first byte of the record would `readAll` see the end of the log. -/
lemma readAll_of_torn (hkey : kv.1.length < 2 ^ 64) (hvalue : kv.2.length < 2 ^ 64)
    (hpre : P <+: Tree.logRecord kv.1 kv.2) (hne : P ≠ Tree.logRecord kv.1 kv.2) (hsome : P ≠ [])
    (rounds : ℕ) : ∃ e, readAll (rounds + 1) P = .error e := by
  have hrecord : Tree.logRecord kv.1 kv.2 = Uvarint.put kv.1.length ++
      (Uvarint.put kv.2.length ++ (kv.1 ++ kv.2)) := by
    simp [Tree.logRecord]
  rw [hrecord] at hpre hne
  obtain ⟨hcut, hcut'⟩ | ⟨Q, hQ, rfl⟩ := prefix_append_cases hpre
  · rw [readAll, readUvarint_cut hcut hcut', if_neg hsome]
    exact ⟨_, rfl⟩
  simp only [readAll, readUvarint_put hkey]
  obtain ⟨hcut, hcut'⟩ | ⟨R, hR, rfl⟩ := prefix_append_cases hQ
  · -- also the end of the log in front of this length is an error
    rw [readUvarint_cut hcut hcut']
    exact ⟨_, rfl⟩
  simp only [readUvarint_put hvalue]
  obtain ⟨hcut, hcut'⟩ | ⟨S, hS, rfl⟩ := prefix_append_cases hR
  · obtain ⟨e, he⟩ := readFull_of_prefix hcut hcut'
    simp only [ok_bind, he]
    exact ⟨e, rfl⟩
  obtain ⟨e, he⟩ := readFull_of_prefix hS fun heq => hne (by rw [heq])
  simp only [ok_bind, readFull_append, he]
  exact ⟨e, rfl⟩

/-- A log that is read ends between two records. -/
lemma eq_logOf_take_of_readAll (hshort : Short kvs) (hpre : P <+: logOf kvs) {rounds : ℕ}
    (hrounds : P.length < rounds) {read : List KV} (hread : readAll rounds P = .ok read) :
    ∃ n, P = logOf (kvs.take n) := by
  induction kvs generalizing P rounds read with
  | nil => exact ⟨0, prefix_nil.1 hpre⟩
  | cons kv kvs ih =>
    obtain ⟨hkey, hvalue⟩ := hshort kv mem_cons_self
    obtain ⟨rounds, rfl⟩ := Nat.exists_eq_add_one.2 (Nat.zero_lt_of_lt hrounds)
    rw [logOf_cons] at hpre
    obtain ⟨hcut, hcut'⟩ | ⟨Q, hQ, rfl⟩ := prefix_append_cases hpre
    · by_cases hnil : P = []
      · exact ⟨0, hnil⟩
      · obtain ⟨e, he⟩ := readAll_of_torn hkey hvalue hcut hcut' hnil rounds
        rw [he] at hread
        cases hread
    · -- the first record is complete, and the rest of the log is read after it
      have hrest : ∃ read', readAll rounds Q = .ok read' := by
        have hlog : Tree.logRecord kv.1 kv.2 ++ Q = Uvarint.put kv.1.length ++
            (Uvarint.put kv.2.length ++ (kv.1 ++ (kv.2 ++ Q))) := by
          simp [Tree.logRecord]
        rw [readAll, hlog, readUvarint_put hkey] at hread
        simp only [readUvarint_put hvalue, ok_bind, readFull_append] at hread
        obtain ⟨read', hread', -⟩ := bind_eq_ok.1 hread
        exact ⟨read', hread'⟩
      obtain ⟨read', hread'⟩ := hrest
      have hpos := length_pos_iff.2 (logRecord_ne_nil kv.1 kv.2)
      rw [length_append] at hrounds
      obtain ⟨n, rfl⟩ := ih (forall_mem_cons.1 hshort).2 hQ (by omega) hread'
      exact ⟨n + 1, by rw [take_succ_cons, logOf_cons]⟩

end Torn

/-! ## Restoring the memtable -/

/-- **Which cut off logs are restored.** Let `P` be what a stop left of the log of the pairs `kvs`.
`RestoreToMemtable` puts exactly the pairs with a complete record into the memtable if and only if
`P` ends between two records. -/
theorem restores_contained_iff {kvs : List KV} (hshort : Short kvs) {P : Bytes}
    (hP : P <+: logOf kvs) (memTable : MemTable) :
    restoreToMemtable P memTable = .ok (memTable.putAll (contained kvs P.length)) ↔
      ∃ n, P = logOf (kvs.take n) := by
  constructor
  · intro hrestore
    obtain ⟨read, hread, -⟩ := bind_eq_ok.1 hrestore
    exact eq_logOf_take_of_readAll hshort hP (Nat.lt_succ_self _) hread
  · rintro ⟨n, rfl⟩
    rw [contained_take]
    exact restoreToMemtable_logOf (fun kv hkv => hshort kv (mem_of_mem_take hkv)) memTable

/-- The log of two pairs that is cut off behind the first one. -/
theorem restores_contained_iff_first :
    restoreToMemtable [1, 1, 97, 49] {} = .ok (({} : MemTable).putAll [([97], [49])]) ↔
      ∃ n, [1, 1, 97, 49] = logOf ([([97], [49]), ([98], [50])].take n) := by
  have hshort : Short [([97], [49]), ([98], [50])] := by simp [Short]
  exact restores_contained_iff hshort (P := [1, 1, 97, 49]) (by decide) {}

/-- A pair is put and acknowledged, and the process stops when one byte of the next record is
written. The log is not restored, although the record of the first pair is complete. -/
theorem torn_log_refused :
    [1, 1, 97, 49, 1] <+: logOf [([97], [49]), ([98], [50])] ∧
      contained [([97], [49]), ([98], [50])] 5 = [([97], [49])] ∧
      (restoreToMemtable [1, 1, 97, 49, 1] {}).toOption.isNone = true := by
  decide

end Yukino.Lsm.WAL
