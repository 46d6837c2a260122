import RaftShardedKv.Raft.Handlers

/-!
What the stored, compacted log of a server stands for.

`Holds rf L` says that `rf` holds the log `L`, counted from index 1, of
which it keeps the entries above `lastIncludedIndex` behind a dummy that
carries the term at that index, and that the encoded form is in step.
From this alone every index expression of the source is in range and
gives what it would give on `L`; the handlers' loops over the stored log
are then the operations on whole logs that the protocol talks about.
-/

namespace RaftShardedKv.Raft

open TermLog

variable {n : ℕ} {C : Type}

/-- The form in which `L` is stored when its first `b` entries are in a
snapshot. -/
def compacted (L : List (LogEntry C)) (b : ℕ) : List (LogEntry C) :=
  ⟨termAt L b, none⟩ :: L.drop b

theorem compacted_length (L : List (LogEntry C)) (b : ℕ) :
    (compacted L b).length = L.length - b + 1 := by
  simp [compacted]

theorem compacted_getElem? (L : List (LogEntry C)) (b k : ℕ) :
    (compacted L b)[k + 1]? = L[b + k]? := by
  simp [compacted]

theorem compacted_term {L : List (LogEntry C)} {b k : ℕ} (hk : b + k ≤ L.length) :
    (compacted L b)[k]?.map LogEntry.term = some (termAt L (b + k)) := by
  cases k with
  | zero => simp [compacted]
  | succ k =>
      have hlt : b + k < L.length := by omega
      rw [compacted_getElem?, List.getElem?_eq_getElem hlt, Option.map_some]
      exact congrArg some (termAt_of_getElem? (List.getElem?_eq_getElem hlt)).symm

theorem compacted_append {L es : List (LogEntry C)} {b : ℕ} (hb : b ≤ L.length) :
    compacted (L ++ es) b = compacted L b ++ es := by
  simp [compacted, termAt_append_left hb, List.drop_append_of_le_length hb]

theorem compacted_take {L : List (LogEntry C)} {b j : ℕ} (hb : b ≤ j) :
    compacted (L.take j) b = (compacted L b).take (j - b + 1) := by
  simp [compacted, termAt_take hb, List.drop_take]

theorem compacted_drop {L : List (LogEntry C)} {b k : ℕ} :
    (compacted L b).drop (k + 1) = L.drop (b + k) := by
  simp [compacted]

variable [Labgob C]

structure Holds (rf : Raft n C) (L : List (LogEntry C)) : Prop where
  base_le : rf.lastIncludedIndex ≤ L.length
  base_term : rf.lastIncludedTerm = termAt L rf.lastIncludedIndex
  logs : rf.logs = compacted L rf.lastIncludedIndex
  encoded : rf.encodedLogs = rf.logs.map Labgob.encodeLogEntry

namespace Holds

variable {rf : Raft n C} {L : List (LogEntry C)}

theorem length_logs (h : Holds rf L) :
    rf.logs.length = L.length - rf.lastIncludedIndex + 1 := by
  rw [h.logs, compacted_length]

theorem lastLogIndex (h : Holds rf L) : rf.lastLogIndexLocked = L.length := by
  have := h.base_le
  rw [lastLogIndexLocked, h.length_logs]
  omega

theorem contains (h : Holds rf L) {k : ℕ} :
    rf.containsIndexLocked k ↔ rf.lastIncludedIndex ≤ k ∧ k ≤ L.length := by
  simp [containsIndexLocked, h.lastLogIndex]

theorem entryAt (h : Holds rf L) {k : ℕ} (hk : rf.lastIncludedIndex < k) :
    rf.entryAt k = L[k - 1]? := by
  obtain ⟨d, rfl⟩ := Nat.exists_eq_add_of_lt hk
  have hoff : rf.lastIncludedIndex + d + 1 - rf.lastIncludedIndex = d + 1 := by omega
  rw [Raft.entryAt, toOffsetLocked, if_pos hk.le, Option.bind_some, hoff, h.logs,
    compacted_getElem?]
  rfl

theorem termAtLocked (h : Holds rf L) (k : ℕ) :
    rf.termAtLocked k =
      if rf.lastIncludedIndex ≤ k ∧ k ≤ L.length then some (termAt L k) else none := by
  by_cases hk : rf.lastIncludedIndex ≤ k ∧ k ≤ L.length
  · have hadd : rf.lastIncludedIndex + (k - rf.lastIncludedIndex) = k := by omega
    rw [if_pos hk, Raft.termAtLocked, if_pos (h.contains.mpr hk), Raft.entryAt, toOffsetLocked,
      if_pos hk.1, Option.bind_some, h.logs, compacted_term (by omega), hadd]
  · rw [if_neg hk, Raft.termAtLocked, if_neg (fun hc => hk (h.contains.mp hc))]

theorem termAtLocked_some (h : Holds rf L) {k : ℕ} (hb : rf.lastIncludedIndex ≤ k)
    (hk : k ≤ L.length) : rf.termAtLocked k = some (termAt L k) := by
  rw [h.termAtLocked, if_pos ⟨hb, hk⟩]

theorem lastLogTerm (h : Holds rf L) : rf.lastLogTermLocked = some (lastTerm L) := by
  have hlen := h.length_logs
  have hb := h.base_le
  have hsub : rf.logs.length - 1 = L.length - rf.lastIncludedIndex := by omega
  have hadd : rf.lastIncludedIndex + (L.length - rf.lastIncludedIndex) = L.length := by omega
  rw [lastLogTermLocked, hsub, h.logs, compacted_term (by omega), hadd, lastTerm]

theorem persist (h : Holds rf L) : rf.persist = some rf.saved := by
  rw [Raft.persist, if_pos (by rw [h.encoded, List.length_map])]

/-- The log a server stands for is what it stores behind what its
snapshot covers. -/
theorem entries (h : Holds rf L) {base : List (LogEntry C)}
    (hbase : base.take rf.lastIncludedIndex = L.take rf.lastIncludedIndex) :
    base.take rf.lastIncludedIndex ++ rf.logs.tail = L := by
  rw [hbase, h.logs, compacted, List.tail_cons, List.take_append_drop]

end Holds

/-! ### Merging entries -/

/-- `rf` with the log `L` in place of its own, behind the same boundary. -/
def withLog (rf : Raft n C) (L : List (LogEntry C)) : Raft n C :=
  rf.replaceLogs (compacted L rf.lastIncludedIndex)

theorem Holds.withLog_self {rf : Raft n C} {L : List (LogEntry C)} (h : Holds rf L) :
    rf.withLog L = rf := by
  have henc := h.encoded
  rw [h.logs] at henc
  cases rf
  simp only [withLog, replaceLogs, rebuildEncodedLogs, Raft.mk.injEq, true_and, and_true]
  exact ⟨henc.symm, h.logs.symm⟩

theorem Holds.withLog {rf : Raft n C} {L L' : List (LogEntry C)} (h : Holds rf L)
    (hlen : rf.lastIncludedIndex ≤ L'.length)
    (htake : L'.take rf.lastIncludedIndex = L.take rf.lastIncludedIndex) :
    Holds (rf.withLog L') L' where
  base_le := hlen
  base_term := by
    have hold : termAt (L.take rf.lastIncludedIndex) rf.lastIncludedIndex = _ :=
      termAt_take le_rfl
    rw [← htake, termAt_take le_rfl] at hold
    exact h.base_term.trans hold.symm
  logs := rfl
  encoded := rfl

theorem Holds.appendLogs {rf : Raft n C} {L : List (LogEntry C)} (h : Holds rf L)
    (es : List (LogEntry C)) : rf.appendLogs es = rf.withLog (L ++ es) := by
  simp only [Raft.appendLogs, Raft.withLog, replaceLogs, rebuildEncodedLogs,
    compacted_append h.base_le, h.encoded, h.logs, List.map_append]

/-- Cutting the stored log at the offset of index `j + 1` and adding
entries there is cutting the log after `j` entries. -/
theorem Holds.truncate_append {rf : Raft n C} {L : List (LogEntry C)} (h : Holds rf L) {j : ℕ}
    (hb : rf.lastIncludedIndex ≤ j) (hj : j ≤ L.length) (es : List (LogEntry C)) :
    (rf.truncateLogs (j - rf.lastIncludedIndex + 1)).map (fun rf => rf.appendLogs es) =
      some (rf.withLog (L.take j ++ es)) := by
  have hlen : j - rf.lastIncludedIndex + 1 ≤ rf.logs.length := by
    rw [h.length_logs]; omega
  have henc : j - rf.lastIncludedIndex + 1 ≤ rf.encodedLogs.length := by
    rw [h.encoded, List.length_map]; exact hlen
  have htake : rf.lastIncludedIndex ≤ (L.take j).length := by simp; omega
  simp only [truncateLogs, sliceTo, if_pos hlen, if_pos henc, Option.bind_eq_bind,
    Option.bind_some, Option.map_some]
  simp only [Raft.appendLogs, Raft.withLog, replaceLogs, rebuildEncodedLogs,
    compacted_append htake, compacted_take hb, h.encoded, h.logs, List.map_append, List.map_take]

/-- **The merge loop** is `splice`, and what it leaves unchanged is
reported so. By induction over the entries, as the loop goes. -/
theorem Holds.mergeEntries {rf : Raft n C} {L : List (LogEntry C)} (h : Holds rf L)
    (es : List (LogEntry C)) (j : ℕ) (hb : rf.lastIncludedIndex ≤ j) (hj : j ≤ L.length) :
    ∃ changed, rf.mergeEntries (j + 1) es = some (rf.withLog (splice L j es), changed) ∧
      (changed = false → splice L j es = L) := by
  induction es generalizing j with
  | nil => exact ⟨false, by rw [Raft.mergeEntries, splice, h.withLog_self], fun _ => rfl⟩
  | cons e es ih =>
      rcases Nat.lt_or_ge j L.length with hlt | hge
      · have hx : L[j]? = some L[j] := List.getElem?_eq_getElem hlt
        have hterm : rf.termAtLocked (j + 1) = some L[j].term := by
          rw [h.termAtLocked_some (by omega) hlt, termAt_of_getElem? hx, LogEntry.termed]
        have hle : j + 1 ≤ rf.lastLogIndexLocked := by rw [h.lastLogIndex]; exact hlt
        simp only [Raft.mergeEntries, if_pos hle, hterm, splice, hx,
          LogEntry.termed]
        by_cases heq : L[j].term = e.term
        · rw [if_neg (not_not.mpr heq), if_pos heq]
          exact ih (j + 1) (by omega) hlt
        · have hoff : rf.toOffsetLocked (j + 1) = some (j - rf.lastIncludedIndex + 1) := by
            rw [toOffsetLocked, if_pos (by omega)]
            exact congrArg some (by omega)
          have hcut := h.truncate_append hb hj (e :: es)
          obtain ⟨rf', hrf', happ⟩ := Option.map_eq_some_iff.mp hcut
          refine ⟨true, ?_, by simp⟩
          rw [if_pos heq, if_neg heq, hoff]
          simp only [Option.bind_eq_bind, Option.bind_some, hrf', happ]
      · have hgt : ¬ j + 1 ≤ rf.lastLogIndexLocked := by rw [h.lastLogIndex]; omega
        have hx : L[j]? = none := List.getElem?_eq_none hge
        refine ⟨true, ?_, by simp⟩
        simp only [Raft.mergeEntries, if_neg hgt, splice, hx, h.appendLogs]

end RaftShardedKv.Raft
