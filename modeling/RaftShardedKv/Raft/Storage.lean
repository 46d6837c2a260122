import RaftShardedKv.Raft.Codec
import RaftShardedKv.Raft.Safety

/-!
Stable storage: what is stored, as a record and as bytes, is never behind
memory.
-/

namespace RaftShardedKv

open TermLog Consensus Transition

variable {n : ℕ} {C : Type} [Labgob C]

/-- The number that the source has in `votedFor`. -/
def votedForInt (votedFor : Option (Fin n)) : ℤ := votedFor.elim (-1) fun i => i

/-- The bytes of `raftState` in `persist`, which is filled from left to right. -/
def RaftState.bytes (st : RaftState n) : Bytes :=
  persistMagic ++ putInt st.currentTerm ++ putInt (votedForInt st.votedFor) ++
    putInt st.lastIncludedIndex ++ putInt st.lastIncludedTerm ++
    putUint64 st.encodedLogs.length ++ st.encodedLogs.flatMap putEntry

/-- The numbers of a state fit the 64 bits the source has for them. -/
structure RaftState.Fits (st : RaftState n) : Prop where
  servers : n ≤ 2 ^ 63
  currentTerm : st.currentTerm < 2 ^ 63
  lastIncludedIndex : st.lastIncludedIndex < 2 ^ 63
  lastIncludedTerm : st.lastIncludedTerm < 2 ^ 63
  length : st.bytes.length < 2 ^ 63

theorem RaftState.votedForInt_fits {st : RaftState n} (h : st.Fits) :
    -2 ^ 63 ≤ votedForInt st.votedFor ∧ votedForInt st.votedFor < 2 ^ 63 := by
  have hn := h.servers
  cases hv : st.votedFor with
  | none => simp [votedForInt]
  | some i =>
      have hi := i.isLt
      simp only [votedForInt, Option.elim_some]
      omega

/-- The numbers of a state as the source has them, with the log decoded. -/
def RaftState.cached (st : RaftState n) (logs : List (LogEntry C)) : CachedPersist C where
  currentTerm := st.currentTerm
  votedFor := votedForInt st.votedFor
  logs := logs
  encodedLogs := st.encodedLogs
  lastIncludedIndex := st.lastIncludedIndex
  lastIncludedTerm := st.lastIncludedTerm

omit [Labgob C] in
theorem RaftState.Fits.cached {st : RaftState n} (h : st.Fits) (logs : List (LogEntry C)) :
    (st.cached logs).Fits := by
  have hterm := h.currentTerm
  have hindex := h.lastIncludedIndex
  have hbase := h.lastIncludedTerm
  refine ⟨?_, st.votedForInt_fits h, ?_, ?_⟩ <;> simp only [RaftState.cached] <;> omega

/-! ### Storage and memory -/

/-- What storage holds is what memory holds: as the saved record, where an
empty storage means the values `Make` starts with, and as the bytes that
record was laid out in. -/
structure Stored (rf : Raft n C) : Prop where
  state : rf.persister.raftstate.getD (RaftState.initial n C) = rf.raftState
  logs : (rf.persister.raftstate.getD (RaftState.initial n C)).encodedLogs.mapM
    Labgob.decodeLogEntry = some rf.logs
  snapshot : rf.persister.snapshot = rf.snapshot
  bytes : ∀ st, rf.persister.raftstate = some st → st.Fits →
    readCachedPersist C st.bytes = .ok (some
      { currentTerm := rf.currentTerm
        votedFor := votedForInt rf.votedFor
        logs := rf.logs
        encodedLogs := rf.encodedLogs
        lastIncludedIndex := rf.lastIncludedIndex
        lastIncludedTerm := rf.lastIncludedTerm })

theorem Raft.Holds.stored {rf : Raft n C} {L : List (LogEntry C)} (h : rf.Holds L)
    (hsynced : rf.Synced) : Stored rf where
  state := hsynced.state
  logs := by
    rw [hsynced.state]
    show rf.encodedLogs.mapM _ = _
    rw [h.encoded, decode_encoded]
  snapshot := hsynced.snapshot
  bytes st hst hfits := by
    have hstate := hsynced.state
    rw [hst, Option.getD_some] at hstate
    subst hstate
    have hne : rf.logs ≠ [] := by
      rw [h.logs]
      simp [Raft.compacted]
    have hlength : rf.raftState.bytes.length < 256 ^ 8 := hfits.length.trans (by decide)
    have hread : readCachedPersist C (rf.raftState.cached rf.logs).bytes =
        .ok (some (rf.raftState.cached rf.logs)) :=
      readCachedPersist_bytes h.encoded hne (hfits.cached rf.logs) hlength
    exact hread

/-- **Persistence is never behind memory**, in every reachable state; so
`Make` on what a crash leaves restores the persistent variables, and
starts from the snapshot. -/
theorem persistence_not_behind {s : System n C} (hs : (raftSys n C).Reachable s) (i : Fin n) :
    Stored (s.rf i) ∧ ∃ rf, Raft.make i (s.rf i).persister = some rf ∧
      rf.raftState = (s.rf i).raftState ∧ rf.logs = (s.rf i).logs ∧
      rf.snapshot = (s.rf i).snapshot ∧ rf.persister = (s.rf i).persister ∧
      rf.commitIndex = (s.rf i).lastIncludedIndex ∧
      rf.lastApplied = (s.rf i).lastIncludedIndex := by
  obtain ⟨A, hA, h⟩ := exists_rel hs
  have hi := h.server i
  exact ⟨hi.holds.stored hi.synced, (s.rf i).remade i, hi.holds.make hi.synced i,
    rfl, rfl, rfl, rfl, rfl, rfl⟩

/-- Server 1 of `twoLeaders` has stored its vote for itself and an entry. -/
theorem persistence_not_behind_twoLeaders :
    let rf := (play System.step (System.init 2 Bool) twoLeaders).rf 1
    let st : RaftState 2 := ⟨2, some 1, 0, 0, [[0], [2, 0]]⟩
    rf.persister.raftstate = some st ∧
      readCachedPersist Bool st.bytes = .ok (some ⟨rf.currentTerm, votedForInt rf.votedFor,
        rf.logs, rf.encodedLogs, rf.lastIncludedIndex, rf.lastIncludedTerm⟩) ∧
      ∃ rf', Raft.make 1 rf.persister = some rf' ∧ rf'.logs = rf.logs := by
  obtain ⟨hstored, rf', hmake, -, hlogs, -⟩ := persistence_not_behind
    (reachable_play (System.init 2 Bool) System.step twoLeaders) 1
  have hst : ((play System.step (System.init 2 Bool) twoLeaders).rf 1).persister.raftstate =
      some ⟨2, some 1, 0, 0, [[0], [2, 0]]⟩ := by decide +kernel
  refine ⟨hst, hstored.bytes _ hst ?_, rf', hmake, hlogs⟩
  constructor <;> decide

end RaftShardedKv
