import RaftShardedKv.Lib.Consensus.Protocol

/-!
One Raft server: its variables and the helpers that its handlers share,
from `raft1/raft.go`.

Indices and terms are natural numbers. Where the source uses -1 for "no
such server" or "no such term", there is an `Option`. A function that
can panic, because it indexes or cuts a slice or because it checks that
the log and its encoded form have one length, returns `none` when it
does. Timers, condition variables and wake-up channels are left out:
what they delay may happen at any time.

`logs` starts with a dummy entry at index `lastIncludedIndex`, so the
entry with index `i` is at offset `i - lastIncludedIndex`.
-/

namespace RaftShardedKv

open Consensus (Role)

abbrev Bytes := List UInt8

structure LogEntry (C : Type) where
  term : ℕ
  command : Option C
  deriving DecidableEq, Repr

instance (C : Type) : Termed (LogEntry C) := ⟨LogEntry.term⟩

@[simp] theorem LogEntry.termed {C : Type} (e : LogEntry C) : Termed.term e = e.term := rfl

/-- The encoding of log entries, of which the server needs no more than
that decoding undoes it. -/
class Labgob (C : Type) where
  encodeLogEntry : LogEntry C → Bytes
  decodeLogEntry : Bytes → Option (LogEntry C)
  decode_encode : ∀ e, decodeLogEntry (encodeLogEntry e) = some e

/-- An encoding for small runs: commands are Booleans. -/
instance : Labgob Bool where
  encodeLogEntry e :=
    (match e.command with | none => 0 | some false => 1 | some true => 2) ::
      List.replicate e.term 0
  decodeLogEntry
    | [] => none
    | b :: rest =>
        some ⟨rest.length, if b = 0 then none else if b = 1 then some false else some true⟩
  decode_encode e := by
    obtain ⟨t, c⟩ := e
    rcases c with _ | _ | _ <;> simp

structure SnapshotMsg where
  snapshot : Bytes
  snapshotTerm : ℕ
  snapshotIndex : ℕ
  deriving DecidableEq, Repr

/-- `CommandValid` and `SnapshotValid` messages to the service. -/
inductive ApplyMsg (C : Type)
  | command (command : Option C) (commandIndex : ℕ)
  | snapshot (msg : SnapshotMsg)
  deriving DecidableEq, Repr

def ApplyMsg.index {C : Type} : ApplyMsg C → ℕ
  | .command _ i => i
  | .snapshot m => m.snapshotIndex

/-- What `persist` writes, before it is laid out in bytes. -/
structure RaftState (n : ℕ) where
  currentTerm : ℕ
  votedFor : Option (Fin n)
  lastIncludedIndex : ℕ
  lastIncludedTerm : ℕ
  encodedLogs : List Bytes
  deriving DecidableEq, Repr

/-- Stable storage; `none` before anything was saved. -/
structure Persister (n : ℕ) where
  raftstate : Option (RaftState n)
  snapshot : Bytes
  deriving DecidableEq, Repr

structure Raft (n : ℕ) (C : Type) where
  persister : Persister n
  encodedLogs : List Bytes
  me : Fin n
  dead : Bool
  currentTerm : ℕ
  votedFor : Option (Fin n)
  logs : List (LogEntry C)
  nextIndex : Fin n → ℕ
  matchIndex : Fin n → ℕ
  state : Role
  commitIndex : ℕ
  lastApplied : ℕ
  lastIncludedIndex : ℕ
  lastIncludedTerm : ℕ
  snapshot : Bytes
  pendingSnapshot : Option SnapshotMsg

structure AppendEntriesArgs (n : ℕ) (C : Type) where
  term : ℕ
  leaderId : Fin n
  prevLogIndex : ℕ
  prevLogTerm : ℕ
  entries : List (LogEntry C)
  leaderCommit : ℕ

structure AppendEntriesReply where
  term : ℕ
  success : Bool
  stopped : Bool
  conflictTerm : Option ℕ
  conflictIndex : ℕ
  deriving DecidableEq, Repr

structure InstallSnapshotArgs (n : ℕ) where
  term : ℕ
  leaderId : Fin n
  lastIncludedIndex : ℕ
  lastIncludedTerm : ℕ
  data : Bytes

structure InstallSnapshotReply where
  term : ℕ
  stopped : Bool
  deriving DecidableEq, Repr

structure RequestVoteArgs (n : ℕ) where
  term : ℕ
  candidateId : Fin n
  lastLogIndex : ℕ
  lastLogTerm : ℕ

structure RequestVoteReply where
  term : ℕ
  voteGranted : Bool
  deriving DecidableEq, Repr

/-- The slice `xs[k:]`. -/
def sliceFrom {α : Type} (xs : List α) (k : ℕ) : Option (List α) :=
  if k ≤ xs.length then some (xs.drop k) else none

/-- The slice `xs[:k]`. -/
def sliceTo {α : Type} (xs : List α) (k : ℕ) : Option (List α) :=
  if k ≤ xs.length then some (xs.take k) else none

namespace Raft

variable {n : ℕ} {C : Type}

/-! ### Indices -/

def firstLogIndexLocked (rf : Raft n C) : ℕ := rf.lastIncludedIndex

def lastLogIndexLocked (rf : Raft n C) : ℕ := rf.lastIncludedIndex + rf.logs.length - 1

/-- `none` stands for a negative offset, which no slice can be indexed with. -/
def toOffsetLocked (rf : Raft n C) (index : ℕ) : Option ℕ :=
  if rf.lastIncludedIndex ≤ index then some (index - rf.lastIncludedIndex) else none

def containsIndexLocked (rf : Raft n C) (index : ℕ) : Bool :=
  decide (rf.lastIncludedIndex ≤ index) && decide (index ≤ rf.lastLogIndexLocked)

/-- The expression `rf.logs[rf.toOffsetLocked(index)]`. -/
def entryAt (rf : Raft n C) (index : ℕ) : Option (LogEntry C) :=
  (rf.toOffsetLocked index).bind fun offset => rf.logs[offset]?

/-- The term at an index, `none` if the source returns `ok = false`. -/
def termAtLocked (rf : Raft n C) (index : ℕ) : Option ℕ :=
  if rf.containsIndexLocked index then (rf.entryAt index).map LogEntry.term else none

def lastLogTermLocked (rf : Raft n C) : Option ℕ :=
  rf.logs[rf.logs.length - 1]?.map LogEntry.term

/-- The loop of `lastIndexOfTermLocked`, over the offsets below `offset`. -/
def lastOffsetOfTerm (logs : List (LogEntry C)) (term : ℕ) : ℕ → Option ℕ
  | 0 => none
  | offset + 1 =>
      if logs[offset]?.map LogEntry.term = some term then some offset
      else lastOffsetOfTerm logs term offset

def lastIndexOfTermLocked (rf : Raft n C) (term : ℕ) : Option ℕ :=
  (lastOffsetOfTerm rf.logs term rf.logs.length).map fun offset => rf.lastIncludedIndex + offset

/-! ### The log, its encoded form and stable storage -/

variable [Labgob C]

def rebuildEncodedLogs (rf : Raft n C) : Raft n C :=
  { rf with encodedLogs := rf.logs.map Labgob.encodeLogEntry }

def appendLogs (rf : Raft n C) (entries : List (LogEntry C)) : Raft n C :=
  { rf with
    logs := rf.logs ++ entries
    encodedLogs := rf.encodedLogs ++ entries.map Labgob.encodeLogEntry }

def truncateLogs (rf : Raft n C) (length : ℕ) : Option (Raft n C) := do
  let logs ← sliceTo rf.logs length
  let encodedLogs ← sliceTo rf.encodedLogs length
  some { rf with logs := logs, encodedLogs := encodedLogs }

def replaceLogs (rf : Raft n C) (logs : List (LogEntry C)) : Raft n C :=
  rebuildEncodedLogs { rf with logs := logs }

/-- The fields that are saved. -/
def raftState (rf : Raft n C) : RaftState n where
  currentTerm := rf.currentTerm
  votedFor := rf.votedFor
  lastIncludedIndex := rf.lastIncludedIndex
  lastIncludedTerm := rf.lastIncludedTerm
  encodedLogs := rf.encodedLogs

/-- The server after `Persister.Save`. -/
def saved (rf : Raft n C) : Raft n C :=
  { rf with persister := { raftstate := some rf.raftState, snapshot := rf.snapshot } }

def persist (rf : Raft n C) : Option (Raft n C) :=
  if rf.encodedLogs.length = rf.logs.length then some rf.saved else none

/-- `readPersist` on what `persist` wrote; a log without entries or with
an entry that cannot be decoded makes it panic. -/
def readPersist (rf : Raft n C) : Option (RaftState n) → Option (Raft n C)
  | none => some rf
  | some data =>
      if data.encodedLogs = [] then none
      else do
        let logs ← data.encodedLogs.mapM Labgob.decodeLogEntry
        some { rf with
          currentTerm := data.currentTerm
          votedFor := data.votedFor
          logs := logs
          encodedLogs := data.encodedLogs
          lastIncludedIndex := data.lastIncludedIndex
          lastIncludedTerm := data.lastIncludedTerm }

/-- The state `Make` sets up before it reads the storage. -/
def initial (me : Fin n) (persister : Persister n) : Raft n C :=
  rebuildEncodedLogs
    { persister := persister
      encodedLogs := []
      me := me
      dead := false
      currentTerm := 0
      votedFor := none
      logs := [⟨0, none⟩]
      nextIndex := fun _ => 0
      matchIndex := fun _ => 0
      state := .follower
      commitIndex := 0
      lastApplied := 0
      lastIncludedIndex := 0
      lastIncludedTerm := 0
      snapshot := []
      pendingSnapshot := none }

def make (me : Fin n) (persister : Persister n) : Option (Raft n C) := do
  let rf ← (initial me persister).readPersist persister.raftstate
  some { rf with
    snapshot := persister.snapshot
    commitIndex := rf.lastIncludedIndex
    lastApplied := rf.lastIncludedIndex }

def kill (rf : Raft n C) : Raft n C :=
  if rf.dead then rf else { rf with dead := true, state := .follower }

/-! ### Changes of role -/

def becomeFollowerLocked (rf : Raft n C) (term : ℕ) : Option (Raft n C) := do
  let rf ← (if rf.currentTerm < term then
      persist { rf with currentTerm := term, votedFor := none }
    else some rf)
  some { rf with state := .follower }

def becomeLeaderLocked (rf : Raft n C) : Raft n C :=
  { rf with
    state := .leader
    nextIndex := fun _ => rf.lastLogIndexLocked + 1
    matchIndex := fun i => if i = rf.me then rf.lastLogIndexLocked else 0 }

end Raft

end RaftShardedKv
