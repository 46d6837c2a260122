import RaftShardedKv.Raft.Node

/-!
The code a Raft server runs while it holds its lock: the three RPC
handlers, the calls of the service, the applier, the election, and the
two halves of replication, building a request and taking in its reply.
Each function here is one critical section of `raft1/raft.go`.
-/

namespace RaftShardedKv.Raft

open Consensus (Role)

variable {n : ℕ} {C : Type}

/-! ### Applying committed entries -/

/-- The condition under which the applier stops waiting. -/
def applierReady (rf : Raft n C) : Bool :=
  !rf.dead && (rf.pendingSnapshot.isSome || decide (rf.lastApplied < rf.commitIndex))

/-- The messages for the entries `start`, `start + 1`, ..., `stop`. The
capacity that the source asks for must not be negative. -/
def commandMessages (rf : Raft n C) (start stop : ℕ) : Option (List (ApplyMsg C)) :=
  if stop + 1 < start then none
  else (List.range' start (stop + 1 - start)).mapM fun index =>
    (rf.entryAt index).map fun entry => .command entry.command index

/-- What `applier` claims before it sends: the pending snapshot, or all
entries that are committed and not yet applied. -/
def applierClaim (rf : Raft n C) : Option (Raft n C × List (ApplyMsg C)) :=
  match rf.pendingSnapshot with
  | some message =>
      some ({ rf with
        pendingSnapshot := none
        lastApplied := max rf.lastApplied message.snapshotIndex }, [.snapshot message])
  | none => do
      let start := max (rf.lastApplied + 1) (rf.lastIncludedIndex + 1)
      let messages ← rf.commandMessages start rf.commitIndex
      some ({ rf with lastApplied := rf.commitIndex }, messages)

/-! ### Commitment -/

/-- The number of servers known to hold the entry at `index`. -/
def replicated (rf : Raft n C) (index : ℕ) : ℕ :=
  (Finset.univ.filter fun peer => index ≤ rf.matchIndex peer).card

/-- The loop of `advanceCommitIndexLocked`, from `index` downwards. -/
def advanceFrom (rf : Raft n C) : ℕ → Raft n C
  | 0 => rf
  | index + 1 =>
      if rf.commitIndex < index + 1 then
        if rf.termAtLocked (index + 1) = some rf.currentTerm ∧
            n / 2 + 1 ≤ rf.replicated (index + 1) then
          { rf with commitIndex := index + 1 }
        else rf.advanceFrom index
      else rf

def advanceCommitIndexLocked (rf : Raft n C) : Raft n C :=
  if rf.state ≠ .leader then rf else rf.advanceFrom rf.lastLogIndexLocked

variable [Labgob C]

/-! ### The RPC handlers -/

def requestVote (rf : Raft n C) (args : RequestVoteArgs n) :
    Option (Raft n C × RequestVoteReply) := do
  let myLastLogIndex := rf.lastLogIndexLocked
  let myLastLogTerm ← rf.lastLogTermLocked
  if rf.dead then some (rf, ⟨rf.currentTerm, false⟩)
  else if args.term < rf.currentTerm then some (rf, ⟨rf.currentTerm, false⟩)
  else do
    let rf ← (if rf.currentTerm < args.term then rf.becomeFollowerLocked args.term else some rf)
    let canVote := rf.votedFor = none ∨ rf.votedFor = some args.candidateId
    let upToDate := myLastLogTerm < args.lastLogTerm ∨
      args.lastLogTerm = myLastLogTerm ∧ myLastLogIndex ≤ args.lastLogIndex
    if canVote ∧ upToDate then do
      let rf ← persist { rf with votedFor := some args.candidateId }
      some (rf, ⟨rf.currentTerm, true⟩)
    else some (rf, ⟨rf.currentTerm, false⟩)

/-- The search for the first index of `conflictTerm`, downwards from an
index that has it. -/
def conflictStart (rf : Raft n C) (conflictTerm : ℕ) : ℕ → ℕ
  | 0 => 0
  | index + 1 =>
      if rf.firstLogIndexLocked < index + 1 ∧ rf.termAtLocked index = some conflictTerm then
        rf.conflictStart conflictTerm index
      else index + 1

/-- The merge loop of `AppendEntries`, with the index its first entry is
meant for. The Boolean is `changed`. -/
def mergeEntries (rf : Raft n C) : ℕ → List (LogEntry C) → Option (Raft n C × Bool)
  | _, [] => some (rf, false)
  | localIndex, entry :: rest =>
      if localIndex ≤ rf.lastLogIndexLocked then
        match rf.termAtLocked localIndex with
        | none => rf.mergeEntries (localIndex + 1) rest
        | some localTerm =>
            if localTerm ≠ entry.term then do
              let offset ← rf.toOffsetLocked localIndex
              let rf ← rf.truncateLogs offset
              some (rf.appendLogs (entry :: rest), true)
            else rf.mergeEntries (localIndex + 1) rest
      else some (rf.appendLogs (entry :: rest), true)

/-- The last part of `AppendEntries`: follow the leader's commit index,
as far as this request has confirmed the log. -/
def followCommit (rf : Raft n C) (leaderCommit lastNewIndex : ℕ) : Raft n C :=
  if rf.commitIndex < leaderCommit then
    let newCommit := if lastNewIndex < leaderCommit then lastNewIndex else leaderCommit
    if rf.commitIndex < newCommit then { rf with commitIndex := newCommit } else rf
  else rf

def appendEntries (rf : Raft n C) (args : AppendEntriesArgs n C) :
    Option (Raft n C × AppendEntriesReply) :=
  let reply : AppendEntriesReply := ⟨rf.currentTerm, false, rf.dead, none, 0⟩
  if rf.dead then some (rf, reply)
  else if args.term < rf.currentTerm then some (rf, reply)
  else do
    let rf ← rf.becomeFollowerLocked args.term
    let reply := { reply with term := rf.currentTerm }
    if rf.lastLogIndexLocked < args.prevLogIndex then
      some (rf, { reply with conflictIndex := rf.lastLogIndexLocked + 1 })
    else if args.prevLogIndex < rf.firstLogIndexLocked then
      some (rf, { reply with conflictIndex := rf.firstLogIndexLocked + 1 })
    else
      match rf.termAtLocked args.prevLogIndex with
      | none => some (rf, reply)
      | some prevLogTerm =>
          if prevLogTerm ≠ args.prevLogTerm then
            some (rf, { reply with
              conflictTerm := some prevLogTerm
              conflictIndex := rf.conflictStart prevLogTerm args.prevLogIndex })
          else do
            let (rf, changed) ← rf.mergeEntries (args.prevLogIndex + 1) args.entries
            let rf ← (if changed then rf.persist else some rf)
            let rf := rf.followCommit args.leaderCommit (args.prevLogIndex + args.entries.length)
            some (rf, { reply with success := true })

/-- The entries behind the boundary of an arriving snapshot, which are
kept only if the log has the boundary with the same term. -/
def snapshotSuffix (rf : Raft n C) (args : InstallSnapshotArgs n) :
    Option (List (LogEntry C)) :=
  if rf.termAtLocked args.lastIncludedIndex = some args.lastIncludedTerm then do
    let offset ← rf.toOffsetLocked args.lastIncludedIndex
    sliceFrom rf.logs (offset + 1)
  else some []

def installSnapshot (rf : Raft n C) (args : InstallSnapshotArgs n) :
    Option (Raft n C × InstallSnapshotReply) :=
  if rf.dead then some (rf, ⟨rf.currentTerm, true⟩)
  else if args.term < rf.currentTerm then some (rf, ⟨rf.currentTerm, false⟩)
  else do
    let rf ← rf.becomeFollowerLocked args.term
    let reply : InstallSnapshotReply := ⟨rf.currentTerm, false⟩
    if args.lastIncludedIndex ≤ rf.commitIndex then some (rf, reply)
    else do
      let suffix ← rf.snapshotSuffix args
      let rf := { rf with
        lastIncludedIndex := args.lastIncludedIndex
        lastIncludedTerm := args.lastIncludedTerm }
      let rf := rf.replaceLogs (⟨args.lastIncludedTerm, none⟩ :: suffix)
      let rf ← persist { rf with
        snapshot := args.data
        commitIndex := args.lastIncludedIndex
        lastApplied := args.lastIncludedIndex }
      some ({ rf with
        pendingSnapshot := some ⟨rf.snapshot, rf.lastIncludedTerm, rf.lastIncludedIndex⟩ }, reply)

/-! ### Calls of the service -/

def getState (rf : Raft n C) : ℕ × Bool :=
  (rf.currentTerm, !rf.dead && decide (rf.state = .leader))

/-- `Start`, with the returned index and term, and whether the server
took itself for the leader. -/
def start (rf : Raft n C) (command : C) : Option (Raft n C × Option ℕ × ℕ × Bool) :=
  let term := rf.currentTerm
  if rf.dead ∨ rf.state ≠ .leader then some (rf, none, term, false)
  else do
    let index := rf.lastLogIndexLocked + 1
    let rf ← (rf.appendLogs [⟨term, some command⟩]).persist
    let rf := { rf with
      matchIndex := Function.update rf.matchIndex rf.me index
      nextIndex := Function.update rf.nextIndex rf.me (index + 1) }
    let rf := if n = 1 then rf.advanceCommitIndexLocked else rf
    some (rf, some index, term, true)

/-- `Snapshot`: fold the log up to `index` into `data`. -/
def takeSnapshot (rf : Raft n C) (index : ℕ) (data : Bytes) : Option (Raft n C) :=
  if rf.dead then some rf
  else if index ≤ rf.lastIncludedIndex then some rf
  else if rf.lastApplied < index ∨ rf.lastLogIndexLocked < index then some rf
  else do
    let cut := index - rf.lastIncludedIndex
    let boundaryTerm ← rf.logs[cut]?.map LogEntry.term
    let tail ← sliceFrom rf.logs (cut + 1)
    let rf := { rf with lastIncludedIndex := index, lastIncludedTerm := boundaryTerm }
    let rf := rf.replaceLogs (⟨boundaryTerm, none⟩ :: tail)
    persist { rf with snapshot := data }

/-! ### Elections -/

/-- `startElection` once its guard holds. The arguments go to every other
server, unless the server's own vote was enough to make it leader. -/
def startElection (rf : Raft n C) : Option (Raft n C × Option (RequestVoteArgs n)) := do
  let rf ← persist { rf with
    state := .candidate
    currentTerm := rf.currentTerm + 1
    votedFor := some rf.me }
  let lastLogTerm ← rf.lastLogTermLocked
  if n / 2 + 1 ≤ 1 then some (rf.becomeLeaderLocked, none)
  else some (rf, some ⟨rf.currentTerm, rf.me, rf.lastLogIndexLocked, lastLogTerm⟩)

/-- A reply to the vote request that was sent in `term`; `votes` is the
count of that election. -/
def requestVoteReply (rf : Raft n C) (term votes : ℕ) (reply : RequestVoteReply) :
    Option (Raft n C × ℕ) :=
  if rf.dead then some (rf, votes)
  else if rf.currentTerm < reply.term then do
    let rf ← rf.becomeFollowerLocked reply.term
    some (rf, votes)
  else if rf.state ≠ .candidate ∨ rf.currentTerm ≠ term then some (rf, votes)
  else if ¬ reply.voteGranted then some (rf, votes)
  else if n / 2 + 1 ≤ votes + 1 then some (rf.becomeLeaderLocked, votes + 1)
  else some (rf, votes + 1)

/-! ### Replication -/

inductive ReplicationRequest (n : ℕ) (C : Type)
  | appendEntries (args : AppendEntriesArgs n C)
  | installSnapshot (args : InstallSnapshotArgs n)

/-- The first half of a round of `replicateUntilStable`: the request for
`peer`, if there is one to send. -/
def replicationRequest (rf : Raft n C) (peer : Fin n) :
    Option (Option (ReplicationRequest n C)) :=
  if rf.dead ∨ rf.state ≠ .leader then some none
  else if rf.nextIndex peer ≤ rf.lastIncludedIndex then
    some (some (.installSnapshot
      ⟨rf.currentTerm, rf.me, rf.lastIncludedIndex, rf.lastIncludedTerm, rf.snapshot⟩))
  else
    match rf.termAtLocked (rf.nextIndex peer - 1) with
    | none => some none
    | some prevLogTerm => do
        let offset ← rf.toOffsetLocked (rf.nextIndex peer)
        let entries ← sliceFrom rf.logs offset
        some (some (.appendEntries
          ⟨rf.currentTerm, rf.me, rf.nextIndex peer - 1, prevLogTerm, entries, rf.commitIndex⟩))

/-- The independent heartbeat that `heartbeatOrNotifyReplication` builds. -/
def heartbeatRequest (rf : Raft n C) : Option (Option (AppendEntriesArgs n C)) :=
  if rf.dead ∨ rf.state ≠ .leader then some none
  else do
    let prevLogTerm ← rf.lastLogTermLocked
    some (some ⟨rf.currentTerm, rf.me, rf.lastLogIndexLocked, prevLogTerm, [], rf.commitIndex⟩)

def heartbeatReply (rf : Raft n C) (reply : AppendEntriesReply) : Option (Raft n C) :=
  if rf.dead then some rf
  else if rf.currentTerm < reply.term then rf.becomeFollowerLocked reply.term
  else some rf

/-- The progress of `peer` after it confirmed everything up to `index`. -/
def progress (rf : Raft n C) (peer : Fin n) (index : ℕ) : Raft n C :=
  { rf with
    matchIndex := Function.update rf.matchIndex peer (max (rf.matchIndex peer) index)
    nextIndex := Function.update rf.nextIndex peer (max (rf.nextIndex peer) (index + 1)) }

def installSnapshotReply (rf : Raft n C) (peer : Fin n) (args : InstallSnapshotArgs n)
    (reply : InstallSnapshotReply) : Option (Raft n C) :=
  if rf.dead ∨ reply.stopped then some rf
  else if rf.currentTerm < reply.term then rf.becomeFollowerLocked reply.term
  else if rf.state ≠ .leader ∨ rf.currentTerm ≠ args.term then some rf
  else some (rf.progress peer args.lastIncludedIndex)

/-- The next index to try after a mismatch, with its three clamps. -/
def backOff (rf : Raft n C) (peer : Fin n) (reply : AppendEntriesReply) : ℕ :=
  let newNext := match reply.conflictTerm with
    | none => reply.conflictIndex
    | some conflictTerm =>
        match rf.lastIndexOfTermLocked conflictTerm with
        | none => reply.conflictIndex
        | some lastIndex => lastIndex + 1
  let newNext := if newNext < 1 then 1 else newNext
  let maxNext := rf.lastLogIndexLocked + 1
  let newNext := if maxNext < newNext then maxNext else newNext
  let minNext := rf.matchIndex peer + 1
  if newNext < minNext then minNext else newNext

def appendEntriesReply (rf : Raft n C) (peer : Fin n) (args : AppendEntriesArgs n C)
    (reply : AppendEntriesReply) : Option (Raft n C) :=
  if rf.dead ∨ reply.stopped then some rf
  else if rf.currentTerm < reply.term then rf.becomeFollowerLocked reply.term
  else if rf.state ≠ .leader ∨ rf.currentTerm ≠ args.term then some rf
  else if reply.success then
    let oldMatch := rf.matchIndex peer
    let rf := rf.progress peer (args.prevLogIndex + args.entries.length)
    some (if oldMatch < rf.matchIndex peer then rf.advanceCommitIndexLocked else rf)
  else if rf.nextIndex peer ≠ args.prevLogIndex + 1 then some rf
  else some { rf with nextIndex := Function.update rf.nextIndex peer (rf.backOff peer reply) }

end RaftShardedKv.Raft
