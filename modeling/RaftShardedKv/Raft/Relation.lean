import RaftShardedKv.Raft.Spec
import RaftShardedKv.Raft.System
import RaftShardedKv.Lib.Consensus.Commit

/-!
How a cluster of servers stands for a state of the consensus protocol.

A server is related to the protocol's server of the same name when terms,
roles, votes, logs and commit indices agree, with the compacted log read
as the whole log; a call in flight is related when what it carries is
part of the protocol's history. Calls only refer to parts of the history
that never change again, so they stay related whatever happens while
they are under way: that is all there is to delay, loss and reordering.

The votes a candidate counts are the one place where the protocol's
history is not enough: that no vote is counted twice follows from each
call having one reply at most.
-/

namespace RaftShardedKv

open TermLog Consensus Transition

variable {n : ℕ} {C : Type} [Labgob C]

/-- The states of the protocol that a cluster of `n` servers refines. -/
abbrev Abstract (n : ℕ) (C : Type) := Cluster (Fin n) (LogEntry C)

abbrev abstractSys (n : ℕ) (C : Type) := protocol (Fin n) (LogEntry C)

structure ServerRel (A : Abstract n C) (i : Fin n) (rf : Raft n C) : Prop where
  me : rf.me = i
  term : A.term i = rf.currentTerm
  role : A.role i = rf.state
  vote : A.vote rf.currentTerm i = rf.votedFor
  commit : A.commit i = rf.commitIndex
  holds : rf.Holds (A.log i)
  synced : rf.Synced
  base_le : rf.lastIncludedIndex ≤ rf.lastApplied
  applied_le : rf.lastApplied ≤ rf.commitIndex
  pending_le : ∀ m, rf.pendingSnapshot = some m → m.snapshotIndex ≤ rf.lastApplied
  matched : rf.state = .leader → ∀ p, rf.matchIndex p ≤ A.acked rf.currentTerm p

/-- The entries of a request are the end of a log `P` that the leader of
its term has had. -/
def EntriesRel (A : Abstract n C) (src : Fin n) (args : AppendEntriesArgs n C) : Prop :=
  A.leader args.term = some src ∧
    ∃ P, P <+: A.lead args.term ∧ args.prevLogIndex ≤ P.length ∧
      termAt P args.prevLogIndex = args.prevLogTerm ∧ P.drop args.prevLogIndex = args.entries ∧
      args.leaderCommit ≤ P.length ∧ CommittedPrefix A args.term (P.take args.leaderCommit)

/-- A snapshot under way stands for a committed beginning of the log of
its leader. -/
def SnapshotRel (A : Abstract n C) (src : Fin n) (args : InstallSnapshotArgs n)
    (P : List (LogEntry C)) : Prop :=
  A.leader args.term = some src ∧ P <+: A.lead args.term ∧
    P.length = args.lastIncludedIndex ∧
    termAt P args.lastIncludedIndex = args.lastIncludedTerm ∧ CommittedPrefix A args.term P

/-- A vote request describes the log its sender stood for election with. -/
def VoteRel (A : Abstract n C) (src : Fin n) (args : RequestVoteArgs n) : Prop :=
  args.candidateId = src ∧ A.vote args.term src = some src ∧
    args.lastLogIndex = (A.voteLog args.term src).length ∧
    args.lastLogTerm = lastTerm (A.voteLog args.term src)

/-- What a call in flight says is true; a positive reply says that the
receiver has voted, or that it holds what was sent. -/
def CallRel (A : Abstract n C) (c : Call n C) : Prop :=
  match c.rpc with
  | .requestVote args reply => VoteRel A c.src args ∧
      ∀ r, reply = some r → r.voteGranted → A.vote args.term c.dst = some c.src
  | .appendEntries args reply => EntriesRel A c.src args ∧
      ∀ r, reply = some r → r.success →
        args.prevLogIndex + args.entries.length ≤ A.acked args.term c.dst
  | .heartbeat args _ => EntriesRel A c.src args
  | .installSnapshot args P reply => SnapshotRel A c.src args P ∧
      ∀ r, reply = some r → r.stopped = false → r.term ≤ args.term →
        args.lastIncludedIndex ≤ A.acked args.term c.dst

/-! ### Relations survive the steps of others -/

section star

variable {A A' : Abstract n C} (hA : (abstractSys n C).Reachable A)
  (hs : (abstractSys n C).Star A A')

include hA hs

theorem ServerRel.frame {i j : Fin n} {rf : Raft n C} (h : ServerRel A j rf)
    (honly : Only i A A') (hij : j ≠ i) : ServerRel A' j rf where
  me := h.me
  term := (honly.term j hij).trans h.term
  role := (honly.role j hij).trans h.role
  vote := (honly.vote j hij _).trans h.vote
  commit := (honly.commit j hij).trans h.commit
  holds := by rw [honly.log j hij]; exact h.holds
  synced := h.synced
  base_le := h.base_le
  applied_le := h.applied_le
  pending_le := h.pending_le
  matched hlead p := (h.matched hlead p).trans (acked_star hA hs _ p)

section

omit [Labgob C]

theorem EntriesRel.star {src : Fin n} {args : AppendEntriesArgs n C} (h : EntriesRel A src args) :
    EntriesRel A' src args := by
  obtain ⟨hlead, P, hP, hprev, hterm, hdrop, hle, hcommit⟩ := h
  exact ⟨leader_star hA hs hlead, P, hP.trans (lead_star hA hs _), hprev, hterm, hdrop, hle,
    committedPrefix_star hA hs hcommit⟩

theorem SnapshotRel.star {src : Fin n} {args : InstallSnapshotArgs n} {P : List (LogEntry C)}
    (h : SnapshotRel A src args P) : SnapshotRel A' src args P := by
  obtain ⟨hlead, hP, hlen, hterm, hcommit⟩ := h
  exact ⟨leader_star hA hs hlead, hP.trans (lead_star hA hs _), hlen, hterm,
    committedPrefix_star hA hs hcommit⟩

theorem VoteRel.star {src : Fin n} {args : RequestVoteArgs n} (h : VoteRel A src args) :
    VoteRel A' src args := by
  obtain ⟨hid, hvote, hindex, hterm⟩ := h
  have hlog := voteLog_star hA hs hvote
  exact ⟨hid, vote_star hA hs hvote, by rw [hlog, hindex], by rw [hlog, hterm]⟩

theorem CallRel.star {c : Call n C} (h : CallRel A c) : CallRel A' c := by
  obtain ⟨src, incarnation, dst, rpc⟩ := c
  cases rpc with
  | requestVote args reply =>
      exact ⟨h.1.star hA hs, fun r hr hg => vote_star hA hs (h.2 r hr hg)⟩
  | appendEntries args reply =>
      exact ⟨h.1.star hA hs, fun r hr hg => (h.2 r hr hg).trans (acked_star hA hs _ _)⟩
  | heartbeat args reply => exact EntriesRel.star hA hs h
  | installSnapshot args P reply =>
      exact ⟨h.1.star hA hs, fun r hr hstop hterm =>
        (h.2 r hr hstop hterm).trans (acked_star hA hs _ _)⟩

end

end star

end RaftShardedKv
