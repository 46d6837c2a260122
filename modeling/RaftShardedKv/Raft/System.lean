import RaftShardedKv.Raft.Handlers
import RaftShardedKv.Lib.Transition

/-!
A cluster of Raft servers over an unreliable network.

Every step is one critical section of one server, or the loss of a
message. A call is in flight until its reply has been taken in: first as
a request, then, with the answer filled in by the receiver, as a reply.
So a request is executed at most once and answered at most once, as
`labrpc` does it, and calls may be lost, delayed and reordered at will.
A server may stop at any time, also in the middle of a handler that
writes to its storage twice, and starts again from its storage alone;
replies to calls of an earlier incarnation are never taken in.

Beside the servers and the network the state records what has happened,
for the sake of stating it: the entries a server has stood for, with
those that are folded into its snapshot, the commands that `Start` has
accepted, the longest log that a server has known to be committed, the
snapshots that services have handed to their server, and every message
put on an apply channel. Nothing a server does depends on these.
-/

namespace RaftShardedKv

open Consensus (Role)

/-- A running server: the shared variables and what its goroutines hold. -/
structure Proc (n : ℕ) (C : Type) where
  rf : Raft n C
  incarnation : ℕ
  /-- The votes counted in the election of a term. -/
  votes : ℕ → ℕ
  /-- The messages the applier has claimed and not yet sent. -/
  applying : List (ApplyMsg C)
  /-- The index of the last message sent; at first the one restored by `Make`. -/
  consumed : ℕ

/-- A process that has just been made. -/
def Proc.fresh {n : ℕ} {C : Type} (rf : Raft n C) (incarnation : ℕ) : Proc n C where
  rf := rf
  incarnation := incarnation
  votes := fun _ => 0
  applying := []
  consumed := rf.lastIncludedIndex

/-- A remote call, and its reply once there is one. An independent
heartbeat is an `AppendEntries` call whose reply is treated differently.
With a snapshot travels the record of the entries it stands for. -/
inductive Rpc (n : ℕ) (C : Type)
  | requestVote (args : RequestVoteArgs n) (reply : Option RequestVoteReply)
  | appendEntries (args : AppendEntriesArgs n C) (reply : Option AppendEntriesReply)
  | heartbeat (args : AppendEntriesArgs n C) (reply : Option AppendEntriesReply)
  | installSnapshot (args : InstallSnapshotArgs n) (entries : List (LogEntry C))
      (reply : Option InstallSnapshotReply)

/-- The term of a call that has not been answered. -/
def Rpc.requestTerm {n : ℕ} {C : Type} : Rpc n C → Option ℕ
  | .requestVote args none => some args.term
  | .appendEntries args none => some args.term
  | .heartbeat args none => some args.term
  | .installSnapshot args _ none => some args.term
  | _ => none

structure Call (n : ℕ) (C : Type) where
  src : Fin n
  incarnation : ℕ
  dst : Fin n
  rpc : Rpc n C

/-- A snapshot that a service took, with the entries it stands for. -/
structure Taken (C : Type) where
  index : ℕ
  data : Bytes
  entries : List (LogEntry C)
  deriving DecidableEq, Repr

structure System (n : ℕ) (C : Type) where
  procs : Fin n → Proc n C
  net : List (Call n C)
  entries : Fin n → List (LogEntry C)
  /-- Term, index and command of every call of `Start` that was accepted. -/
  started : List (ℕ × ℕ × C)
  /-- The longest log that a server has known to be committed. -/
  committed : List (LogEntry C)
  taken : List (Taken C)
  applied : List (Fin n × ℕ × ApplyMsg C)

inductive Action (n : ℕ) (C : Type)
  | startElection (i : Fin n)
  | start (i : Fin n) (command : C)
  | snapshot (i : Fin n) (index : ℕ) (data : Bytes)
  | replicate (i peer : Fin n)
  | heartbeat (i peer : Fin n)
  | deliver (k : ℕ)
  | drop (k : ℕ)
  | claim (i : Fin n)
  | send (i : Fin n)
  | kill (i : Fin n)
  | restart (i : Fin n)
  | crashDuring (k : ℕ)

/-- The longer of two lists, the first if they are equally long. -/
def longer {α : Type} (l l' : List α) : List α := if l.length < l'.length then l' else l

namespace System

variable {n : ℕ} {C : Type}

def rf (s : System n C) (i : Fin n) : Raft n C := (s.procs i).rf

def setProc (s : System n C) (i : Fin n) (p : Proc n C) : System n C :=
  { s with procs := Function.update s.procs i p }

/-- Server `i` now is `rf`; the entries folded into its snapshot are
those that `base` begins with. -/
def setRfFrom (s : System n C) (i : Fin n) (rf : Raft n C) (base : List (LogEntry C)) :
    System n C :=
  let log := base.take rf.lastIncludedIndex ++ rf.logs.tail
  { s with
    procs := Function.update s.procs i { s.procs i with rf := rf }
    entries := Function.update s.entries i log
    committed := longer s.committed (log.take rf.commitIndex) }

def setRf (s : System n C) (i : Fin n) (rf : Raft n C) : System n C :=
  s.setRfFrom i rf (s.entries i)

def setVotes (s : System n C) (i : Fin n) (term votes : ℕ) : System n C :=
  s.setProc i { s.procs i with votes := Function.update (s.procs i).votes term votes }

/-- Server `i` calls `dst`. -/
def call (s : System n C) (i dst : Fin n) (rpc : Rpc n C) : System n C :=
  { s with net := s.net ++ [⟨i, (s.procs i).incarnation, dst, rpc⟩] }

/-- Server `i` calls every other server. -/
def callAll (s : System n C) (i : Fin n) (rpc : Rpc n C) : System n C :=
  { s with
    net := s.net ++ ((List.finRange n).filter fun dst => dst ≠ i).map fun dst =>
      ⟨i, (s.procs i).incarnation, dst, rpc⟩ }

/-- The receiver of call `k` fills in the reply. -/
def answer (s : System n C) (k : ℕ) (c : Call n C) (rpc : Rpc n C) : System n C :=
  { s with net := s.net.set k { c with rpc := rpc } }

/-- Call `k` is over. -/
def close (s : System n C) (k : ℕ) : System n C :=
  { s with net := s.net.eraseIdx k }

variable [Labgob C]

/-- The process of server `i` is replaced by a new one. -/
def reboot (s : System n C) (i : Fin n) : Option (System n C) := do
  let rf ← Raft.make i (s.rf i).persister
  some ((s.setRf i rf).setProc i (.fresh rf ((s.procs i).incarnation + 1)))

/-- Call `k` reaches its receiver, or its reply the caller. -/
def deliver (s : System n C) (k : ℕ) (c : Call n C) : Option (System n C) :=
  match c.rpc with
  | .requestVote args none => do
      let (rf, reply) ← (s.rf c.dst).requestVote args
      some ((s.setRf c.dst rf).answer k c (.requestVote args (some reply)))
  | .appendEntries args none => do
      let (rf, reply) ← (s.rf c.dst).appendEntries args
      some ((s.setRf c.dst rf).answer k c (.appendEntries args (some reply)))
  | .heartbeat args none => do
      let (rf, reply) ← (s.rf c.dst).appendEntries args
      some ((s.setRf c.dst rf).answer k c (.heartbeat args (some reply)))
  | .installSnapshot args entries none => do
      let (rf, reply) ← (s.rf c.dst).installSnapshot args
      let base := if rf.lastIncludedIndex = (s.rf c.dst).lastIncludedIndex
        then s.entries c.dst else entries
      some ((s.setRfFrom c.dst rf base).answer k c (.installSnapshot args entries (some reply)))
  | .requestVote args (some reply) => do
      let (rf, votes) ←
        (s.rf c.src).requestVoteReply args.term ((s.procs c.src).votes args.term) reply
      some (((s.setRf c.src rf).setVotes c.src args.term votes).close k)
  | .appendEntries args (some reply) => do
      let rf ← (s.rf c.src).appendEntriesReply c.dst args reply
      some ((s.setRf c.src rf).close k)
  | .heartbeat _ (some reply) => do
      let rf ← (s.rf c.src).heartbeatReply reply
      some ((s.setRf c.src rf).close k)
  | .installSnapshot args _ (some reply) => do
      let rf ← (s.rf c.src).installSnapshotReply c.dst args reply
      some ((s.setRf c.src rf).close k)

/-- One step; `none` if the action is not possible in this state. -/
def step (s : System n C) : Action n C → Option (System n C)
  | .startElection i =>
      if (s.rf i).dead ∨ (s.rf i).state = .leader then none
      else do
        let (rf, args) ← (s.rf i).startElection
        let s := (s.setRf i rf).setVotes i rf.currentTerm 1
        match args with
        | none => some s
        | some args => some (s.callAll i (.requestVote args none))
  | .start i command => do
      let (rf, index, term, _) ← (s.rf i).start command
      let s := s.setRf i rf
      match index with
      | none => some s
      | some index => some { s with started := (term, index, command) :: s.started }
  | .snapshot i index data => do
      let rf ← (s.rf i).takeSnapshot index data
      let s' := s.setRf i rf
      if rf.lastIncludedIndex = (s.rf i).lastIncludedIndex then some s'
      else some { s' with taken := ⟨index, data, (s.entries i).take index⟩ :: s'.taken }
  | .replicate i peer =>
      if peer = i then none
      else do
        match ← (s.rf i).replicationRequest peer with
        | none => none
        | some (.appendEntries args) => some (s.call i peer (.appendEntries args none))
        | some (.installSnapshot args) => some (s.call i peer (.installSnapshot args
            ((s.entries i).take args.lastIncludedIndex) none))
  | .heartbeat i peer =>
      if peer = i then none
      else do
        let args ← (← (s.rf i).heartbeatRequest)
        some (s.call i peer (.heartbeat args none))
  | .deliver k => do
      let c ← s.net[k]?
      if c.rpc.requestTerm = none ∧ c.incarnation ≠ (s.procs c.src).incarnation then none
      else s.deliver k c
  | .drop k => if k < s.net.length then some (s.close k) else none
  | .claim i =>
      if (s.rf i).applierReady ∧ (s.procs i).applying = [] then do
        let (rf, messages) ← (s.rf i).applierClaim
        some ((s.setRf i rf).setProc i { s.procs i with rf := rf, applying := messages })
      else none
  | .send i =>
      match (s.procs i).applying with
      | [] => none
      | message :: rest =>
          some { s.setProc i { s.procs i with applying := rest, consumed := message.index } with
            applied := s.applied ++ [(i, (s.procs i).incarnation, message)] }
  | .kill i => some (s.setRf i (s.rf i).kill)
  | .restart i => s.reboot i
  | .crashDuring k => do
      let c ← s.net[k]?
      let term ← c.rpc.requestTerm
      if (s.rf c.dst).dead ∨ term < (s.rf c.dst).currentTerm then none
      else do
        let rf ← (s.rf c.dst).becomeFollowerLocked term
        ((s.setRf c.dst rf).close k).reboot c.dst

/-- Every server just made with an empty storage, and no history. -/
def init (n : ℕ) (C : Type) [Labgob C] : System n C where
  procs i := .fresh (Raft.initial i ⟨none, []⟩) 0
  net := []
  entries _ := []
  started := []
  committed := []
  taken := []
  applied := []

end System

/-- The runs of the cluster. -/
abbrev raftSys (n : ℕ) (C : Type) [Labgob C] : Transition.Sys (System n C) (Action n C) :=
  Transition.Sys.ofStep (System.init n C) System.step

end RaftShardedKv
