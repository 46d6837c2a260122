import RaftShardedKv.Raft.Delivery

/-!
A replicated state machine on top of Raft, from `kvraft1/rsm/rsm.go`: the
applier of each server, the calls of `SubmitWithTimeout`, and a cluster
of both.

An operation carries the server, the epoch and the sequence number of the
call that submitted it; the epoch is drawn anew at every start of a
server. The applier takes one message at a time from its server, executes
it, may hand a snapshot back, and wakes the call that waits for the
operation, each as a step of its own. A call goes on when its server has
been restarted: its channel is still there, but nobody will write to it
any more.
-/

namespace RaftShardedKv

structure OpID (n : ℕ) where
  server : Fin n
  epoch : ℕ
  sequence : ℕ
  deriving DecidableEq, Repr

structure Op (n : ℕ) (Req : Type) where
  server : Fin n
  epoch : ℕ
  sequence : ℕ
  req : Req
  deriving DecidableEq, Repr

def Op.id {n : ℕ} {Req : Type} (op : Op n Req) : OpID n := ⟨op.server, op.epoch, op.sequence⟩

/-- The interface `StateMachine`, with the state in the open. -/
structure StateMachine (σ Req Rep : Type) where
  initial : σ
  doOp : σ → Req → σ × Rep
  snapshot : σ → Bytes
  restore : σ → Bytes → σ

inductive Outcome (Rep : Type)
  | ok (reply : Rep)
  | errWrongLeader
  deriving DecidableEq, Repr

/-- Where a call of `SubmitWithTimeout` is. -/
inductive Phase (Rep : Type)
  | registered
  | waiting (term : ℕ)
  | finished (outcome : Outcome Rep)
  | returned (outcome : Outcome Rep)
  deriving DecidableEq, Repr

structure Submission (Req Rep : Type) where
  req : Req
  /-- Whether the call has a deadline. -/
  timeout : Bool
  phase : Phase Rep
  /-- Whether `waiters` has the channel. -/
  waits : Bool
  /-- What the channel holds. -/
  waiter : Option Rep
  deriving DecidableEq, Repr

/-- Where the applier is: it has received a message, or executed one and
may take a snapshot, or is about to wake the call. -/
inductive Applier (n : ℕ) (Req Rep : Type)
  | idle
  | received (message : ApplyMsg (Op n Req))
  | executed (index : ℕ) (id : OpID n) (reply : Rep)
  | notifying (id : OpID n) (reply : Rep)
  deriving DecidableEq, Repr

structure Rsm (n : ℕ) (σ Req Rep : Type) where
  epoch : ℕ
  nextSequence : ℕ
  state : σ
  /-- The index of the last message executed; at first the one restored. -/
  applied : ℕ
  applier : Applier n Req Rep

/-- Servers with their state machines, and the calls of all times. -/
structure RsmSystem (n : ℕ) (σ Req Rep : Type) where
  raft : System n (Op n Req)
  rsms : Fin n → Rsm n σ Req Rep
  submissions : OpID n → Option (Submission Req Rep)
  /-- The epochs that have been drawn. -/
  epochs : List (Fin n × ℕ)

/-- Why a call gives up. -/
inductive GiveUp
  | deadline
  | leadership
  | stopped
  deriving DecidableEq, Repr

inductive RsmAction (n : ℕ) (Req : Type)
  | raft (a : Action n (Op n Req))
  | restart (i : Fin n) (epoch : ℕ)
  | crashDuring (k : ℕ) (epoch : ℕ)
  | receive (i : Fin n)
  | execute (i : Fin n)
  | compact (i : Fin n) (shouldSnapshot : Bool)
  | notify (i : Fin n)
  | submit (i : Fin n) (req : Req) (timeout : Bool)
  | start (id : OpID n)
  | result (id : OpID n)
  | giveUp (id : OpID n) (reason : GiveUp)
  | removeWaiter (id : OpID n)

/-- The steps a server takes without its service. -/
def Action.internal {n : ℕ} {C : Type} : Action n C → Bool
  | .start .. | .snapshot .. | .send .. | .restart .. | .crashDuring .. => false
  | _ => true

variable {n : ℕ} {σ Req Rep : Type}

/-- `MakeRSM` on a storage with this snapshot; the server will deliver
what comes after `index`. -/
def Rsm.make (sm : StateMachine σ Req Rep) (epoch : ℕ) (snapshot : Bytes) (index : ℕ) :
    Rsm n σ Req Rep where
  epoch := epoch
  nextSequence := 0
  state := if 0 < snapshot.length then sm.restore sm.initial snapshot else sm.initial
  applied := index
  applier := .idle

/-- One message of the applier; `none` is the panic on a command that is
not an operation, and an applier that holds no message. -/
def Rsm.execute (sm : StateMachine σ Req Rep) (rsm : Rsm n σ Req Rep) :
    Option (Rsm n σ Req Rep) :=
  match rsm.applier with
  | .received (.snapshot m) => some { rsm with
      state := if 0 < m.snapshot.length then sm.restore rsm.state m.snapshot else rsm.state
      applied := m.snapshotIndex
      applier := .idle }
  | .received (.command (some op) index) =>
      let (state, reply) := sm.doOp rsm.state op.req
      some { rsm with
        state := state
        applied := index
        applier := .executed index op.id reply }
  | _ => none

namespace RsmSystem

def setRsm (s : RsmSystem n σ Req Rep) (i : Fin n) (rsm : Rsm n σ Req Rep) :
    RsmSystem n σ Req Rep :=
  { s with rsms := Function.update s.rsms i rsm }

def setSubmission (s : RsmSystem n σ Req Rep) (id : OpID n) (sub : Submission Req Rep) :
    RsmSystem n σ Req Rep :=
  { s with submissions := Function.update s.submissions id (some sub) }

variable [Labgob (Op n Req)] (sm : StateMachine σ Req Rep)

/-- Server `i` has been started again, which left `raft`; the epoch is
one that the server has not had before. -/
def restarted (s : RsmSystem n σ Req Rep) (i : Fin n) (epoch : ℕ) (raft : System n (Op n Req)) :
    Option (RsmSystem n σ Req Rep) :=
  if (i, epoch) ∈ s.epochs then none
  else some { s with
    raft := raft
    rsms := Function.update s.rsms i
      (.make sm epoch (raft.rf i).persister.snapshot (raft.procs i).consumed)
    epochs := (i, epoch) :: s.epochs }

/-- The server that a call was made to is gone or has stopped. -/
def stopped (s : RsmSystem n σ Req Rep) (id : OpID n) : Bool :=
  decide ((s.rsms id.server).epoch ≠ id.epoch) || (s.raft.rf id.server).dead

/-- Why call `id` may give up now. A deadline and a change of leadership
give way to a result that is there already. -/
def mayGiveUp (s : RsmSystem n σ Req Rep) (id : OpID n) (sub : Submission Req Rep) (term : ℕ) :
    GiveUp → Bool
  | .deadline => sub.timeout && sub.waiter.isNone
  | .leadership => sub.waiter.isNone && (s.stopped id ||
      decide ((s.raft.rf id.server).getState ≠ (term, true)))
  | .stopped => s.stopped id

def step (s : RsmSystem n σ Req Rep) : RsmAction n Req → Option (RsmSystem n σ Req Rep)
  | .raft a => do
      let raft ← (if a.internal then s.raft.step a else none)
      some { s with raft := raft }
  | .restart i epoch => do
      let raft ← s.raft.step (.restart i)
      s.restarted sm i epoch raft
  | .crashDuring k epoch => do
      let c ← s.raft.net[k]?
      let raft ← s.raft.step (.crashDuring k)
      s.restarted sm c.dst epoch raft
  | .receive i =>
      match (s.rsms i).applier with
      | .idle => do
          let message ← (s.raft.procs i).applying.head?
          let raft ← s.raft.step (.send i)
          some { s.setRsm i { s.rsms i with applier := .received message } with raft := raft }
      | _ => none
  | .execute i => do
      let rsm ← (s.rsms i).execute sm
      some (s.setRsm i rsm)
  | .compact i shouldSnapshot =>
      match (s.rsms i).applier with
      | .executed index id reply => do
          let raft ← (if shouldSnapshot then
              s.raft.step (.snapshot i index (sm.snapshot (s.rsms i).state))
            else some s.raft)
          some { s.setRsm i { s.rsms i with applier := .notifying id reply } with raft := raft }
      | _ => none
  | .notify i =>
      match (s.rsms i).applier with
      | .notifying id reply =>
          let s' := s.setRsm i { s.rsms i with applier := .idle }
          -- the waiters of a server are the calls it has taken in this epoch
          if id.server = i ∧ id.epoch = (s.rsms i).epoch then
            match s.submissions id with
            | some sub =>
                if sub.waits && sub.waiter.isNone then
                  some (s'.setSubmission id { sub with waiter := some reply })
                else some s'
            | none => some s'
          else some s'
      | _ => none
  | .submit i req timeout =>
      let sequence := (s.rsms i).nextSequence + 1
      let s' := s.setRsm i { s.rsms i with nextSequence := sequence }
      some (s'.setSubmission ⟨i, (s.rsms i).epoch, sequence⟩
        ⟨req, timeout, .registered, true, none⟩)
  | .start id => do
      let sub ← s.submissions id
      match sub.phase with
      | .registered =>
          -- the server of an earlier epoch has been killed
          if (s.rsms id.server).epoch ≠ id.epoch then
            some (s.setSubmission id { sub with phase := .finished .errWrongLeader })
          else do
            let op : Op n Req := ⟨id.server, id.epoch, id.sequence, sub.req⟩
            let (_, _, term, isLeader) ← (s.raft.rf id.server).start op
            let raft ← s.raft.step (.start id.server op)
            let phase := if isLeader then .waiting term else .finished .errWrongLeader
            some { s.setSubmission id { sub with phase := phase } with raft := raft }
      | _ => none
  | .result id => do
      let sub ← s.submissions id
      match sub.phase, sub.waiter with
      | .waiting _, some reply =>
          some (s.setSubmission id { sub with phase := .finished (.ok reply) })
      | _, _ => none
  | .giveUp id reason => do
      let sub ← s.submissions id
      match sub.phase with
      | .waiting term =>
          if s.mayGiveUp id sub term reason then
            some (s.setSubmission id { sub with phase := .finished .errWrongLeader })
          else none
      | _ => none
  | .removeWaiter id => do
      let sub ← s.submissions id
      match sub.phase with
      | .finished outcome =>
          some (s.setSubmission id { sub with phase := .returned outcome, waits := false })
      | _ => none

/-- Every server started for the first time, with the epochs given. -/
def init (epoch : Fin n → ℕ) : RsmSystem n σ Req Rep where
  raft := System.init n (Op n Req)
  rsms i := .make sm (epoch i) [] 0
  submissions _ := none
  epochs := (List.finRange n).map fun i => (i, epoch i)

end RsmSystem

/-- The runs of the replicated state machine. -/
abbrev rsmSys [Labgob (Op n Req)] (sm : StateMachine σ Req Rep) (epoch : Fin n → ℕ) :
    Transition.Sys (RsmSystem n σ Req Rep) (RsmAction n Req) :=
  Transition.Sys.ofStep (RsmSystem.init sm epoch) (RsmSystem.step sm)

end RaftShardedKv
