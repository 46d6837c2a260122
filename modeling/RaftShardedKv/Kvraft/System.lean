import RaftShardedKv.Kvraft.Server

/-!
The replicated key/value service with its clerks, from
`kvraft1/client.go` and the handlers of `kvraft1/server.go`.

A clerk asks one server after the other; which one is left open, and so
is how long it sleeps. A request may be handled at any time after it has
been sent, also after its call has returned, and more than once; every
handling is a call of `SubmitWithTimeout`. A server may be killed and
started again at any time, and of the rest of the service nothing is left
out that `Rsm.System` has.
-/

namespace RaftShardedKv.Kvraft

open Dedup

/-- Where a call of `Clerk.Put` is. -/
inductive PutPhase
  /-- At the head of its loop. -/
  | loop
  /-- `args.Ack` has been set. -/
  | ready
  /-- Waiting for the reply to a request. -/
  | calling (k : ℕ)
  /-- About to return, with `Complete` to come. -/
  | returning (err : Err)
  | returned (err : Err)
  | panicked
  deriving DecidableEq, Repr

structure KvSystem (n : ℕ) (Ck : Type) where
  rsm : RsmSystem n KVServer Request Reply
  clerks : Clerks Ck (Fin n)
  phase : ℕ → PutPhase
  /-- The submissions that the handlers of a request have made. -/
  handlers : ℕ → List (OpID n)

inductive KvAction (n : ℕ) (Ck : Type)
  /-- A step of the replicated state machine other than a submission. -/
  | rsm (a : RsmAction n Request)
  /-- The handler of `Get`. -/
  | get (i : Fin n) (args : GetArgs)
  | begin (ck : Ck) (key value : GoString) (version : Tversion)
  | ack (p : ℕ)
  | send (p : ℕ) (i : Fin n)
  /-- The handler of `Put`. -/
  | handle (k : ℕ)
  /-- `Call` returns true, with the reply that this submission has led to. -/
  | reply (p : ℕ) (id : OpID n)
  /-- `Call` returns false. -/
  | fail (p : ℕ)
  | complete (p : ℕ)

/-- What a call does next when `Call` has returned true. -/
def PutPhase.answered : Err → PutPhase
  | .ok => .returning .ok
  | .errNoKey => .returning .errNoKey
  | .errVersion => .returning .errVersion
  | .errStaleRequest => .panicked
  | _ => .loop

/-- The reply of the handler of `Put` to what `SubmitWithTimeout` has
returned; `none` is the panic on a result of the wrong type. -/
def putReply : Outcome Reply → Option Err
  | .ok (.put reply) => some reply.err
  | .ok (.get _) => none
  | .errWrongLeader => some .errWrongLeader

variable {n : ℕ} {Ck : Type}

namespace KvSystem

variable [Gob] [Labgob (Op n Request)] [DecidableEq Ck] (clientID : Ck ↪ {id : ℕ // id ≠ 0})

/-- `SubmitWithTimeout` is called at server `i`. -/
def submit (s : KvSystem n Ck) (i : Fin n) (req : Request) : Option (KvSystem n Ck × OpID n) := do
  let rsm ← s.rsm.step machine (.submit i req true)
  some ({ s with rsm := rsm }, ⟨i, (s.rsm.rsms i).epoch, (s.rsm.rsms i).nextSequence + 1⟩)

def step (s : KvSystem n Ck) : KvAction n Ck → Option (KvSystem n Ck)
  | .rsm a => do
      let rsm ← (match a with
        | .submit .. => none
        | _ => s.rsm.step machine a)
      some { s with rsm := rsm }
  | .get i args => do
      let (s, _) ← s.submit i (.get args)
      some s
  | .begin ck key value version => do
      let clerks ← s.clerks.begin clientID ck key value version
      some { s with clerks := clerks }
  | .ack p =>
      match s.phase p with
      | .loop => do
          let clerks ← s.clerks.ack p
          some { s with clerks := clerks, phase := Function.update s.phase p .ready }
      | _ => none
  | .send p i =>
      match s.phase p with
      | .ready => do
          let clerks ← s.clerks.send p i
          some { s with
            clerks := clerks
            phase := Function.update s.phase p (.calling s.clerks.sent.length) }
      | _ => none
  | .handle k => do
      let x ← s.clerks.sent[k]?
      let (s, id) ← s.submit x.dst (.put x.args)
      some { s with handlers := Function.update s.handlers k (id :: s.handlers k) }
  | .reply p id =>
      match s.phase p with
      | .calling k => do
          let sub ← (if id ∈ s.handlers k then s.rsm.submissions id else none)
          match sub.phase with
          | .returned outcome => do
              let err ← putReply outcome
              some { s with phase := Function.update s.phase p (.answered err) }
          | _ => none
      | _ => none
  | .fail p =>
      match s.phase p with
      | .calling _ => some { s with phase := Function.update s.phase p .loop }
      | _ => none
  | .complete p =>
      match s.phase p with
      | .returning err => do
          let clerks ← s.clerks.complete p
          some { s with clerks := clerks, phase := Function.update s.phase p (.returned err) }
      | _ => none

def init (epoch : Fin n → ℕ) : KvSystem n Ck where
  rsm := RsmSystem.init machine epoch
  clerks := .init
  phase _ := .loop
  handlers _ := []

end KvSystem

/-- The runs of the service, with clerks that have these identities. -/
abbrev kvSys [Gob] [Labgob (Op n Request)] [DecidableEq Ck] (clientID : Ck ↪ {id : ℕ // id ≠ 0})
    (epoch : Fin n → ℕ) : Transition.Sys (KvSystem n Ck) (KvAction n Ck) :=
  Transition.Sys.ofStep (KvSystem.init epoch) (KvSystem.step clientID)

end RaftShardedKv.Kvraft
