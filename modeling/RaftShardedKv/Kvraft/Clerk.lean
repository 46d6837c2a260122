import RaftShardedKv.Kvraft.ExactlyOnce
import RaftShardedKv.Shard.Service

/-!
The clerks of the replicated key/value service, from
`kvraft1/client.go`, over the service of `Kvraft.System`.

A clerk remembers which server has answered last and asks it first; a
server that does not answer, or is not the leader, makes it go on to the
next one, unless another call of the clerk has done so already. How long
a call sleeps after a whole round is left open, but the rounds are
counted.
-/

namespace RaftShardedKv.Kvraft

open Dedup Linearizability Shardkv

/-- Where a call of `Clerk.Get` is. -/
inductive GetPhase
  /-- At the head of its loop. -/
  | loop
  /-- Waiting for the reply to a request. -/
  | calling (k : ℕ)
  | returned
  deriving DecidableEq, Repr

/-- The variables of the loops of `Get` and `Put`. -/
structure Attempt where
  /-- The place in `servers` of the one that is asked. -/
  server : ℕ
  failedAttempts : ℕ
  deriving DecidableEq, Repr

structure KvService (n : ℕ) (Ck : Type) where
  kv : KvSystem n Ck
  leader : Ck → ℕ
  gets : List (GetCall Ck)
  /-- The requests of `Get`, each with its call and its server. -/
  asked : List (ℕ × Fin n)
  phase : ℕ → GetPhase
  /-- The request that a submission of the handler of `Get` was made for. -/
  handlers : OpID n → Option ℕ
  attempt : CallID → Attempt
  history : List (Event CallID KvOp KvRes)

inductive KvServiceAction (n : ℕ) (Ck : Type)
  | rsm (a : RsmAction n Request)
  | get (ck : Ck) (key : GoString)
  | put (ck : Ck) (key value : GoString) (version : Tversion)
  /-- `args.Ack` of a call of `Put` is set. -/
  | ack (p : ℕ)
  | send (c : CallID)
  /-- A request reaches its server. -/
  | handleGet (k : ℕ)
  | handlePut (k : ℕ)
  /-- `Call` returns true, with the reply that this submission has led to. -/
  | reply (c : CallID) (id : OpID n)
  /-- `Call` returns false. -/
  | fail (c : CallID)
  | complete (p : ℕ)

/-- The reply of the handler of `Get`; `none` is the panic on a result of
the wrong type. -/
def getReply : Outcome Reply → Option GetReply
  | .ok (.get reply) => some reply
  | .ok (.put _) => none
  | .errWrongLeader => some ⟨[], 0, .errWrongLeader⟩

variable {n : ℕ} {Ck : Type}

namespace KvService

def clerkOf (s : KvService n Ck) : CallID → Option Ck
  | .get g => s.gets[g]?.map GetCall.clerk
  | .put p => s.kv.clerks.calls[p]?.map PutCall.clerk

def setAttempt (s : KvService n Ck) (c : CallID) (attempt : Attempt) : KvService n Ck :=
  { s with attempt := Function.update s.attempt c attempt }

def setPhase (s : KvService n Ck) (g : ℕ) (phase : GetPhase) : KvService n Ck :=
  { s with phase := Function.update s.phase g phase }

/-- What the submission of a handler has returned. -/
def outcome (s : KvService n Ck) (id : OpID n) : Option (Outcome Reply) := do
  let sub ← s.kv.rsm.submissions id
  match sub.phase with
  | .returned outcome => some outcome
  | _ => none

variable [DecidableEq Ck]

def rememberLeader (s : KvService n Ck) (ck : Ck) (server : ℕ) : KvService n Ck :=
  { s with leader := Function.update s.leader ck server }

variable (servers : Ck → List (Fin n))

def advanceLeader (s : KvService n Ck) (ck : Ck) (failedServer : ℕ) : KvService n Ck :=
  if s.leader ck = failedServer then
    s.rememberLeader ck ((failedServer + 1) % (servers ck).length)
  else s

def retryAfterFailure (s : KvService n Ck) (c : CallID) (ck : Ck) : KvService n Ck :=
  let attempt := s.attempt c
  let failedAttempts :=
    if (servers ck).length ≤ attempt.failedAttempts + 1 then 0 else attempt.failedAttempts + 1
  (s.advanceLeader servers ck attempt.server).setAttempt c
    { attempt with failedAttempts := failedAttempts }

variable [Gob] [Labgob (Op n Request)] (clientID : Ck ↪ {id : ℕ // id ≠ 0})

def step (s : KvService n Ck) : KvServiceAction n Ck → Option (KvService n Ck)
  | .rsm a => do
      let kv ← s.kv.step clientID (.rsm a)
      some { s with kv := kv }
  | .get ck key =>
      some { s with
        gets := s.gets ++ [⟨ck, key⟩]
        history := s.history ++ [.invoke (.get s.gets.length) (.get key)] }
  | .put ck key value version => do
      let kv ← s.kv.step clientID (.begin ck key value version)
      some { s with
        kv := kv
        history := s.history ++
          [.invoke (.put s.kv.clerks.calls.length) (.put key value version)] }
  | .ack p => do
      let kv ← s.kv.step clientID (.ack p)
      some { s with kv := kv }
  | .send c => do
      let ck ← s.clerkOf c
      -- a leader out of range is a panic
      let i ← (servers ck)[s.leader ck]?
      let s := s.setAttempt c { s.attempt c with server := s.leader ck }
      match c with
      | .get g =>
          match s.phase g with
          | .loop =>
              some { s.setPhase g (.calling s.asked.length) with asked := s.asked ++ [(g, i)] }
          | _ => none
      | .put p => do
          let kv ← s.kv.step clientID (.send p i)
          some { s with kv := kv }
  | .handleGet k => do
      let (g, i) ← s.asked[k]?
      let call ← s.gets[g]?
      let (kv, id) ← s.kv.submit i (.get ⟨call.key⟩)
      some { s with kv := kv, handlers := Function.update s.handlers id (some k) }
  | .handlePut k => do
      let kv ← s.kv.step clientID (.handle k)
      some { s with kv := kv }
  | .reply c id => do
      let ck ← s.clerkOf c
      match c with
      | .get g =>
          match s.phase g, s.handlers id with
          | .calling k, some k' =>
              if k = k' then do
                let outcome ← s.outcome id
                let reply ← getReply outcome
                match reply.err with
                | .ok | .errNoKey =>
                    some { (s.setPhase g .returned).rememberLeader ck (s.attempt c).server with
                      history := s.history ++ [.ret c (.get reply)] }
                | _ => some ((s.setPhase g .loop).retryAfterFailure servers c ck)
              else none
          | _, _ => none
      | .put p => do
          let kv ← s.kv.step clientID (.reply p id)
          match kv.phase p with
          | .loop => some ({ s with kv := kv }.retryAfterFailure servers c ck)
          | .returning _ => some ({ s with kv := kv }.rememberLeader ck (s.attempt c).server)
          | _ => some { s with kv := kv }
  | .fail c => do
      let ck ← s.clerkOf c
      match c with
      | .get g =>
          match s.phase g with
          | .calling _ => some ((s.setPhase g .loop).retryAfterFailure servers c ck)
          | _ => none
      | .put p => do
          let kv ← s.kv.step clientID (.fail p)
          some ({ s with kv := kv }.retryAfterFailure servers c ck)
  | .complete p =>
      match s.kv.phase p with
      | .returning err => do
          let kv ← s.kv.step clientID (.complete p)
          some { s with kv := kv, history := s.history ++ [.ret (.put p) (.put err)] }
      | _ => none

def init (epoch : Fin n → ℕ) : KvService n Ck where
  kv := .init epoch
  leader _ := 0
  gets := []
  asked := []
  phase _ := .loop
  handlers _ := none
  attempt _ := ⟨0, 0⟩
  history := []

end KvService

/-- The runs of the service with its clerks, each with its list of
servers. -/
abbrev kvServiceSys [Gob] [Labgob (Op n Request)] [DecidableEq Ck] (servers : Ck → List (Fin n))
    (clientID : Ck ↪ {id : ℕ // id ≠ 0}) (epoch : Fin n → ℕ) :
    Transition.Sys (KvService n Ck) (KvServiceAction n Ck) :=
  Transition.Sys.ofStep (KvService.init epoch) (KvService.step servers clientID)

end RaftShardedKv.Kvraft
