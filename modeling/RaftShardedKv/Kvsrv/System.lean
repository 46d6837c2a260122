import RaftShardedKv.Kv.Dedup
import RaftShardedKv.Lib.Pool
import RaftShardedKv.Lib.Transition

/-!
The single key/value server and its clerks, from `kvsrv1/server.go` and
`kvsrv1/client.go`.

A call of a clerk makes one attempt after the other. An attempt is a
request on the network; it may be executed once, at any time, also after
the clerk has given it up, and its reply may be lost. So the attempts of
all times are kept, each with the reply once it has been executed, and a
call knows the attempt it waits for.

Versions are natural numbers: that a late request does no harm rests on a
version never coming back, and 64 bits are taken to be enough for that.
-/

namespace RaftShardedKv.Kvsrv

structure Entry where
  value : GoString
  version : ℕ
  deriving DecidableEq, Repr

/-- `Tversion` is a natural number in these two. -/
structure GetReply where
  value : GoString
  version : ℕ
  err : Err
  deriving DecidableEq, Repr

inductive Request
  | get (key : GoString)
  | put (key value : GoString) (version : ℕ)
  deriving DecidableEq, Repr

inductive Reply
  | get (reply : GetReply)
  | put (err : Err)
  deriving DecidableEq, Repr

/-! ### The server -/

structure KVServer where
  data : GoString → Option Entry

namespace KVServer

def make : KVServer := ⟨fun _ => none⟩

def get (kv : KVServer) (key : GoString) : GetReply :=
  match kv.data key with
  | none => ⟨[], 0, .errNoKey⟩
  | some item => ⟨item.value, item.version, .ok⟩

def set (kv : KVServer) (key : GoString) (item : Entry) : KVServer :=
  ⟨Function.update kv.data key (some item)⟩

def put (kv : KVServer) (key value : GoString) (version : ℕ) : KVServer × Err :=
  match kv.data key with
  | none => if version = 0 then (kv.set key ⟨value, 1⟩, .ok) else (kv, .errNoKey)
  | some item =>
      if item.version ≠ version then (kv, .errVersion)
      else (kv.set key ⟨value, item.version + 1⟩, .ok)

def handle (kv : KVServer) : Request → KVServer × Reply
  | .get key => (kv, .get (kv.get key))
  | .put key value version => ((kv.put key value version).1, .put (kv.put key value version).2)

end KVServer

/-! ### A call of a clerk -/

structure Call where
  request : Request
  resent : Bool
  /-- The attempt it waits for. -/
  waiting : Option ℕ
  /-- What it has returned. -/
  result : Option Reply
  deriving DecidableEq, Repr

namespace Call

def start (request : Request) : Call := ⟨request, false, none, none⟩

def returned (call : Call) (result : Reply) : Call :=
  { call with waiting := none, result := some result }

/-- `Call` has returned false, or an error that is none of the expected. -/
def retry (call : Call) : Call := { call with waiting := none, resent := true }

/-- `Call` has returned true, with this reply. -/
def answered (call : Call) : Reply → Call
  | .get reply =>
      match reply.err with
      | .ok => call.returned (.get ⟨reply.value, reply.version, .ok⟩)
      | .errNoKey => call.returned (.get ⟨[], 0, .errNoKey⟩)
      | _ => call.retry
  | .put err =>
      match err with
      | .ok => call.returned (.put .ok)
      | .errNoKey => call.returned (.put .errNoKey)
      | .errVersion => call.returned (.put (if call.resent then .errMaybe else .errVersion))
      | _ => call.retry

end Call

/-! ### The system -/

structure Attempt where
  call : ℕ
  request : Request
  reply : Option Reply
  deriving DecidableEq, Repr

structure System where
  server : KVServer
  calls : List Call
  attempts : List Attempt

inductive Action
  /-- Somebody calls `Get` or `Put` of a clerk. -/
  | invoke (request : Request)
  | send (c : ℕ)
  | execute (k : ℕ)
  | reply (c : ℕ)
  | fail (c : ℕ)

namespace System

def init : System := ⟨.make, [], []⟩

def step (s : System) : Action → Option System
  | .invoke request => some { s with calls := s.calls ++ [.start request] }
  | .send c => do
      let call ← s.calls[c]?
      if call.result = none ∧ call.waiting = none then
        some { s with
          calls := s.calls.set c { call with waiting := some s.attempts.length }
          attempts := s.attempts ++ [⟨c, call.request, none⟩] }
      else none
  | .execute k => do
      let attempt ← s.attempts[k]?
      if attempt.reply = none then
        let (server, reply) := s.server.handle attempt.request
        some { s with
          server := server
          attempts := s.attempts.set k { attempt with reply := some reply } }
      else none
  | .reply c => do
      let call ← s.calls[c]?
      let attempt ← s.attempts[← call.waiting]?
      let reply ← attempt.reply
      some { s with calls := s.calls.set c (call.answered reply) }
  | .fail c => do
      let call ← s.calls[c]?
      let _ ← call.waiting
      some { s with calls := s.calls.set c call.retry }

end System

end RaftShardedKv.Kvsrv
