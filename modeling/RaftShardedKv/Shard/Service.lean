import RaftShardedKv.Shard.Calls
import RaftShardedKv.Shard.Content

/-!
The sharded key/value service: the groups and their controllers together
with the clerks.

A group executes a request of a clerk at any time after it has been sent,
also after the call has given up on it, and any number of times. A call
that waits is told the result of an execution of the request it waits
for, or `ErrWrongLeader` from a server that cannot tell, or nothing.
`Query` reads the record that is stored at that moment.

What the service is for is one map from keys to values with versions.
-/

namespace RaftShardedKv.Shardkv

open Linearizability

/-! ### One map -/

/-- A versioned map: a value is replaced by who knows its version. -/
def kvSpec : Spec (GoString → Option ValueEntry) KvOp KvRes where
  init _ := none
  apply m
    | .get key => (m, .get (match m key with
        | none => ⟨[], 0, .errNoKey⟩
        | some entry => ⟨entry.value, entry.version, .ok⟩))
    | .put key value version =>
        match m key with
        | none =>
            if version = 0 then (Function.update m key (some ⟨value, 1⟩), .put .ok)
            else (m, .put .errNoKey)
        | some entry =>
            if version = entry.version then
              (Function.update m key (some ⟨value, version + 1⟩), .put .ok)
            else (m, .put .errVersion)

/-! ### The service -/

structure Service (Ctl Ck : Type) where
  shards : ShardSystem Ctl
  clerks : ClerkState Ck
  putExecs : List PutExec
  getExecs : List GetExec

inductive ServiceAction (Ctl Ck : Type)
  /-- A step of the controllers, or a group executes one of their requests. -/
  | controller (a : ShardAction Ctl)
  /-- A step that a clerk makes on its own. -/
  | clerk (a : ClerkAction Ck)
  | query (c : CallID)
  | executeGet (k : ℕ)
  | executePut (k : ℕ)
  /-- A call is told the result of an execution. -/
  | getReply (g i : ℕ)
  | putReply (p i : ℕ)
  /-- A call is told that the server is not the leader. -/
  | refuse (c : CallID)

namespace Service

variable {Ctl Ck : Type} [DecidableEq Ctl] [DecidableEq Ck] (id : Ctl → GoString)
  (clientID : Ck ↪ {id : ℕ // id ≠ 0})

def setGroup (s : Service Ctl Ck) (gid : Tgid) (kv : KVServer) : Service Ctl Ck :=
  { s with shards := { s.shards with groups := Function.update s.shards.groups gid kv } }

def clerkStep (s : Service Ctl Ck) (a : ClerkAction Ck) : Option (Service Ctl Ck) := do
  let clerks ← s.clerks.step clientID a
  some { s with clerks := clerks }

def step (s : Service Ctl Ck) : ServiceAction Ctl Ck → Option (Service Ctl Ck)
  | .controller a =>
      match a with
      | .client .. => none
      | a => do
          let shards ← s.shards.step id a
          some { s with shards := shards }
  | .clerk a =>
      match a with
      | .query .. | .getReply .. | .putReply .. => none
      | a => s.clerkStep clientID a
  | .query c =>
      s.clerkStep clientID (.query c ((readState s.shards.stored).map fun r => r.1.current))
  | .executeGet k => do
      let (g, gid) ← s.clerks.asked[k]?
      let call ← s.clerks.gets[g]?
      match (s.shards.groups gid).doOp (.get ⟨call.key⟩) with
      | some (kv, .get reply) =>
          some { s.setGroup gid kv with getExecs := s.getExecs ++ [⟨k, reply⟩] }
      | _ => none
  | .executePut k => do
      let x ← s.clerks.puts.sent[k]?
      match (s.shards.groups x.dst).doOp (.put x.args) with
      | some (kv, .put reply) =>
          let state := s.shards.groups x.dst (key2Shard x.args.key)
          some { s.setGroup x.dst kv with
            putExecs := s.putExecs ++ [⟨k, x, reply, putRuns state x.args⟩] }
      | _ => none
  | .getReply g i => do
      let exec ← s.getExecs[i]?
      match s.clerks.pc (.get g) with
      | .calling _ k =>
          if exec.rpc = k then s.clerkStep clientID (.getReply g exec.reply) else none
      | _ => none
  | .putReply p i => do
      let exec ← s.putExecs[i]?
      match s.clerks.pc (.put p) with
      | .calling _ k =>
          if exec.rpc = k then s.clerkStep clientID (.putReply p exec.reply) else none
      | _ => none
  | .refuse c =>
      match c with
      | .get g => s.clerkStep clientID (.getReply g ⟨[], 0, .errWrongLeader⟩)
      | .put p => s.clerkStep clientID (.putReply p ⟨.errWrongLeader⟩)

def init : Service Ctl Ck := ⟨.init Ctl, .init, [], []⟩

/-- The runs of call `p` of `Put`, at all groups, with what they return. -/
def runs (s : Service Ctl Ck) (p : ℕ) : List PutReply :=
  s.putExecs.flatMap fun e => if e.request.call = p then e.runs else []

end Service

def ServiceAction.Given {Ctl Ck : Type} (G : Configs) : ServiceAction Ctl Ck → Prop
  | .controller a => a.Given G
  | _ => True

/-- The runs of the service, with controllers and clerks that have these
identities. -/
abbrev serviceSys {Ctl Ck : Type} [DecidableEq Ctl] [DecidableEq Ck] (G : Configs)
    (id : Ctl → GoString) (clientID : Ck ↪ {id : ℕ // id ≠ 0}) :
    Transition.Sys (Service Ctl Ck) (ServiceAction Ctl Ck) :=
  (Transition.Sys.ofStep Service.init (Service.step id clientID)).restrict (ServiceAction.Given G)

end RaftShardedKv.Shardkv
