import RaftShardedKv.Kv.Runs
import RaftShardedKv.Lib.Linearizability
import RaftShardedKv.Shard.Group

/-!
The clerks of the sharded service, from `shardkv1/client.go` and the
loops of `Get` and `PutRequest` in `shardkv1/shardgrp/client.go`.

A call loads a configuration, sends its request to the servers of the
group that has the shard, one after the other, and starts again with a
new configuration when the group does not have the shard or cannot be
reached. Which server is taken for the leader is left open, and so is how
long a call sleeps. What `Query` returns and what the groups reply comes
from outside.
-/

namespace RaftShardedKv.Shardkv

open Dedup Linearizability

/-! ### Calls -/

inductive KvOp
  | get (key : GoString)
  | put (key value : GoString) (version : Tversion)
  deriving DecidableEq, Repr

inductive KvRes
  | get (reply : GetReply)
  | put (err : Err)
  deriving DecidableEq, Repr

/-- The calls of `Get` and those of `Put`, in the order in which they were
made. -/
inductive CallID
  | get (g : ℕ)
  | put (p : ℕ)
  deriving DecidableEq, Repr

structure GetCall (Ck : Type) where
  clerk : Ck
  key : GoString

/-- The variables of the loops over the servers of a group. `Get` has no
use for `uncertain`. -/
structure Round where
  gid : Tgid
  servers : ℕ
  attempts : ℕ
  receivedReply : Bool
  uncertain : Bool
  deriving DecidableEq, Repr

/-- Where a call is. -/
inductive ClerkPc
  | load (forceRefresh : Bool)
  | query
  | merge (queried : ShardConfig)
  | route (cfg : ShardConfig)
  | round (r : Round)
  /-- Waiting for the reply to a request. -/
  | calling (r : Round) (k : ℕ)
  /-- `Put` is about to return, with `Complete` to come. -/
  | returning (err : Err)
  | returned
  | panicked

namespace Round

def start (gid : Tgid) (servers : ℕ) : Round := ⟨gid, servers, 0, false, false⟩

/-- `Call` has returned false. -/
def failed (r : Round) : Round := { r with attempts := r.attempts + 1, uncertain := true }

/-- The reply does not settle the call. -/
def refused (r : Round) (err : Err) : Round :=
  { r with
    attempts := r.attempts + 1
    receivedReply := true
    uncertain := r.uncertain || decide (err = .errWrongLeader) }

/-- All servers have been tried. -/
def finish (r : Round) : ClerkPc :=
  if r.receivedReply then .round { r with attempts := 0, receivedReply := false } else .load true

end Round

/-- What `Put` does with a reply. -/
def ClerkPc.putAnswered (r : Round) (clientID : ℕ) : Err → ClerkPc
  | .ok => .returning .ok
  | .errNoKey => .returning .errNoKey
  | .errVersion =>
      .returning (if r.uncertain = true ∧ clientID = 0 then .errMaybe else .errVersion)
  | .errStaleRequest => .panicked
  | .errWrongGroup => .load true
  | err => .round (r.refused err)

structure ClerkState (Ck : Type) where
  puts : Clerks Ck Tgid
  gets : List (GetCall Ck)
  /-- The requests of `Get`, each with its call and its group. -/
  asked : List (ℕ × Tgid)
  config : Ck → Option ShardConfig
  pc : CallID → ClerkPc
  history : List (Event CallID KvOp KvRes)

inductive ClerkAction (Ck : Type)
  | get (ck : Ck) (key : GoString)
  | put (ck : Ck) (key value : GoString) (version : Tversion)
  | load (c : CallID)
  | query (c : CallID) (queried : Option ShardConfig)
  | merge (c : CallID)
  | route (c : CallID)
  /-- The next server is asked, or all have been. -/
  | send (c : CallID)
  /-- `Call` returns false. -/
  | fail (c : CallID)
  | getReply (g : ℕ) (reply : GetReply)
  | putReply (p : ℕ) (reply : PutReply)
  | complete (p : ℕ)

namespace ClerkState

variable {Ck : Type}

def init : ClerkState Ck where
  puts := .init
  gets := []
  asked := []
  config _ := none
  pc _ := .load false
  history := []

def clerkOf (s : ClerkState Ck) : CallID → Option Ck
  | .get g => s.gets[g]?.map GetCall.clerk
  | .put p => s.puts.calls[p]?.map PutCall.clerk

def keyOf (s : ClerkState Ck) : CallID → Option GoString
  | .get g => s.gets[g]?.map GetCall.key
  | .put p => s.puts.calls[p]?.map fun call => call.args.key

def setPc (s : ClerkState Ck) (c : CallID) (pc : ClerkPc) : ClerkState Ck :=
  { s with pc := Function.update s.pc c pc }

/-- The end of `loadConfig`. -/
def newer (cached : Option ShardConfig) (queried : ShardConfig) : ShardConfig :=
  match cached with
  | none => queried
  | some cached => if cached.num ≤ queried.num then queried else cached

variable [DecidableEq Ck] (clientID : Ck ↪ {id : ℕ // id ≠ 0})

def step (s : ClerkState Ck) : ClerkAction Ck → Option (ClerkState Ck)
  | .get ck key =>
      let c := CallID.get s.gets.length
      some { s.setPc c (.load false) with
        gets := s.gets ++ [⟨ck, key⟩]
        history := s.history ++ [.invoke c (.get key)] }
  | .put ck key value version => do
      let c := CallID.put s.puts.calls.length
      let puts ← s.puts.begin clientID ck key value version
      some { s.setPc c (.load false) with
        puts := puts
        history := s.history ++ [.invoke c (.put key value version)] }
  | .load c => do
      let ck ← s.clerkOf c
      match s.pc c with
      | .load forceRefresh =>
          match if forceRefresh then none else s.config ck with
          | some cfg => some (s.setPc c (.route cfg))
          | none => some (s.setPc c .query)
      | _ => none
  | .query c queried =>
      match s.pc c, queried with
      | .query, none => some (s.setPc c (.load true))
      | .query, some cfg => some (s.setPc c (.merge cfg))
      | _, _ => none
  | .merge c => do
      let ck ← s.clerkOf c
      match s.pc c with
      | .merge queried =>
          let cfg := newer (s.config ck) queried
          some { s.setPc c (.route cfg) with config := Function.update s.config ck (some cfg) }
      | _ => none
  | .route c => do
      let key ← s.keyOf c
      match s.pc c with
      | .route cfg =>
          let gid := cfg.shards (key2Shard key)
          let servers := cfg.servers gid
          if servers = [] then some (s.setPc c (.load true))
          else
            match c with
            | .get _ => some (s.setPc c (.round (.start gid servers.length)))
            | .put p => do
                let puts ← s.puts.ack p
                some { s.setPc c (.round (.start gid servers.length)) with puts := puts }
      | _ => none
  | .send c =>
      match s.pc c with
      | .round r =>
          if r.servers ≤ r.attempts then some (s.setPc c r.finish)
          else
            match c with
            | .get g => some { s.setPc c (.calling r s.asked.length) with
                asked := s.asked ++ [(g, r.gid)] }
            | .put p => do
                let puts ← s.puts.send p r.gid
                some { s.setPc c (.calling r s.puts.sent.length) with puts := puts }
      | _ => none
  | .fail c =>
      match s.pc c with
      | .calling r _ => some (s.setPc c (.round r.failed))
      | _ => none
  | .getReply g reply =>
      match s.pc (.get g) with
      | .calling r _ =>
          match reply.err with
          | .ok | .errNoKey => some { s.setPc (.get g) .returned with
              history := s.history ++ [.ret (.get g) (.get reply)] }
          | .errWrongGroup => some (s.setPc (.get g) (.load true))
          | err => some (s.setPc (.get g) (.round (r.refused err)))
      | _ => none
  | .putReply p reply => do
      let call ← s.puts.calls[p]?
      match s.pc (.put p) with
      | .calling r _ => some (s.setPc (.put p) (.putAnswered r call.args.clientID reply.err))
      | _ => none
  | .complete p =>
      match s.pc (.put p) with
      | .returning err => do
          let puts ← s.puts.complete p
          some { s.setPc (.put p) .returned with
            puts := puts
            history := s.history ++ [.ret (.put p) (.put err)] }
      | _ => none

end ClerkState

/-! ### What the groups do for clerks -/

/-- The runs of a `Put` at a group, with what they return. -/
def putRuns (state : ShardState) (args : PutArgs) : List PutReply :=
  if state.status = .shardServing then
    state.requests.runs args (ShardState.applyPut args) state.values
  else []

/-- A request of `Put` that has been executed. -/
structure PutExec where
  rpc : ℕ
  request : Sent Tgid
  reply : PutReply
  /-- The runs of the function that `Do` is given, with what they return. -/
  runs : List PutReply

structure GetExec where
  rpc : ℕ
  reply : GetReply

end RaftShardedKv.Shardkv
