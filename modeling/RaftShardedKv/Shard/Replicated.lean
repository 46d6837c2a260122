import RaftShardedKv.Kv.Snapshots
import RaftShardedKv.Rsm.Linearizable
import RaftShardedKv.Shard.Linearizable

/-!
The sharded service as it is deployed: every group is a cluster of servers
with a Raft log, from the handlers of `shardkv1/shardgrp/server.go`.

A request may reach a server of its group at any time after it has been
sent, also more than once and also after its call has given up on it;
every time its handler makes a call of `SubmitWithTimeout`. What that call
returns is the reply, to a clerk also if it is an error. The servers of a
group may be killed and started again at any time, and of a cluster
nothing is left out that `Rsm.System` has. The metadata is one versioned
key, as in `Shard.System`.
-/

namespace RaftShardedKv

open Dedup

/-! ### The server of a group -/

namespace ShardState

variable {state state' : ShardState}

theorem put_ne_nil {args : PutArgs} {reply : PutReply} (h : state.values ≠ .nil)
    (hput : state.put args = some (state', reply)) : state'.values ≠ .nil := by
  unfold put at hput
  split at hput
  · cases hput
    exact h
  · obtain ⟨⟨requests, values, reply'⟩, hdo, hput⟩ := Option.bind_eq_some_iff.mp hput
    cases hput
    rcases (Table.done_of_doPut hdo).state with heq | ⟨reply'', happly⟩
    · rw [heq]
      exact h
    · exact applyPut_ne_nil happly h

theorem freezeShard_ne_nil (h : state.values ≠ .nil) (num : Tnum) :
    (state.freezeShard num).1.values ≠ .nil := by
  unfold freezeShard
  dsimp only
  split_ifs <;> exact h

theorem installShard_ne_nil (h : state.values ≠ .nil) (data : TransferData) (num : Tnum) :
    (state.installShard data num).1.values ≠ .nil := by
  unfold installShard
  split_ifs
  · exact h
  · exact h
  · cases data with
    | none => exact GoMap.orMake_ne_nil .make
    | some transfer => exact GoMap.orMake_ne_nil transfer.values

theorem deleteShard_ne_nil (h : state.values ≠ .nil) (num : Tnum) :
    (state.deleteShard num).1.values ≠ .nil := by
  unfold deleteShard
  split_ifs
  · exact h
  · exact h
  · exact GoMap.orMake_ne_nil .make

end ShardState

theorem KVServer.update_ne_nil {kv : KVServer} (h : ∀ shard, (kv shard).values ≠ .nil)
    {shard : Tshid} {state : ShardState} (hstate : state.values ≠ .nil) (other : Tshid) :
    (Function.update kv shard state other).values ≠ .nil := by
  rcases eq_or_ne other shard with rfl | hne
  · rw [Function.update_self]
    exact hstate
  · rw [Function.update_of_ne hne]
    exact h other

theorem KVServer.doOp_ne_nil {kv kv' : KVServer} {req : Request} {reply : Reply}
    (h : ∀ shard, (kv shard).values ≠ .nil) (hop : kv.doOp req = some (kv', reply)) :
    ∀ shard, (kv' shard).values ≠ .nil := by
  cases req with
  | get args =>
      cases hop
      exact h
  | put args =>
      obtain ⟨⟨state, reply'⟩, hput, hop⟩ := Option.bind_eq_some_iff.mp hop
      cases hop
      exact update_ne_nil h (ShardState.put_ne_nil (h _) hput)
  | freezeShard shard num =>
      cases hop
      exact update_ne_nil h (ShardState.freezeShard_ne_nil (h shard) num)
  | installShard shard data num =>
      cases hop
      exact update_ne_nil h (ShardState.installShard_ne_nil (h shard) data num)
  | deleteShard shard num =>
      cases hop
      exact update_ne_nil h (ShardState.deleteShard_ne_nil (h shard) num)

namespace Shardkv

/-- A server of a group; every shard has a map for its values. -/
structure GroupServer where
  shards : KVServer
  made : ∀ shard, (shards shard).values ≠ .nil

namespace GroupServer

def start (gid : Tgid) : GroupServer :=
  ⟨.start gid, fun shard => (KVServer.made_start gid shard).values⟩

/-- `DoOp`. The reply is `none` where it panics; such a server does not go
on, so the state it would have does not matter. -/
def doOp (kv : GroupServer) (req : Request) : GroupServer × Option Reply :=
  match h : kv.shards.doOp req with
  | none => (kv, none)
  | some (shards, reply) => (⟨shards, KVServer.doOp_ne_nil kv.made h⟩, some reply)

variable [ShardGob]

def snapshot (kv : GroupServer) : Bytes := ShardGob.encodeShards kv.shards

/-- `Restore`; of a server that panics the state does not matter. -/
def restore (kv : GroupServer) (data : Bytes) : GroupServer :=
  if data = [] then kv
  else
    match ShardGob.decodeShards data with
    | none => kv
    | some shards =>
        ⟨fun shard => { shards shard with values := (shards shard).values.orMake },
          fun _ => GoMap.orMake_ne_nil _⟩

end GroupServer

/-- The state machine that `MakeRSM` is given by a server of group `gid`. -/
def machine [ShardGob] (gid : Tgid) : StateMachine GroupServer Request (Option Reply) where
  initial := .start gid
  doOp := GroupServer.doOp
  snapshot := GroupServer.snapshot
  restore := GroupServer.restore

/-! ### The deployment -/

/-- What the controllers and the metadata hold: a `ShardSystem` without
the groups and what they have replied. -/
structure Control (Ctl : Type) where
  stored : List ControllerState
  puts : List (ℕ × ControllerState)
  putReplies : List (ℕ × Err)
  ctrlers : Ctl → ShardCtrler
  sent : List (Tgid × Request)

def Control.shards {Ctl : Type} (c : Control Ctl) (groups : Tgid → KVServer)
    (replies : List (ℕ × Reply)) : ShardSystem Ctl where
  stored := c.stored
  puts := c.puts
  putReplies := c.putReplies
  ctrlers := c.ctrlers
  groups := groups
  sent := c.sent
  replies := replies

def control {Ctl : Type} (s : ShardSystem Ctl) : Control Ctl where
  stored := s.stored
  puts := s.puts
  putReplies := s.putReplies
  ctrlers := s.ctrlers
  sent := s.sent

/-- A step of the controllers or of the metadata, where a group has
replied this; no such step looks at a group. -/
def Control.step {Ctl : Type} [DecidableEq Ctl] (id : Ctl → GoString) (c : Control Ctl)
    (replies : List (ℕ × Reply)) (a : ShardAction Ctl) : Option (Control Ctl) :=
  ((c.shards KVServer.start replies).step id a).map control

/-- The request that a handler was called with. -/
inductive Source
  | controller (k : ℕ)
  | get (k : ℕ)
  | put (k : ℕ)
  deriving DecidableEq, Repr

/-- The service with `n gid` servers in group `gid`. -/
structure Deployment (n : Tgid → ℕ) (Ctl Ck : Type) where
  control : Control Ctl
  clerks : ClerkState Ck
  clusters : ∀ gid, RsmSystem (n gid) GroupServer Request (Option Reply)
  /-- What the calls of `SubmitWithTimeout` were made for. -/
  handlers : ∀ gid, OpID (n gid) → Option Source

inductive DeploymentAction (n : Tgid → ℕ) (Ctl Ck : Type)
  /-- A step of a cluster other than a submission. -/
  | cluster (gid : Tgid) (a : RsmAction (n gid) Request)
  /-- A step of a controller or of the metadata. -/
  | controller (a : ShardAction Ctl)
  /-- A step that a clerk makes on its own. -/
  | clerk (a : ClerkAction Ck)
  | query (c : CallID)
  /-- A request reaches a server. -/
  | handle (src : Source) (gid : Tgid) (i : Fin (n gid))
  /-- A controller is told what a submission has led to. -/
  | reply (c : Ctl) (gid : Tgid) (id : OpID (n gid))
  /-- And a call of a clerk. -/
  | getReply (g : ℕ) (gid : Tgid) (id : OpID (n gid))
  | putReply (p : ℕ) (gid : Tgid) (id : OpID (n gid))

/-- The replies of the handlers of `Get` and `Put` to what
`SubmitWithTimeout` has returned; `none` is a panic. -/
def getReplyOf : Outcome (Option Reply) → Option GetReply
  | .ok (some (.get reply)) => some reply
  | .ok _ => none
  | .errWrongLeader => some ⟨[], 0, .errWrongLeader⟩

def putReplyOf : Outcome (Option Reply) → Option PutReply
  | .ok (some (.put reply)) => some reply
  | .ok _ => none
  | .errWrongLeader => some ⟨.errWrongLeader⟩

namespace Deployment

variable {n : Tgid → ℕ} {Ctl Ck : Type} [DecidableEq Ctl] [DecidableEq Ck] [ShardGob]
  [∀ gid, Labgob (Op (n gid) Request)] (id : Ctl → GoString)
  (clientID : Ck ↪ {id : ℕ // id ≠ 0})

/-- The request with its group. -/
def request (control : Control Ctl) (clerks : ClerkState Ck) : Source → Option (Tgid × Request)
  | .controller k => control.sent[k]?
  | .get k => do
      let (g, gid) ← clerks.asked[k]?
      let call ← clerks.gets[g]?
      some (gid, .get ⟨call.key⟩)
  | .put k => do
      let x ← clerks.puts.sent[k]?
      some (x.dst, .put x.args)

/-- What a submission has returned. -/
def outcome (s : Deployment n Ctl Ck) (gid : Tgid) (id : OpID (n gid)) :
    Option (Outcome (Option Reply)) := do
  let sub ← (s.clusters gid).submissions id
  match sub.phase with
  | .returned outcome => some outcome
  | _ => none

def setCluster (s : Deployment n Ctl Ck) (gid : Tgid)
    (cluster : RsmSystem (n gid) GroupServer Request (Option Reply)) : Deployment n Ctl Ck :=
  { s with clusters := Function.update s.clusters gid cluster }

def clerkStep (s : Deployment n Ctl Ck) (a : ClerkAction Ck) : Option (Deployment n Ctl Ck) := do
  let clerks ← s.clerks.step clientID a
  some { s with clerks := clerks }

def step (s : Deployment n Ctl Ck) : DeploymentAction n Ctl Ck → Option (Deployment n Ctl Ck)
  | .cluster gid a =>
      match a with
      | .submit .. => none
      | a => do
          let cluster ← (s.clusters gid).step (machine gid) a
          some (s.setCluster gid cluster)
  | .controller a =>
      match a with
      | .execute .. | .client .. | .reply .. => none
      | a => do
          let control ← s.control.step id [] a
          some { s with control := control }
  | .clerk a =>
      match a with
      | .query .. | .getReply .. | .putReply .. => none
      | a => s.clerkStep clientID a
  | .query c =>
      s.clerkStep clientID (.query c ((readState s.control.stored).map fun r => r.1.current))
  | .handle src gid i => do
      let (dst, req) ← request s.control s.clerks src
      if dst = gid then do
        let rsm := (s.clusters gid).rsms i
        let cluster ← (s.clusters gid).step (machine gid) (.submit i req true)
        some { s.setCluster gid cluster with
          handlers := Function.update s.handlers gid (Function.update (s.handlers gid)
            ⟨i, rsm.epoch, rsm.nextSequence + 1⟩ (some src)) }
      else none
  | .reply c gid op =>
      match s.handlers gid op, s.outcome gid op with
      | some (.controller k), some (.ok (some reply)) => do
          let control ← s.control.step id [(k, reply)] (.reply c 0)
          some { s with control := control }
      | _, _ => none
  | .getReply g gid op =>
      match s.handlers gid op, s.clerks.pc (.get g) with
      | some (.get k), .calling _ k' =>
          if k = k' then do
            let outcome ← s.outcome gid op
            let reply ← getReplyOf outcome
            s.clerkStep clientID (.getReply g reply)
          else none
      | _, _ => none
  | .putReply p gid op =>
      match s.handlers gid op, s.clerks.pc (.put p) with
      | some (.put k), .calling _ k' =>
          if k = k' then do
            let outcome ← s.outcome gid op
            let reply ← putReplyOf outcome
            s.clerkStep clientID (.putReply p reply)
          else none
      | _, _ => none

/-- Every server has been started for the first time, with these epochs. -/
def init (epoch : ∀ gid, Fin (n gid) → ℕ) : Deployment n Ctl Ck where
  control := Shardkv.control (.init Ctl)
  clerks := .init
  clusters gid := .init (machine gid) (epoch gid)
  handlers _ _ := none

end Deployment

def DeploymentAction.Given {n : Tgid → ℕ} {Ctl Ck : Type} (G : Configs) :
    DeploymentAction n Ctl Ck → Prop
  | .controller a => a.Given G
  | _ => True

/-- The runs of the deployment. -/
abbrev deploymentSys {n : Tgid → ℕ} {Ctl Ck : Type} [DecidableEq Ctl] [DecidableEq Ck] [ShardGob]
    [∀ gid, Labgob (Op (n gid) Request)] (G : Configs) (id : Ctl → GoString)
    (clientID : Ck ↪ {id : ℕ // id ≠ 0}) (epoch : ∀ gid, Fin (n gid) → ℕ) :
    Transition.Sys (Deployment n Ctl Ck) (DeploymentAction n Ctl Ck) :=
  (Transition.Sys.ofStep (Deployment.init epoch) (Deployment.step id clientID)).restrict
    (DeploymentAction.Given G)

end Shardkv

end RaftShardedKv
