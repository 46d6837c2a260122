import RaftShardedKv.Lib.Transition
import RaftShardedKv.Shard.Group

/-!
The shard groups under their controllers, from
`shardkv1/shardctrler/shardctrler.go` and the migration calls of
`shardkv1/shardgrp/client.go`.

A group executes one operation at a time. The metadata is one versioned
key; all the records that were ever stored under it are kept, the last of
them is its value and their number its version, which is a `uint64`: runs
end where it would wrap around. A controller is at one of the places where
it waits: for a read or a write of the metadata, or for the reply of a
group. A request that has been sent may be executed at any time, whether
or not the controller still waits for it, one to a group any number of
times; a controller takes any reply to the request it waits for, or none
and sends it again. A controller that stops for good is one that takes no
more steps.

Requests go to the group that a configuration names, under whatever
addresses it gives for it.
-/

namespace RaftShardedKv

/-! ### The metadata -/

/-- `math.MaxUint64` -/
def maxVersion : ℕ := 18446744073709551615

/-- `readState`: the record and its version. -/
def readState (stored : List ControllerState) : Option (ControllerState × ℕ) :=
  stored.getLast?.map fun state => (state, stored.length)

/-- `Put` of the key/value server on the metadata key. -/
def putState (stored : List ControllerState) (version : ℕ) (state : ControllerState) :
    List ControllerState × Err :=
  if stored = [] then
    if version = 0 then ([state], .ok) else (stored, .errNoKey)
  else if stored.length ≠ version then (stored, .errVersion)
  else (stored ++ [state], .ok)

/-! ### A controller -/

/-- What is left to do after a recovery: nothing, or to plan a
configuration. -/
abbrev Task := Option ShardConfig

/-- The variables of `recoverPendingLocked`. -/
structure Recovery where
  task : Task
  state : ControllerState
  version : ℕ
  record : MigrationRecord
  /-- The groups that have a clerk. -/
  clerks : List Tgid

/-- What `compareAndSwap` is called for. -/
inductive Swap
  | init
  | elect (task : Task)
  | publish (r : Recovery)
  | clear (task : Task)
  | plan

/-- A call to a group for one shard. -/
inductive Job
  | freeze
  | install (data : TransferData)
  | delete

/-- Where a controller is. -/
inductive Pc
  | idle
  /-- `ensureLeadershipLocked` of a controller that is initialized. -/
  | lead (task : Task)
  /-- The loop of `ensureLeadershipLocked`. -/
  | elect (task : Task)
  /-- `Put` of the metadata has been sent, more than once if `resent`. -/
  | put (call : ℕ) (version : ℕ) (state : ControllerState) (resent : Bool) (swap : Swap)
  /-- `compareAndSwap` reads back what it may have stored. -/
  | confirm (state : ControllerState) (swap : Swap)
  | recover (task : Task)
  /-- The loop that freezes and installs, at a shard. -/
  | migrate (r : Recovery) (shard : ℕ)
  /-- Before a call to a group. -/
  | check (r : Recovery) (shard : Tshid) (job : Job)
  | call (r : Recovery) (shard : Tshid) (job : Job) (call : ℕ)
  | published (r : Recovery)
  /-- The loop that deletes, at a shard. -/
  | remove (r : Recovery) (shard : ℕ)
  | plan (next : ShardConfig)

structure ShardCtrler where
  epoch : ℕ
  initialized : Bool
  deposed : Bool
  pc : Pc

namespace ShardCtrler

def make : ShardCtrler := ⟨0, false, false, .idle⟩

def readOwned (sck : ShardCtrler) (id : GoString) (stored : List ControllerState) :
    ShardCtrler × Option (ControllerState × ℕ) :=
  if sck.deposed then (sck, none)
  else
    match readState stored with
    | none => (sck, none)
    | some (state, version) =>
        if state.owner ≠ id ∨ state.epoch ≠ sck.epoch then ({ sck with deposed := true }, none)
        else (sck, some (state, version))

/-- `recoverPendingLocked` has returned true. -/
def recovered : Task → Pc
  | none => .idle
  | some next => .plan next

/-- `compareAndSwap` has returned. -/
def swapped (sck : ShardCtrler) (state : ControllerState) : Swap → Bool → ShardCtrler
  | .init, true => { sck with epoch := state.epoch, initialized := true, pc := .idle }
  | .elect task, true => { sck with epoch := state.epoch, pc := .recover task }
  | .elect task, false => { sck with pc := .elect task }
  | .publish r, true => { sck with pc := .published r }
  | .clear task, true => { sck with pc := recovered task }
  | .plan, true => { sck with pc := .recover none }
  | _, false => { sck with pc := .idle }

/-- `ensureLeadershipLocked` is called. -/
def ensureLeadership (sck : ShardCtrler) (task : Task) : ShardCtrler :=
  if sck.initialized then { sck with pc := .lead task }
  else { sck with initialized := true, pc := .elect task }

end ShardCtrler

namespace Recovery

/-- The group that a job is for. -/
def gid (r : Recovery) (shard : Tshid) : Job → Tgid
  | .freeze | .delete => r.record.fromConfig.shards shard
  | .install _ => r.record.toConfig.shards shard

def servers (r : Recovery) (shard : Tshid) : Job → List GoString
  | .freeze => r.record.fromConfig.servers (r.gid shard .freeze)
  | .delete => r.record.fromConfig.servers (r.gid shard .delete)
  | .install data => r.record.toConfig.servers (r.gid shard (.install data))

def request (r : Recovery) (shard : Tshid) : Job → Request
  | .freeze => .freezeShard shard r.record.toConfig.num
  | .install data => .installShard shard data r.record.toConfig.num
  | .delete => .deleteShard shard r.record.toConfig.num

/-- `groupClerk`, and then the call; `none` is the panic for a group
without servers. -/
def start (r : Recovery) (shard : Tshid) (job : Job) : Option Pc :=
  let gid := r.gid shard job
  if gid ∈ r.clerks then some (.check r shard job)
  else if r.servers shard job = [] then none
  else some (.check { r with clerks := gid :: r.clerks } shard job)

/-- The rest of a round after the shard has been frozen. -/
def install (r : Recovery) (shard : Tshid) (data : TransferData) : Option Pc :=
  if r.record.toConfig.shards shard ≠ 0 then r.start shard (.install data)
  else some (.migrate r (shard + 1))

/-- A round of the loop that freezes and installs. -/
def migrate (r : Recovery) (shard : Tshid) : Option Pc :=
  let source := r.record.fromConfig.shards shard
  if source = r.record.toConfig.shards shard then some (.migrate r (shard + 1))
  else if source ≠ 0 then r.start shard .freeze
  else r.install shard none

/-- A round of the loop that deletes. -/
def remove (r : Recovery) (shard : Tshid) : Option Pc :=
  let source := r.record.fromConfig.shards shard
  if source = 0 ∨ source = r.record.toConfig.shards shard then some (.remove r (shard + 1))
  else r.start shard .delete

/-- A call to a group has been answered; `none` is an answer that the
call does not take. -/
def answered (r : Recovery) (shard : Tshid) : Job → Reply → Option Pc
  | .freeze, .freezeShard data num err =>
      match err with
      | .ok => if num ≠ r.record.toConfig.num then some .idle else r.install shard data
      | .errWrongGroup => some .idle
      | _ => none
  | .install _, .installShard err =>
      match err with
      | .ok => some (.migrate r (shard + 1))
      | .errWrongGroup => some .idle
      | _ => none
  | .delete, .deleteShard err =>
      match err with
      | .ok => some (.remove r (shard + 1))
      | .errWrongGroup => some .idle
      | _ => none
  | _, _ => none

end Recovery

/-! ### The system -/

structure ShardSystem (Ctl : Type) where
  /-- The records that were stored under the metadata key. -/
  stored : List ControllerState
  /-- The requests to store one: the version expected, and the record. -/
  puts : List (ℕ × ControllerState)
  putReplies : List (ℕ × Err)
  ctrlers : Ctl → ShardCtrler
  groups : Tgid → KVServer
  /-- The migration requests sent to groups. -/
  sent : List (Tgid × Request)
  replies : List (ℕ × Reply)

inductive ShardAction (Ctl : Type)
  | initConfig (c : Ctl) (cfg : ShardConfig)
  | initController (c : Ctl)
  | changeConfigTo (c : Ctl) (next : ShardConfig)
  /-- Controller `c` goes on, with a read of the metadata if it needs one. -/
  | run (c : Ctl)
  | putReply (c : Ctl) (k : ℕ)
  | putLost (c : Ctl)
  | reply (c : Ctl) (k : ℕ)
  | lost (c : Ctl)
  | executePut (k : ℕ)
  | execute (k : ℕ)
  /-- A group executes a `Get` or a `Put`. -/
  | client (gid : Tgid) (req : Request)

namespace ShardSystem

variable {Ctl : Type} [DecidableEq Ctl]

def setCtrler (s : ShardSystem Ctl) (c : Ctl) (sck : ShardCtrler) : ShardSystem Ctl :=
  { s with ctrlers := Function.update s.ctrlers c sck }

def setPc (s : ShardSystem Ctl) (c : Ctl) (sck : ShardCtrler) (pc : Pc) : ShardSystem Ctl :=
  s.setCtrler c { sck with pc := pc }

/-- `Put` of the metadata is sent. -/
def sendPut (s : ShardSystem Ctl) (c : Ctl) (version : ℕ) (state : ControllerState)
    (resent : Bool) (swap : Swap) : ShardSystem Ctl :=
  { s.setPc c (s.ctrlers c) (.put s.puts.length version state resent swap) with
    puts := s.puts ++ [(version, state)] }

/-- A step in which a controller is on its own with the metadata. -/
def run (id : Ctl → GoString) (s : ShardSystem Ctl) (c : Ctl) : Option (ShardSystem Ctl) :=
  let sck := s.ctrlers c
  let owned := sck.readOwned (id c) s.stored
  match sck.pc with
  | .lead task =>
      match owned with
      | (sck, none) => some (s.setPc c sck .idle)
      | (sck, some _) => some (s.setPc c sck (.recover task))
  | .elect task =>
      match readState s.stored with
      | none => some (s.setPc c { sck with deposed := true } .idle)
      | some (state, version) =>
          some (s.sendPut c version { state with owner := id c, epoch := state.epoch + 1 } false
            (.elect task))
  | .confirm state swap =>
      some (s.setCtrler c (sck.swapped state swap
        (decide ((readState s.stored).map Prod.fst = some state))))
  | .recover task =>
      match owned with
      | (sck, none) => some (s.setPc c sck .idle)
      | (sck, some (state, version)) =>
          match state.pending with
          | none => some (s.setPc c sck (ShardCtrler.recovered task))
          | some record =>
              let r : Recovery := ⟨task, state, version, record, []⟩
              if state.current = record.fromConfig then some (s.setPc c sck (.migrate r 0))
              else some (s.setPc c sck (.published r))
  | .migrate r shard =>
      if h : shard < NShards then do
        let pc ← r.migrate ⟨shard, h⟩
        some (s.setPc c sck pc)
      else some (s.sendPut c r.version { r.state with current := r.record.toConfig } false
        (.publish r))
  | .check r shard job =>
      match owned with
      | (sck, none) => some (s.setPc c sck .idle)
      | (sck, some _) =>
          some { s.setPc c sck (.call r shard job s.sent.length) with
            sent := s.sent ++ [(r.gid shard job, r.request shard job)] }
  | .published r =>
      match owned with
      | (sck, none) => some (s.setPc c sck .idle)
      | (sck, some (state, version)) =>
          if state.pending ≠ some r.record ∨ state.current ≠ r.record.toConfig then
            some (s.setPc c sck .idle)
          else some (s.setPc c sck (.remove { r with state := state, version := version } 0))
  | .remove r shard =>
      if h : shard < NShards then do
        let pc ← r.remove ⟨shard, h⟩
        some (s.setPc c sck pc)
      else some (s.sendPut c r.version { r.state with pending := none } false (.clear r.task))
  | .plan next =>
      match owned with
      | (sck, none) => some (s.setPc c sck .idle)
      | (sck, some (state, version)) =>
          if state.current = next ∨ next.num ≠ state.current.num.addOne then
            some (s.setPc c sck .idle)
          else
            some (s.sendPut c version { state with pending := some ⟨state.current, next⟩ } false
              .plan)
  | _ => none

def step (id : Ctl → GoString) (s : ShardSystem Ctl) : ShardAction Ctl → Option (ShardSystem Ctl)
  | .initConfig c cfg =>
      match (s.ctrlers c).pc with
      | .idle => some (s.sendPut c 0 ⟨id c, 1, cfg, none⟩ false .init)
      | _ => none
  | .initController c =>
      match (s.ctrlers c).pc with
      | .idle => some (s.setCtrler c ((s.ctrlers c).ensureLeadership none))
      | _ => none
  | .changeConfigTo c next =>
      match (s.ctrlers c).pc with
      | .idle => some (s.setCtrler c ((s.ctrlers c).ensureLeadership (some next)))
      | _ => none
  | .run c => s.run id c
  | .putReply c k => do
      let (call, err) ← s.putReplies[k]?
      match (s.ctrlers c).pc with
      | .put call' _ state resent swap =>
          if call ≠ call' then none
          else
            match err with
            | .ok => some (s.setCtrler c ((s.ctrlers c).swapped state swap true))
            | .errVersion =>
                -- `Clerk.Put` returns `ErrMaybe`
                if resent then some (s.setPc c (s.ctrlers c) (.confirm state swap))
                else some (s.setCtrler c ((s.ctrlers c).swapped state swap false))
            | .errNoKey => some (s.setCtrler c ((s.ctrlers c).swapped state swap false))
            | _ => none
      | _ => none
  | .putLost c =>
      match (s.ctrlers c).pc with
      | .put _ version state _ swap => some (s.sendPut c version state true swap)
      | _ => none
  | .reply c k => do
      let (call, reply) ← s.replies[k]?
      match (s.ctrlers c).pc with
      | .call r shard job call' =>
          if call ≠ call' then none
          else do
            let pc ← r.answered shard job reply
            some (s.setPc c (s.ctrlers c) pc)
      | _ => none
  | .lost c =>
      match (s.ctrlers c).pc with
      | .call r shard job _ => some (s.setPc c (s.ctrlers c) (.check r shard job))
      | _ => none
  | .executePut k => do
      let (version, state) ← s.puts[k]?
      let (stored, err) := putState s.stored version state
      if k ∈ s.putReplies.map Prod.fst ∨ maxVersion ≤ s.stored.length then none
      else some { s with stored := stored, putReplies := s.putReplies ++ [(k, err)] }
  | .execute k => do
      let (gid, req) ← s.sent[k]?
      let (kv, reply) ← (s.groups gid).doOp req
      some { s with
        groups := Function.update s.groups gid kv
        replies := s.replies ++ [(k, reply)] }
  | .client gid req =>
      match req with
      | .get _ | .put _ => do
          let (kv, _) ← (s.groups gid).doOp req
          some { s with groups := Function.update s.groups gid kv }
      | _ => none

def init (Ctl : Type) : ShardSystem Ctl where
  stored := []
  puts := []
  putReplies := []
  ctrlers _ := .make
  groups := KVServer.start
  sent := []
  replies := []

end ShardSystem

/-- The configurations that the controllers are given, for the first and
for every other. -/
structure Configs where
  first : ShardConfig → Prop
  next : ShardConfig → Prop

/-- Whatever the callers give. -/
def Configs.any : Configs where
  first _ := True
  next _ := True

/-- The first configuration is that of the groups at their start. -/
def Configs.started : Configs where
  first := ShardConfig.First
  next _ := True

/-- The first configuration is that of the groups at their start, and
every other has a group for every shard. -/
def Configs.assigned : Configs where
  first := ShardConfig.First
  next := ShardConfig.Assigned

def ShardAction.Given {Ctl : Type} (G : Configs) : ShardAction Ctl → Prop
  | .initConfig _ cfg => G.first cfg
  | .changeConfigTo _ next => G.next next
  | _ => True

/-- The runs of the shard groups and their controllers, where controller
`c` has the identity `id c`. -/
abbrev shardSys {Ctl : Type} [DecidableEq Ctl] (G : Configs) (id : Ctl → GoString) :
    Transition.Sys (ShardSystem Ctl) (ShardAction Ctl) :=
  (Transition.Sys.ofStep (ShardSystem.init Ctl) (ShardSystem.step id)).restrict
    (ShardAction.Given G)

end RaftShardedKv
