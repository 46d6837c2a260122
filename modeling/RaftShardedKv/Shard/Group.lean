import RaftShardedKv.Shard.Config

/-!
The state machine of a shard group, from `shardkv1/shardgrp/server.go`.

The data of a transfer is modelled by what it decodes to, `none` for no
data at all. `DoOp` returns `none` where it panics, which is where `Put`
would write to a `nil` map.
-/

namespace RaftShardedKv

inductive ShardStatus
  | shardAbsent
  | shardServing
  | shardFrozen
  deriving DecidableEq, Repr

structure ValueEntry where
  value : GoString
  version : Tversion
  deriving DecidableEq, Repr

structure ShardState where
  values : GoMap GoString ValueEntry
  status : ShardStatus
  configNum : Tnum
  requests : Dedup.Table

structure ShardTransfer where
  values : GoMap GoString ValueEntry
  requests : Dedup.Table

/-- The data of a transfer, `none` for the empty byte string. -/
abbrev TransferData := Option ShardTransfer

def encodeShardTransfer (values : GoMap GoString ValueEntry) (requests : Dedup.Table) :
    TransferData :=
  some ⟨values, requests⟩

def decodeShardTransfer : TransferData → ShardTransfer
  | none => ⟨.make, .empty⟩
  | some transfer => { transfer with values := transfer.values.orMake }

inductive Request
  | get (args : GetArgs)
  | put (args : PutArgs)
  | freezeShard (shard : Tshid) (num : Tnum)
  | installShard (shard : Tshid) (state : TransferData) (num : Tnum)
  | deleteShard (shard : Tshid) (num : Tnum)

inductive Reply
  | get (reply : GetReply)
  | put (reply : PutReply)
  | freezeShard (state : TransferData) (num : Tnum) (err : Err)
  | installShard (err : Err)
  | deleteShard (err : Err)

namespace ShardState

/-- What `Put` does to the values when it has not been done before. -/
def applyPut (args : PutArgs) (values : GoMap GoString ValueEntry) :
    Option (GoMap GoString ValueEntry × PutReply) :=
  let entry := (values.get args.key).getD ⟨[], 0⟩
  if (values.get args.key).isNone ∧ args.version ≠ 0 then some (values, ⟨.errNoKey⟩)
  else if entry.version ≠ args.version then some (values, ⟨.errVersion⟩)
  else do
    let values ← values.set args.key ⟨args.value, entry.version + 1⟩
    some (values, ⟨.ok⟩)

theorem exists_applyPut (args : PutArgs) {values : GoMap GoString ValueEntry}
    (h : values ≠ .nil) : ∃ out, applyPut args values = some out := by
  unfold applyPut
  dsimp only
  split
  · exact ⟨_, rfl⟩
  · split
    · exact ⟨_, rfl⟩
    · obtain ⟨values', hset⟩ := GoMap.exists_set h args.key
        ⟨args.value, ((values.get args.key).getD ⟨[], 0⟩).version + 1⟩
      exact ⟨_, by rw [hset]; rfl⟩

theorem applyPut_ne_nil {args : PutArgs} {values values' : GoMap GoString ValueEntry}
    {reply : PutReply} (h : applyPut args values = some (values', reply))
    (hvalues : values ≠ .nil) : values' ≠ .nil := by
  unfold applyPut at h
  dsimp only at h
  split at h
  · cases h
    exact hvalues
  · split at h
    · cases h
      exact hvalues
    · obtain ⟨values'', hset, h⟩ := Option.bind_eq_some_iff.mp h
      cases h
      exact GoMap.set_ne_nil hset

def get (state : ShardState) (args : GetArgs) : GetReply :=
  if state.status ≠ .shardServing then ⟨[], 0, .errWrongGroup⟩
  else
    match state.values.get args.key with
    | none => ⟨[], 0, .errNoKey⟩
    | some entry => ⟨entry.value, entry.version, .ok⟩

def put (state : ShardState) (args : PutArgs) : Option (ShardState × PutReply) :=
  if state.status ≠ .shardServing then some (state, ⟨.errWrongGroup⟩)
  else do
    let (requests, values, reply) ← state.requests.doPut args (applyPut args) state.values
    some ({ state with requests := requests, values := values }, reply)

def freezeShard (state : ShardState) (num : Tnum) : ShardState × Reply :=
  let data := encodeShardTransfer state.values state.requests
  if num = state.configNum ∧ state.status = .shardFrozen then
    (state, .freezeShard data state.configNum .ok)
  else if state.status ≠ .shardServing ∨ num ≤ state.configNum then
    (state, .freezeShard none state.configNum .errWrongGroup)
  else
    ({ state with status := .shardFrozen, configNum := num }, .freezeShard data num .ok)

def installShard (state : ShardState) (data : TransferData) (num : Tnum) : ShardState × Err :=
  if num = state.configNum ∧ state.status = .shardServing then (state, .ok)
  else if state.status ≠ .shardAbsent ∨ num ≤ state.configNum then (state, .errWrongGroup)
  else
    let transfer := decodeShardTransfer data
    (⟨transfer.values, .shardServing, num, transfer.requests⟩, .ok)

def deleteShard (state : ShardState) (num : Tnum) : ShardState × Err :=
  if num < state.configNum ∨ num = state.configNum ∧ state.status = .shardAbsent then (state, .ok)
  else if num ≠ state.configNum ∨ state.status ≠ .shardFrozen then (state, .errWrongGroup)
  else
    ({ state with values := .make, requests := .empty, status := .shardAbsent }, .ok)

end ShardState

/-- The shards of a group. -/
abbrev KVServer := Tshid → ShardState

namespace KVServer

/-- What `StartServerShardGrp` sets up. -/
def start (gid : Tgid) : KVServer := fun _ =>
  if gid = Gid1 then ⟨.make, .shardServing, NumFirst, .empty⟩
  else ⟨.make, .shardAbsent, 0, .empty⟩

def doOp (kv : KVServer) : Request → Option (KVServer × Reply)
  | .get args => some (kv, .get ((kv (key2Shard args.key)).get args))
  | .put args => do
      let shard := key2Shard args.key
      let (state, reply) ← (kv shard).put args
      some (Function.update kv shard state, .put reply)
  | .freezeShard shard num =>
      let (state, reply) := (kv shard).freezeShard num
      some (Function.update kv shard state, reply)
  | .installShard shard data num =>
      let (state, err) := (kv shard).installShard data num
      some (Function.update kv shard state, .installShard err)
  | .deleteShard shard num =>
      let (state, err) := (kv shard).deleteShard num
      some (Function.update kv shard state, .deleteShard err)

end KVServer

end RaftShardedKv
