import RaftShardedKv.Kvraft.Server
import RaftShardedKv.Lib.Snapshot
import RaftShardedKv.Shard.Group

/-!
`Snapshot` and `Restore` of the two replicated state machines, from
`kvraft1/server.go` and `shardkv1/shardgrp/server.go`.

A map may come out of a snapshot or of a transfer as `nil`, and the first write
to it would stop every replica of the group at the same index. So the states
here are any maps at all, a write to a `nil` map fails, and that no such map is
left is what has to be shown: of the key/value maps because `Restore` and
`decodeShardTransfer` make them, of the reply maps because every session is
made with one and the encoding keeps it.
-/

namespace RaftShardedKv

open Dedup

/-! ### The replicated server -/

namespace Kvraft

/-- What a server holds, of which nothing is known yet. -/
structure State where
  values : Values
  requests : Table

namespace State

/-- What `StartKVServer` sets up. -/
def start : State := ⟨.make, .empty⟩

def get (st : State) (args : GetArgs) : GetReply :=
  match st.values.get args.key with
  | none => ⟨[], 0, .errNoKey⟩
  | some entry => ⟨entry.value, entry.version, .ok⟩

/-- `none` is the assignment to a map that is `nil`. -/
def doOp (st : State) : Request → Option (State × Reply)
  | .get args => some (st, .get (st.get args))
  | .put args => do
      let (requests, values, reply) ← st.requests.doPut args (putLocked args) st.values
      some (⟨values, requests⟩, .put reply)

variable [Gob]

def snapshot (st : State) : Bytes := Gob.encodeValues st.values ++ Gob.encodeTable st.requests

/-- `none` is a panic of the decoder; that there is no second value is none. -/
def restore (st : State) (data : Bytes) : Option State :=
  if data = [] then some st
  else do
    let (values, rest) ← Gob.decodeValues data
    let requests ← if rest = [] then some .empty else (Gob.decodeTable rest).map Prod.fst
    some ⟨values.orMake, requests⟩

end State

/-- The state of a server in which no map is `nil`. -/
def KVServer.state (kv : KVServer) : State := ⟨kv.values, kv.requests⟩

theorem KVServer.doOp_state (kv : KVServer) (req : Request) :
    kv.state.doOp req = some ((kv.doOp req).1.state, (kv.doOp req).2) := by
  cases req with
  | get args => rfl
  | put args =>
      show (kv.requests.doPut args (putLocked args) kv.values).bind _ = _
      rw [kv.doPut_eq args]
      rfl

section

variable [Gob]

theorem KVServer.restore_state (kv : KVServer) (st : State) :
    st.restore kv.state.snapshot = some kv.state := by
  have hne : kv.state.snapshot ≠ [] := by
    simp [State.snapshot, Gob.encodeValues_ne]
  have htable : Gob.decodeTable (Gob.encodeTable kv.requests) = some (kv.requests, []) := by
    have h := Gob.decode_table kv.requests []
    rwa [List.append_nil] at h
  have hvalues : Gob.decodeValues kv.state.snapshot =
      some (kv.values, Gob.encodeTable kv.requests) := Gob.decode_values _ _ kv.values_made
  rw [State.restore, if_neg hne, hvalues]
  simp [Gob.encodeTable_ne, htable, GoMap.orMake_of_ne_nil _ kv.values_made, KVServer.state]

theorem State.restore_encodeValues (st : State) {values : Values} (h : values ≠ .nil) :
    st.restore (Gob.encodeValues values) = some ⟨values, .empty⟩ := by
  have hvalues : Gob.decodeValues (Gob.encodeValues values) = some (values, []) := by
    have h := Gob.decode_values values [] h
    rwa [List.append_nil] at h
  rw [State.restore, if_neg (Gob.encodeValues_ne values), hvalues]
  simp [GoMap.orMake_of_ne_nil _ h]

def raftMachine : Snapshot.Machine State Request Reply Bytes where
  start st := st = .start
  doOp := State.doOp
  snapshot := State.snapshot
  restore := State.restore
  plain _ := True
  carries _ _ := False

theorem raftMachine_kept : raftMachine.Kept fun st => ∃ kv : KVServer, st = kv.state where
  start := by
    rintro _ rfl
    exact ⟨.start, rfl⟩
  doOp := by
    rintro _ s' req rep ⟨kv, rfl⟩ - hop
    cases (kv.doOp_state req).symm.trans hop
    exact ⟨_, rfl⟩
  carry := by
    rintro _ _ _ _ _ _ _ _ - - - ⟨⟩
  restore := by
    rintro _ t ⟨kv, rfl⟩
    exact kv.restore_state t
  total := by
    rintro _ req ⟨kv, rfl⟩
    exact ⟨_, kv.doOp_state req⟩

end

end Kvraft

/-! ### The shard groups -/

/-- How the shards of a group are written and read: a map is read as it was
written, `nil` as `nil` and an empty one as empty. -/
class ShardGob where
  encodeShards : KVServer → Bytes
  decodeShards : Bytes → Option KVServer
  decode_shards : ∀ kv, decodeShards (encodeShards kv) = some kv
  encodeShards_ne : ∀ kv, encodeShards kv ≠ []

namespace KVServer

variable [ShardGob]

def snapshot (kv : KVServer) : Bytes := ShardGob.encodeShards kv

/-- `none` is a panic of the decoder. -/
def restore (kv : KVServer) (data : Bytes) : Option KVServer :=
  if data = [] then some kv
  else do
    let shards ← ShardGob.decodeShards data
    some fun shard => { shards shard with values := (shards shard).values.orMake }

end KVServer

namespace ShardState

/-- No map is `nil` that is written to. -/
structure Made (state : ShardState) : Prop where
  values : state.values ≠ .nil
  requests : state.requests.Made

variable {state state' : ShardState}

theorem Made.exists_put (h : state.Made) (args : PutArgs) : ∃ out, state.put args = some out := by
  unfold put
  split
  · exact ⟨_, rfl⟩
  · obtain ⟨out, hdo⟩ := h.requests.exists_doPut (exists_applyPut args h.values)
    exact ⟨_, by rw [hdo]; rfl⟩

theorem Made.put {args : PutArgs} {reply : PutReply} (h : state.Made)
    (hput : state.put args = some (state', reply)) : state'.Made := by
  unfold ShardState.put at hput
  split at hput
  · cases hput
    exact h
  · obtain ⟨⟨requests, values, reply'⟩, hdo, hput⟩ := Option.bind_eq_some_iff.mp hput
    cases hput
    have hdone := Table.done_of_doPut hdo
    refine ⟨?_, h.requests.done hdone⟩
    rcases hdone.state with heq | ⟨reply'', happly⟩
    · rw [heq]
      exact h.values
    · exact applyPut_ne_nil happly h.values

theorem Made.freezeShard (h : state.Made) (num : Tnum) : (state.freezeShard num).1.Made := by
  unfold ShardState.freezeShard
  dsimp only
  split_ifs
  · exact h
  · exact h
  · exact ⟨h.values, h.requests⟩

theorem freezeShard_data {num num' : Tnum} {data : TransferData} {err : Err}
    (h : (state.freezeShard num).2 = .freezeShard data num' err) :
    data = none ∨ data = encodeShardTransfer state.values state.requests := by
  unfold ShardState.freezeShard at h
  dsimp only at h
  split_ifs at h
  · cases h
    exact .inr rfl
  · cases h
    exact .inl rfl
  · cases h
    exact .inr rfl

theorem Made.installShard (h : state.Made) {data : TransferData}
    (hdata : (decodeShardTransfer data).requests.Made) (num : Tnum) :
    (state.installShard data num).1.Made := by
  unfold ShardState.installShard
  split_ifs
  · exact h
  · exact h
  · refine ⟨?_, hdata⟩
    cases data with
    | none => exact GoMap.orMake_ne_nil .make
    | some transfer => exact GoMap.orMake_ne_nil transfer.values

theorem Made.deleteShard (h : state.Made) (num : Tnum) : (state.deleteShard num).1.Made := by
  unfold ShardState.deleteShard
  split_ifs
  · exact h
  · exact h
  · exact ⟨GoMap.orMake_ne_nil .make, .empty⟩

end ShardState

namespace KVServer

/-- The data in a request comes from a table whose reply maps are made. -/
def Carries : Request → Prop
  | .installShard _ data _ => (decodeShardTransfer data).requests.Made
  | _ => True

variable {kv kv' : KVServer}

theorem exists_doOp (h : ∀ shard, (kv shard).Made) (req : Request) :
    ∃ out, kv.doOp req = some out := by
  cases req with
  | put args =>
      obtain ⟨out, hput⟩ := (h (key2Shard args.key)).exists_put args
      refine ⟨(Function.update kv (key2Shard args.key) out.1, .put out.2), ?_⟩
      simp [doOp, hput]
  | _ => exact ⟨_, rfl⟩

theorem made_update {shard : Tshid} {state : ShardState} (h : ∀ shard, (kv shard).Made)
    (hstate : state.Made) (other : Tshid) : (Function.update kv shard state other).Made := by
  rcases eq_or_ne other shard with rfl | hne
  · rw [Function.update_self]
    exact hstate
  · rw [Function.update_of_ne hne]
    exact h other

theorem made_doOp {req : Request} {reply : Reply} (h : ∀ shard, (kv shard).Made)
    (hreq : Carries req) (hop : kv.doOp req = some (kv', reply)) : ∀ shard, (kv' shard).Made := by
  cases req with
  | get args =>
      cases hop
      exact h
  | put args =>
      obtain ⟨⟨state, reply'⟩, hput, hop⟩ := Option.bind_eq_some_iff.mp hop
      cases hop
      exact made_update h ((h _).put hput)
  | freezeShard shard num =>
      cases hop
      exact made_update h ((h shard).freezeShard num)
  | installShard shard data num =>
      cases hop
      exact made_update h ((h shard).installShard hreq num)
  | deleteShard shard num =>
      cases hop
      exact made_update h ((h shard).deleteShard num)

theorem doOp_data {req : Request} {data : TransferData} {num : Tnum} {err : Err}
    (hop : kv.doOp req = some (kv', .freezeShard data num err)) :
    data = none ∨ ∃ shard, data = encodeShardTransfer (kv shard).values (kv shard).requests := by
  cases req with
  | freezeShard shard num' =>
      have hreply := congrArg Prod.snd (Option.some.inj hop)
      exact (ShardState.freezeShard_data hreply).imp_right fun hdata => ⟨shard, hdata⟩
  | put args =>
      obtain ⟨out, -, hop⟩ := Option.bind_eq_some_iff.mp hop
      cases hop
  | get args => cases hop
  | installShard shard data' num' => cases hop
  | deleteShard shard num' => cases hop

theorem made_start (gid : Tgid) (shard : Tshid) : (start gid shard).Made := by
  unfold start
  split_ifs <;> exact ⟨GoMap.orMake_ne_nil .make, .empty⟩

theorem restore_snapshot [ShardGob] (h : ∀ shard, (kv shard).Made) :
    kv'.restore kv.snapshot = some kv := by
  rw [restore, snapshot, if_neg (ShardGob.encodeShards_ne kv), ShardGob.decode_shards]
  have hshards : (fun shard => { kv shard with values := (kv shard).values.orMake }) = kv := by
    ext1 shard
    rw [GoMap.orMake_of_ne_nil _ (h shard).values]
  exact congrArg some hshards

end KVServer

/-- Data to install is empty or what a group gave when it froze the shard. -/
def groupMachine [ShardGob] : Snapshot.Machine KVServer Request Reply Bytes where
  start kv := ∃ gid, kv = .start gid
  doOp := KVServer.doOp
  snapshot := KVServer.snapshot
  restore := KVServer.restore
  plain
    | .installShard _ data _ => data = none
    | _ => True
  carries
    | .freezeShard data _ _, .installShard _ data' _ => data' = data
    | _, _ => False

theorem groupMachine_kept [ShardGob] :
    groupMachine.Kept fun kv => ∀ shard, (kv shard).Made where
  start := by
    rintro _ ⟨gid, rfl⟩
    exact KVServer.made_start gid
  doOp kv kv' req reply h hreq hop := by
    refine KVServer.made_doOp h ?_ hop
    cases req with
    | installShard shard data num =>
        obtain rfl : data = none := hreq
        exact .empty
    | _ => trivial
  carry kv kv' other other' req req' reply reply' h hother hgive hreq hop := by
    refine KVServer.made_doOp h ?_ hop
    cases req with
    | installShard shard data num =>
        cases reply' with
        | freezeShard data' num' err =>
            obtain rfl : data = data' := hreq
            rcases KVServer.doOp_data hgive with rfl | ⟨shard', rfl⟩
            · exact .empty
            · exact (hother shard').requests
        | _ => exact hreq.elim
    | _ => trivial
  restore kv kv' h := KVServer.restore_snapshot h
  total kv req h := KVServer.exists_doOp h req

instance countable_valueEntry : Countable ValueEntry :=
  Function.Injective.countable (f := fun e : ValueEntry => (e.value, e.version))
    fun e e' h => by cases e; cases e'; cases h; rfl

instance countable_shardStatus : Countable ShardStatus :=
  Function.Injective.countable (f := ShardStatus.ctorIdx)
    fun s s' h => by cases s <;> cases s' <;> first | rfl | cases h

instance countable_shardState : Countable ShardState :=
  Function.Injective.countable
    (f := fun st : ShardState => (st.values, st.status, st.configNum, st.requests))
    fun st st' h => by cases st; cases st'; cases h; rfl

@[reducible] noncomputable def someShardGob : ShardGob where
  encodeShards := Kvraft.encodeCountable
  decodeShards data := (Kvraft.decodeCountable data).map Prod.fst
  decode_shards kv := by
    have h := Kvraft.decode_encodeCountable kv []
    rw [List.append_nil] at h
    rw [h]
    rfl
  encodeShards_ne := Kvraft.encodeCountable_ne

/-! ### Both services -/

theorem snapshots_exact [Kvraft.Gob] [ShardGob] :
    (∀ st, Kvraft.raftMachine.Reached st → Kvraft.raftMachine.Exact st) ∧
      (∀ kv, groupMachine.Reached kv → groupMachine.Exact kv) ∧
      ∀ (st : Kvraft.State) (values : Kvraft.Values), values ≠ .nil →
        st.restore (Kvraft.Gob.encodeValues values) = some ⟨values, .empty⟩ :=
  ⟨fun _ => Kvraft.raftMachine_kept.exact, fun _ => groupMachine_kept.exact,
    fun st _ => st.restore_encodeValues⟩

/-- A server after a numbered `Put`, and one that was given a shard. -/
theorem snapshots_exact_transfer :
    (∃ st, Kvraft.State.start.doOp (.put ⟨[97], [1], 0, 7, 1, 0⟩) = some (st, .put ⟨.ok⟩) ∧
        (@Kvraft.raftMachine Kvraft.someGob).Exact st) ∧
      ∃ kv kv' data, (KVServer.start 1).doOp (.freezeShard (key2Shard [97]) 2) =
          some (kv, .freezeShard data 2 .ok) ∧
        (KVServer.start 2).doOp (.installShard (key2Shard [97]) data 2) =
          some (kv', .installShard .ok) ∧
        (@groupMachine someShardGob).Exact kv' := by
  let _ := Kvraft.someGob
  let _ := someShardGob
  obtain ⟨st, hput⟩ : ∃ st, Kvraft.raftMachine.doOp Kvraft.State.start
    (.put ⟨[97], [1], 0, 7, 1, 0⟩) = some (st, .put ⟨.ok⟩) := ⟨_, rfl⟩
  obtain ⟨kv, data, hfreeze⟩ : ∃ kv data, groupMachine.doOp (KVServer.start 1)
    (.freezeShard (key2Shard [97]) 2) = some (kv, .freezeShard data 2 .ok) := ⟨_, _, rfl⟩
  obtain ⟨kv', hinstall⟩ : ∃ kv', groupMachine.doOp (KVServer.start 2)
    (.installShard (key2Shard [97]) data 2) = some (kv', .installShard .ok) := by
    cases hfreeze
    exact ⟨_, rfl⟩
  refine ⟨⟨st, hput, snapshots_exact.1 st (.doOp (.start rfl) trivial hput)⟩,
    kv, kv', data, hfreeze, hinstall, snapshots_exact.2.1 kv' ?_⟩
  have hcarries : groupMachine.carries (.freezeShard data 2 .ok)
    (.installShard (key2Shard [97]) data 2) := rfl
  exact .carry (.start ⟨2, rfl⟩) (.start ⟨1, rfl⟩) hfreeze hcarries hinstall

end RaftShardedKv
