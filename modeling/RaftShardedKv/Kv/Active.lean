import RaftShardedKv.Kvraft.ExactlyOnce
import RaftShardedKv.Shard.Tables

/-!
A request whose call has not returned is never stale, in either service.

The watermark that a table has for a client came with requests of that
client, and none of them was past a call that had not returned.
-/

namespace RaftShardedKv

open Dedup Transition

theorem Kvraft.KvInv.answers {n : ℕ} {Ck : Type} [Kvraft.Gob] [Labgob (Op n Kvraft.Request)]
    [DecidableEq Ck] {clientID : Ck ↪ {id : ℕ // id ≠ 0}} {epoch : Fin n → ℕ}
    {s : Kvraft.KvSystem n Ck} (h : Kvraft.KvInv clientID epoch s) {x : Sent (Fin n)}
    (hx : x ∈ s.clerks.sent) {call : PutCall Ck} (hcall : s.clerks.calls[x.call]? = some call)
    (hnot : call.completed = false) (i : Fin n) :
    (s.rsm.rsms i).state.requests.Answers x.args (Kvraft.putLocked x.args)
      (s.rsm.rsms i).state.values (s.runsBefore (s.rsm.rsms i).applied x.call) := by
  obtain ⟨hid, hack⟩ := h.clerks.sent_ack hx
  obtain ⟨call', hcall', hfor, -⟩ := h.clerks.sent x hx
  obtain rfl := Option.some.inj (hcall.symm.trans hcall')
  have hseq := h.clerks.active hcall hnot
  have hsame : x.args.clientID = call.args.clientID ∧ x.args.sequence = call.args.sequence := by
    rw [hfor]
    exact ⟨rfl, rfl⟩
  rw [← hsame.1, ← hsame.2] at hseq
  have hreplica := (ReplicaInv.reachable h.rsm).replica i
  rw [hreplica.state Kvraft.machine_lawful, Kvraft.KvSystem.runsBefore_eq hcall, ← hsame.1,
    ← hsame.2]
  have hputs := h.puts_id
  refine (Kvraft.recorded_stateAt hputs hreplica.applied_le _ _).answers
    (Kvraft.within_stateAt (fun k op args hop hreq => (h.puts_ack k op args hop hreq).2)
      hreplica.applied_le) hid hack hseq (fun reply hreply => ?_) fun values reply hput => ?_
  · rcases Kvraft.runsAt_reply hputs hreplica.applied_le hreply with rfl | rfl | rfl <;> nofun
  · rcases Kvraft.putLocked_cases hput with ⟨rfl, -⟩ | ⟨rfl | rfl, -⟩ <;> nofun

/-- **A request that is active is not stale.** As long as a call of `Put`
has not returned, no table says of one of its requests that it is stale;
a table in whose history the request has been run still has the reply and
returns it; and so neither clerk ever panics. The tables are those of all
replicas in the one service, and those of all shards at all groups and on
the way between them in the other. -/
theorem active_not_stale {n : ℕ} {Ck : Type} [Kvraft.Gob] [Labgob (Op n Kvraft.Request)]
    [DecidableEq Ck] (clientID : Ck ↪ {id : ℕ // id ≠ 0}) (epoch : Fin n → ℕ)
    {s : Kvraft.KvSystem n Ck} (hs : (Kvraft.kvSys clientID epoch).Reachable s) {Ck' : Type}
    [DecidableEq Ck'] (clientID' : Ck' ↪ {id : ℕ // id ≠ 0}) {s' : Shardkv.Tables Ck'}
    (hs' : (Shardkv.tablesSys clientID').Reachable s') :
    ((∀ x ∈ s.clerks.sent, ∀ call, s.clerks.calls[x.call]? = some call → call.completed = false →
        ∀ i, (s.rsm.rsms i).state.requests.Answers x.args (Kvraft.putLocked x.args)
          (s.rsm.rsms i).state.values (s.runsBefore (s.rsm.rsms i).applied x.call)) ∧
      ∀ p, s.phase p ≠ .panicked) ∧
    (∀ x ∈ s'.clerks.puts.sent, ∀ call, s'.clerks.puts.calls[x.call]? = some call →
        call.completed = false →
        (∀ gid shard, (s'.groups gid shard).requests.Answers x.args (ShardState.applyPut x.args)
          (s'.groups gid shard).values
          (s'.logs gid shard x.args.clientID x.args.sequence)) ∧
        ∀ d ∈ s'.frozen, (decodeShardTransfer d.1).requests.Answers x.args
          (ShardState.applyPut x.args) (decodeShardTransfer d.1).values
          (d.2 x.args.clientID x.args.sequence)) ∧
      ∀ p, s'.clerks.pc (.put p) ≠ .panicked := by
  have h := Kvraft.KvInv.reachable hs
  have h' := Shardkv.TablesInv.reachable hs'
  refine ⟨⟨fun x hx call hcall hnot i => h.answers hx hcall hnot i, h.sound⟩,
    fun x hx call hcall hnot => ⟨fun gid shard => ?_, fun d hd => ?_⟩, h'.sound⟩
  · exact h'.answers hx hcall hnot (h'.copies gid shard) _
  · exact h'.answers hx hcall hnot (h'.frozen d hd) _

/-- A `Put` is run at group 1; the shard goes to group 2. -/
def carryActions : List (Shardkv.TablesAction Unit) :=
  [.clerk (.put () [13] [7] 0), .clerk (.load (.put 0)),
    .clerk (.query (.put 0) (some ⟨1, fun _ => 1, Finmap.singleton 1 [[1]]⟩)),
    .clerk (.merge (.put 0)), .clerk (.route (.put 0)), .clerk (.send (.put 0)), .execute 0 1,
    .freeze 1 (key2Shard [13]) 2, .install 2 (key2Shard [13]) (some 0) 2]

theorem active_not_stale_carried :
    let _ : Kvraft.Gob := Kvraft.someGob
    let _ : Labgob (Op 1 Kvraft.Request) := Kvraft.someLabgob
    let clientID : Unit ↪ {id : ℕ // id ≠ 0} := ⟨fun _ => ⟨1, by decide⟩, fun _ _ _ => rfl⟩
    let s := play (Kvraft.KvSystem.step clientID) (Kvraft.KvSystem.init fun _ => 0)
      (Kvraft.putTwice.take 12)
    let s' := play (Shardkv.Tables.step clientID) .init carryActions
    ((s.rsm.rsms 0).state.requests.session 1).replies.get 1 = some ⟨.ok⟩ ∧
      ((s'.groups 2 (key2Shard [13])).requests.session 1).replies.get 1 = some ⟨.ok⟩ := by
  intro _ _ clientID s s'
  have hx : ⟨0, 0, ⟨[107], [118], 0, 1, 1, 0⟩⟩ ∈ s.clerks.sent := by decide +kernel
  have hcall : s.clerks.calls[0]? = some ⟨(), ⟨[107], [118], 0, 1, 1, 0⟩, false⟩ := by
    decide +kernel
  have hruns : ⟨.ok⟩ ∈ s.runsBefore (s.rsm.rsms 0).applied 0 := by decide +kernel
  have hx' : ⟨0, 1, ⟨[13], [7], 0, 1, 1, 0⟩⟩ ∈ s'.clerks.puts.sent := by decide +kernel
  have hcall' : s'.clerks.puts.calls[0]? = some ⟨(), ⟨[13], [7], 0, 1, 1, 0⟩, false⟩ := by
    decide +kernel
  have hlog : ⟨.ok⟩ ∈ s'.logs 2 (key2Shard [13]) 1 1 := by decide +kernel
  have hs : (Kvraft.kvSys clientID fun _ => 0).Reachable s := reachable_play _ _ _
  have hs' : (Shardkv.tablesSys clientID).Reachable s' := reachable_play _ _ _
  clear_value s s'
  obtain ⟨⟨hkv, -⟩, hshard, -⟩ := active_not_stale clientID (fun _ => 0) hs clientID hs'
  have hanswers := hkv _ hx _ hcall rfl 0
  have hanswers' := (hshard _ hx' _ hcall' rfl).1 2 (key2Shard [13])
  exact ⟨(hanswers.cached ⟨.ok⟩ hruns).1, (hanswers'.cached ⟨.ok⟩ hlog).1⟩

end RaftShardedKv
