import RaftShardedKv.Shard.Replicated

/-!
The deployment is the service with groups that execute one request at a
time.

A group is what its committed operations make of it. A step of a cluster
may commit some more, and these are the requests that the group executes
then, one after the other; the steps of the clerks, of the controllers and
of the metadata are the same on both sides. What a submission returns is
what its operation returned, so a reply that is on its way in the
deployment is one that the group has given.
-/

namespace RaftShardedKv.Shardkv

open Dedup Transition Linearizability

/-! ### The machine of a group -/

section

variable [ShardGob]

theorem machine_lawful (gid : Tgid) : (machine gid).Lawful where
  restore_snapshot st st' := by
    obtain ⟨shards, made⟩ := st
    have hmake : (fun shard => { shards shard with values := (shards shard).values.orMake }) =
        shards := by
      ext1 shard
      rw [GoMap.orMake_of_ne_nil _ (made shard)]
    change st'.restore (ShardGob.encodeShards shards) = _
    simp only [GroupServer.restore, if_neg (ShardGob.encodeShards_ne shards),
      ShardGob.decode_shards, hmake]
  snapshot_ne st := ShardGob.encodeShards_ne st.shards

end

theorem GroupServer.doOp_some {kv : GroupServer} {req : Request} {shards : KVServer} {reply : Reply}
    (h : kv.shards.doOp req = some (shards, reply)) :
    (kv.doOp req).1.shards = shards ∧ (kv.doOp req).2 = some reply := by
  unfold GroupServer.doOp
  split
  · rename_i hnone
    rw [h] at hnone
    cases hnone
  · rename_i hsome
    rw [h] at hsome
    cases hsome
    exact ⟨rfl, rfl⟩

/-! ### One operation more -/

section

variable {k : ℕ} {σ Req Rep : Type} {sm : StateMachine σ Req Rep} {ops : List (Op k Req)}
  {op : Op k Req}

theorem run_concat : sm.run (ops ++ [op]) = (sm.doOp (sm.run ops) op.req).1 := by
  simp [StateMachine.run]

theorem answer_concat {id : OpID k} {reply : Rep} (h : Answer sm (ops ++ [op]) id reply) :
    Answer sm ops id reply ∨ id = op.id ∧ reply = (sm.doOp (sm.run ops) op.req).2 := by
  obtain ⟨j, op', hj, hid, hreply⟩ := h
  rcases Pool.concat_cases hj with hj | ⟨rfl, rfl⟩
  · rw [List.take_append_of_le_length (List.getElem?_eq_some_iff.mp hj).1.le] at hreply
    exact Or.inl ⟨j, op', hj, hid, hreply⟩
  · rw [List.take_left] at hreply
    exact Or.inr ⟨hid.symm, hreply⟩

theorem requests_submit [Labgob (Op k Req)] {s s' : RsmSystem k σ Req Rep} {i : Fin k} {req : Req}
    {timeout : Bool} (hs : s.step sm (.submit i req timeout) = some s') :
    s'.requests = Function.update s.requests
      ⟨i, (s.rsms i).epoch, (s.rsms i).nextSequence + 1⟩ (some req) ∧ s'.raft = s.raft := by
  cases hs
  refine ⟨?_, rfl⟩
  ext1 id
  unfold RsmSystem.requests RsmSystem.setSubmission
  dsimp only
  rw [Function.update_apply, Function.update_apply]
  split <;> rfl

end

/-! ### The controllers -/

section

variable {Ctl : Type} {id : Ctl → GoString} {c c' : Control Ctl} [DecidableEq Ctl]

/-- The controllers and the metadata do not look at the groups. -/
theorem step_shards (groups groups' : Tgid → KVServer) (replies replies' : List (ℕ × Reply))
    {a : ShardAction Ctl} (hexecute : ∀ k, a ≠ .execute k)
    (hclient : ∀ gid req, a ≠ .client gid req) (hreply : ∀ ctl k, a ≠ .reply ctl k) :
    (c.shards groups replies).step id a =
      ((c.shards groups' replies').step id a).map fun s => (control s).shards groups replies := by
  cases a with
  | run ctl =>
      simp only [ShardSystem.step, ShardSystem.run, Control.shards]
      cases (c.ctrlers ctl).pc with
      | migrate r shard =>
          dsimp only
          split
          · cases r.migrate _ <;> rfl
          · rfl
      | remove r shard =>
          dsimp only
          split
          · cases r.remove _ <;> rfl
          · rfl
      | _ =>
          dsimp only
          repeat' split
          all_goals rfl
  | putReply ctl k =>
      simp only [ShardSystem.step, Control.shards]
      cases c.putReplies[k]? with
      | none => rfl
      | some x =>
          simp only [Option.bind_eq_bind, Option.bind_some]
          cases (c.ctrlers ctl).pc <;> dsimp only <;> (repeat' split) <;> rfl
  | executePut k =>
      simp only [ShardSystem.step, Control.shards]
      cases c.puts[k]? with
      | none => rfl
      | some x =>
          simp only [Option.bind_eq_bind, Option.bind_some]
          by_cases hk : k ∈ c.putReplies.map Prod.fst ∨ maxVersion ≤ c.stored.length <;>
            simp only [hk, if_true, if_false] <;> rfl
  | execute k => exact absurd rfl (hexecute k)
  | client gid req => exact absurd rfl (hclient gid req)
  | reply ctl k => exact absurd rfl (hreply ctl k)
  | _ =>
      simp only [ShardSystem.step, Control.shards]
      split <;> rfl

theorem Control.step_eq {replies : List (ℕ × Reply)} {a : ShardAction Ctl}
    (hs : c.step id replies a = some c') (hexecute : ∀ k, a ≠ .execute k)
    (hclient : ∀ gid req, a ≠ .client gid req) (hreply : ∀ ctl k, a ≠ .reply ctl k)
    (groups : Tgid → KVServer) (replies' : List (ℕ × Reply)) :
    (c.shards groups replies').step id a = some (c'.shards groups replies') := by
  obtain ⟨s, hstep, rfl⟩ := Option.map_eq_some_iff.mp hs
  rw [step_shards groups KVServer.start replies' replies hexecute hclient hreply, hstep]
  rfl

theorem Control.step_reply {ctl : Ctl} {k j : ℕ} {reply : Reply} {replies : List (ℕ × Reply)}
    (hs : c.step id [(k, reply)] (.reply ctl 0) = some c') (hj : replies[j]? = some (k, reply))
    (groups : Tgid → KVServer) :
    (c.shards groups replies).step id (.reply ctl j) = some (c'.shards groups replies) := by
  obtain ⟨s, hstep, rfl⟩ := Option.map_eq_some_iff.mp hs
  simp only [ShardSystem.step, Control.shards, List.getElem?_cons_zero, hj, Option.bind_eq_bind,
    Option.bind_some] at hstep ⊢
  cases hpc : (c.ctrlers ctl).pc with
  | call r shard job call =>
      simp only [hpc] at hstep
      split at hstep
      · cases hstep
      · rename_i hk
        obtain ⟨pc, hanswer, hstep⟩ := Option.bind_eq_some_iff.mp hstep
        cases hstep
        simp [hk, hanswer, ShardSystem.setPc, ShardSystem.setCtrler, control]
  | _ => simp [hpc] at hstep

end

/-! ### No server panics -/

section

variable {Ctl : Type} {G : Configs} {id : Ctl → GoString} {s s' : ShardSystem Ctl}

/-- What a controller wants installed comes with reply maps. -/
def PcCarries : Pc → Prop
  | .check _ _ (.install data) | .call _ _ (.install data) _ =>
      (decodeShardTransfer data).requests.Made
  | _ => True

/-- No `nil` map is in a group, nor on its way to one. -/
structure Carried (s : ShardSystem Ctl) : Prop where
  groups : ∀ gid shard, (s.groups gid shard).Made
  sent : ∀ x ∈ s.sent, KVServer.Carries x.2
  replies : ∀ x ∈ s.replies, ∀ data num err, x.2 = .freezeShard data num err →
    (decodeShardTransfer data).requests.Made
  ctrlers : ∀ c, PcCarries (s.ctrlers c).pc

theorem carries_swapped (sck : ShardCtrler) (state : ControllerState) (swap : Swap) :
    PcCarries (sck.swapped state swap true).pc := by
  cases swap with
  | clear task => cases task <;> trivial
  | _ => trivial

theorem Carried.moves {ctl : GoString} {sck sck' : ShardCtrler} (h : Carried s)
    (hpc : PcCarries sck.pc) (hm : Moves G ctl s sck sck') : PcCarries sck'.pc := by
  cases hm with
  | call task =>
      unfold ShardCtrler.ensureLeadership
      split <;> trivial
  | recovered task => cases task <;> trivial
  | create => exact Table.Made.empty
  | frozen r i call data num k clerks _ hreply =>
      exact h.replies _ (List.mem_of_getElem? hreply) data num .ok rfl
  | lost r i job call hcall =>
      rw [hcall] at hpc
      cases job <;> exact hpc
  | swapped _ _ state _ swap => exact carries_swapped sck state swap
  | confirmed state swap => exact carries_swapped sck state swap
  | _ => trivial

variable [DecidableEq Ctl]

theorem Carried.setCtrler (h : Carried s) (c : Ctl) {sck : ShardCtrler} (hpc : PcCarries sck.pc)
    (c' : Ctl) : PcCarries ((s.setCtrler c sck).ctrlers c').pc := by
  unfold ShardSystem.setCtrler
  dsimp only
  rcases eq_or_ne c' c with rfl | hne
  · rw [Function.update_self]
    exact hpc
  · rw [Function.update_of_ne hne]
    exact h.ctrlers c'

omit [DecidableEq Ctl] in
theorem Carried.doOp (h : Carried s) {gid : Tgid} {req : Request} {kv : KVServer} {reply : Reply}
    (hreq : KVServer.Carries req) (hdo : (s.groups gid).doOp req = some (kv, reply)) (gid' : Tgid)
    (shard : Tshid) : (Function.update s.groups gid kv gid' shard).Made := by
  rcases eq_or_ne gid' gid with rfl | hne
  · rw [Function.update_self]
    exact KVServer.made_doOp (h.groups gid') hreq hdo shard
  · rw [Function.update_of_ne hne]
    exact h.groups gid' shard

theorem Carried.step (h : Carried s) (hs : ShardStep G id s s') : Carried s' := by
  cases hs with
  | move c sck hm => exact ⟨h.groups, h.sent, h.replies, h.setCtrler c (h.moves (h.ctrlers c) hm)⟩
  | sendPut c version state resent swap =>
      exact ⟨h.groups, h.sent, h.replies, h.setCtrler c trivial⟩
  | send c r i job hcheck =>
      have hpc := h.ctrlers c
      rw [hcheck] at hpc
      refine ⟨h.groups, fun x hx => ?_, h.replies, h.setCtrler c ?_⟩
      · rcases List.mem_append.mp hx with hx | hx
        · exact h.sent x hx
        · obtain rfl := List.mem_singleton.mp hx
          cases job <;> exact hpc
      · cases job <;> exact hpc
  | executePut => exact ⟨h.groups, h.sent, h.replies, h.ctrlers⟩
  | execute k gid req kv reply hk hdo =>
      refine ⟨h.doOp (h.sent _ (List.mem_of_getElem? hk)) hdo, h.sent, fun x hx => ?_, h.ctrlers⟩
      rcases List.mem_append.mp hx with hx | hx
      · exact h.replies x hx
      · obtain rfl := List.mem_singleton.mp hx
        intro data num err heq
        change reply = _ at heq
        subst heq
        rcases KVServer.doOp_data hdo with rfl | ⟨shard, rfl⟩
        · exact Table.Made.empty
        · exact (h.groups gid shard).requests
  | client gid req kv reply hreq hdo =>
      refine ⟨h.doOp ?_ hdo, h.sent, h.replies, h.ctrlers⟩
      rcases hreq with ⟨args, rfl⟩ | ⟨args, rfl⟩ <;> trivial

theorem Carried.reachable (hs : (shardSys G id).Reachable s) : Carried s := by
  refine hs.invariant (fun s hi => ?_) fun s a s' _ h hstep => h.step (.of_step hstep)
  rw [hi]
  exact ⟨KVServer.made_start, fun _ hx => absurd hx List.not_mem_nil,
    fun _ hx => absurd hx List.not_mem_nil, fun _ => trivial⟩

end

/-! ### What the groups have executed -/

section

variable {n : Tgid → ℕ} {Ctl Ck : Type} {G : Configs} {id : Ctl → GoString}
  {clientID : Ck ↪ {id : ℕ // id ≠ 0}} {epoch : ∀ gid, Fin (n gid) → ℕ}
  {s s' : Deployment n Ctl Ck} {t t' : Service Ctl Ck}

theorem request_mono {c c' : Control Ctl} {clerks clerks' : ClerkState Ck}
    (hsent : c.sent <+: c'.sent)
    (hlater : clerks.Later clerks') (hgets : clerks.gets <+: clerks'.gets) {src : Source}
    {x : Tgid × Request} (h : Deployment.request c clerks src = some x) :
    Deployment.request c' clerks' src = some x := by
  cases src with
  | controller k =>
      obtain ⟨rest, hrest⟩ := hsent
      change c'.sent[k]? = some x
      rw [← hrest]
      exact Pool.append h rest
  | get k =>
      obtain ⟨y, hk, h⟩ := Option.bind_eq_some_iff.mp h
      obtain ⟨call, hg, h⟩ := Option.bind_eq_some_iff.mp h
      obtain ⟨asked, hasked⟩ := hlater.asked
      obtain ⟨gets, hgets⟩ := hgets
      simp only [Deployment.request, ← hasked, ← hgets, Pool.append hk, Option.bind_eq_bind,
        Option.bind_some, Pool.append hg]
      exact h
  | put k =>
      obtain ⟨y, hk, h⟩ := Option.bind_eq_some_iff.mp h
      obtain ⟨sent, hsent⟩ := hlater.sent
      simp only [Deployment.request, ← hsent, Pool.append hk]
      exact h

theorem later_refl (c : ClerkState Ck) : c.Later c :=
  ⟨.refl _, List.prefix_rfl, List.prefix_rfl, fun _ h => h⟩

variable [DecidableEq Ctl] [DecidableEq Ck]

theorem gets_step {c c' : ClerkState Ck} {a : ClerkAction Ck} (hs : ClerkStep clientID c a c') :
    c.gets <+: c'.gets := by
  cases hs with
  | get ck key => exact ⟨_, rfl⟩
  | _ => exact List.prefix_rfl

theorem sent_step {c c' : ShardSystem Ctl} (hs : ShardStep G id c c') : c.sent <+: c'.sent := by
  cases hs with
  | send c r i job hcheck => exact ⟨_, rfl⟩
  | _ => exact List.prefix_rfl

/-- The group has executed the request and given this reply. -/
def Service.Executed (t : Service Ctl Ck) : Source → Reply → Prop
  | .controller k, reply => (k, reply) ∈ t.shards.replies
  | .get k, reply => ∃ e ∈ t.getExecs, e.rpc = k ∧ reply = .get e.reply
  | .put k, reply => ∃ e ∈ t.putExecs, e.rpc = k ∧ reply = .put e.reply

/-- What a group does when it executes a request. -/
structure Executes (t : Service Ctl Ck) (gid : Tgid) (kv : KVServer) (src : Source) (reply : Reply)
    (t' : Service Ctl Ck) : Prop where
  clerks : t'.clerks = t.clerks
  control : Shardkv.control t'.shards = Shardkv.control t.shards
  groups : t'.shards.groups = Function.update t.shards.groups gid kv
  executed : t'.Executed src reply
  kept : ∀ src reply, t.Executed src reply → t'.Executed src reply

theorem exists_executes {src : Source} {gid : Tgid} {req : Request} {kv : KVServer} {reply : Reply}
    (hsrc : Deployment.request (control t.shards) t.clerks src = some (gid, req))
    (hdo : (t.shards.groups gid).doOp req = some (kv, reply)) :
    ∃ a t', (serviceSys G id clientID).step t a t' ∧ Executes t gid kv src reply t' := by
  cases src with
  | controller k =>
      have hk : t.shards.sent[k]? = some (gid, req) := hsrc
      refine ⟨.controller (.execute k), { t with shards := { t.shards with
          groups := Function.update t.shards.groups gid kv
          replies := t.shards.replies ++ [(k, reply)] } }, ⟨trivial, ?_⟩, rfl, rfl, rfl, ?_, ?_⟩
      · simp [Sys.ofStep, Service.step, ShardSystem.step, hk, hdo]
      · exact List.mem_append_right _ (List.mem_singleton_self _)
      · rintro (k' | k' | k') reply' h
        · exact List.mem_append_left _ h
        · exact h
        · exact h
  | get k =>
      obtain ⟨⟨g, gid'⟩, hk, hsrc⟩ := Option.bind_eq_some_iff.mp hsrc
      obtain ⟨call, hg, hsrc⟩ := Option.bind_eq_some_iff.mp hsrc
      cases hsrc
      cases hdo
      refine ⟨.executeGet k, { t.setGroup gid (t.shards.groups gid) with
          getExecs := t.getExecs ++
            [⟨k, (t.shards.groups gid (key2Shard call.key)).get ⟨call.key⟩⟩] },
        ⟨trivial, ?_⟩, rfl, rfl, rfl, ?_, ?_⟩
      · simp [Sys.ofStep, Service.step, hk, hg, KVServer.doOp]
      · exact ⟨_, List.mem_append_right _ (List.mem_singleton_self _), rfl, rfl⟩
      · rintro (k' | k' | k') reply' h
        · exact h
        · obtain ⟨e, he, h⟩ := h
          exact ⟨e, List.mem_append_left _ he, h⟩
        · exact h
  | put k =>
      obtain ⟨x, hk, hsrc⟩ := Option.bind_eq_some_iff.mp hsrc
      cases hsrc
      obtain ⟨⟨state, reply'⟩, hput, hput'⟩ := Option.bind_eq_some_iff.mp hdo
      cases hput'
      refine ⟨.executePut k, { t.setGroup x.dst _ with
          putExecs := t.putExecs ++ [⟨k, x, reply',
            putRuns (t.shards.groups x.dst (key2Shard x.args.key)) x.args⟩] },
        ⟨trivial, ?_⟩, rfl, rfl, rfl, ?_, ?_⟩
      · simp [Sys.ofStep, Service.step, hk, hdo]
      · exact ⟨_, List.mem_append_right _ (List.mem_singleton_self _), rfl, rfl⟩
      · rintro (k' | k' | k') reply'' h
        · exact h
        · exact h
        · obtain ⟨e, he, h⟩ := h
          exact ⟨e, List.mem_append_left _ he, h⟩

variable [ShardGob]

/-- The service `t` does what the deployment `s` does, if the groups have
executed these operations; none has panicked. -/
structure Matches (s : Deployment n Ctl Ck) (ops : ∀ gid, List (Op (n gid) Request))
    (t : Service Ctl Ck) : Prop where
  clerks : t.clerks = s.clerks
  control : Shardkv.control t.shards = s.control
  groups : ∀ gid, t.shards.groups gid = ((machine gid).run (ops gid)).shards
  executed : ∀ gid op reply src, Answer (machine gid) (ops gid) op (some reply) →
    s.handlers gid op = some src → t.Executed src reply
  sound : ∀ gid op, ¬ Answer (machine gid) (ops gid) op none

variable {ops : ∀ gid, List (Op (n gid) Request)}

theorem Matches.execute {ctl : Ctl ↪ GoString} (h : Matches s ops t)
    (ht : (serviceSys .assigned ctl clientID).Reachable t) {gid : Tgid} {op : Op (n gid) Request}
    {src : Source} (hsrc : s.handlers gid op.id = some src)
    (hreq : Deployment.request s.control s.clerks src = some (gid, op.req)) :
    ∃ t', (serviceSys .assigned ctl clientID).Star t t' ∧
      Matches s (Function.update ops gid (ops gid ++ [op])) t' := by
  have hmade := Carried.reachable (ServiceInv.reachable ht).1.shards
  obtain ⟨⟨kv, reply⟩, hdo⟩ := KVServer.exists_doOp (hmade.groups gid) op.req
  rw [← h.control, ← h.clerks] at hreq
  obtain ⟨a, t', hstep, hexec⟩ := exists_executes hreq hdo
  rw [h.groups gid] at hdo
  obtain ⟨hshards, hreply⟩ := GroupServer.doOp_some hdo
  refine ⟨t', .single hstep, hexec.clerks.trans h.clerks, hexec.control.trans h.control,
    fun gid' => ?_, fun gid' id' reply' src' hanswer hsrc' => ?_, fun gid' id' hanswer => ?_⟩
  · rw [hexec.groups]
    rcases eq_or_ne gid' gid with rfl | hne
    · rw [Function.update_self, Function.update_self, run_concat]
      exact hshards.symm
    · rw [Function.update_of_ne hne, Function.update_of_ne hne, h.groups gid']
  · rcases eq_or_ne gid' gid with rfl | hne
    · rw [Function.update_self] at hanswer
      rcases answer_concat hanswer with hanswer | ⟨rfl, heq⟩
      · exact hexec.kept _ _ (h.executed gid' id' reply' src' hanswer hsrc')
      · cases hsrc.symm.trans hsrc'
        cases heq.trans hreply
        exact hexec.executed
    · rw [Function.update_of_ne hne] at hanswer
      exact hexec.kept _ _ (h.executed gid' id' reply' src' hanswer hsrc')
  · rcases eq_or_ne gid' gid with rfl | hne
    · rw [Function.update_self] at hanswer
      rcases answer_concat hanswer with hanswer | ⟨-, heq⟩
      · exact h.sound gid' id' hanswer
      · cases heq.trans hreply
    · rw [Function.update_of_ne hne] at hanswer
      exact h.sound gid' id' hanswer

theorem Matches.executes {ctl : Ctl ↪ GoString} (h : Matches s ops t)
    (ht : (serviceSys .assigned ctl clientID).Reachable t) {gid : Tgid}
    (new : List (Op (n gid) Request)) (hnew : ∀ op ∈ new, ∃ src, s.handlers gid op.id = some src ∧
      Deployment.request s.control s.clerks src = some (gid, op.req)) :
    ∃ t', (serviceSys .assigned ctl clientID).Star t t' ∧
      Matches s (Function.update ops gid (ops gid ++ new)) t' := by
  induction new generalizing t ops with
  | nil =>
      rw [List.append_nil, Function.update_eq_self]
      exact ⟨t, .refl, h⟩
  | cons op new ih =>
      obtain ⟨src, hsrc, hreq⟩ := hnew op List.mem_cons_self
      obtain ⟨t', hstar, h'⟩ := h.execute ht hsrc hreq
      obtain ⟨t'', hstar', h''⟩ := ih h' (ht.star hstar) fun op' hop' =>
        hnew op' (List.mem_cons_of_mem _ hop')
      refine ⟨t'', hstar.trans hstar', ?_⟩
      rwa [Function.update_self, Function.update_idem, List.append_assoc] at h''

/-! ### The simulation -/

variable [∀ gid, Labgob (Op (n gid) Request)]

/-- Where the requests in the clusters come from. -/
structure Submitted (epoch : ∀ gid, Fin (n gid) → ℕ) (s : Deployment n Ctl Ck) : Prop where
  clusters : ∀ gid, (rsmSys (machine gid) (epoch gid)).Reachable (s.clusters gid)
  handled : ∀ gid id req, (s.clusters gid).requests id = some req →
    ∃ src, s.handlers gid id = some src ∧
      Deployment.request s.control s.clerks src = some (gid, req)

omit [DecidableEq Ctl] [DecidableEq Ck] in
theorem reachable_setCluster (h : Submitted epoch s) {gid : Tgid}
    {cluster : RsmSystem (n gid) GroupServer Request (Option Reply)}
    (hr : (rsmSys (machine gid) (epoch gid)).Reachable cluster) (gid' : Tgid) :
    (rsmSys (machine gid') (epoch gid')).Reachable ((s.setCluster gid cluster).clusters gid') := by
  unfold Deployment.setCluster
  dsimp only
  rcases eq_or_ne gid' gid with rfl | hne
  · rw [Function.update_self]
    exact hr
  · rw [Function.update_of_ne hne]
    exact h.clusters gid'

structure Refines (epoch : ∀ gid, Fin (n gid) → ℕ) (s : Deployment n Ctl Ck) (t : Service Ctl Ck) :
    Prop where
  submitted : Submitted epoch s
  same : Matches s (fun gid => (s.clusters gid).raft.operations) t

omit [DecidableEq Ctl] [DecidableEq Ck] in
theorem Refines.outcome (h : Refines epoch s t) {gid : Tgid} {op : OpID (n gid)}
    {reply : Option Reply} (hout : s.outcome gid op = some (.ok reply)) :
    Answer (machine gid) (s.clusters gid).raft.operations op reply := by
  obtain ⟨sub, hsub, hout⟩ := Option.bind_eq_some_iff.mp hout
  split at hout
  · rename_i outcome hphase
    cases hout
    have hreplies := replies_reachable (machine_lawful gid) (h.submitted.clusters gid)
    refine hreplies.call op sub reply hsub
      (Or.inr ?_)
    rw [hphase]
    rfl
  · cases hout

omit [DecidableEq Ctl] [DecidableEq Ck] in
theorem Refines.executed (h : Refines epoch s t) {gid : Tgid} {op : OpID (n gid)}
    {src : Source} {reply : Reply} (hsrc : s.handlers gid op = some src)
    (hout : s.outcome gid op = some (.ok (some reply))) : t.Executed src reply :=
  h.same.executed gid op reply src (h.outcome hout) hsrc

section

variable {ctl : Ctl ↪ GoString} (h : Refines epoch s t)
  (ht : (serviceSys .assigned ctl clientID).Reachable t)

include h ht

theorem Refines.cluster {gid : Tgid} {a : RsmAction (n gid) Request}
    {cluster : RsmSystem (n gid) GroupServer Request (Option Reply)}
    (ha : ∀ i req timeout, a ≠ .submit i req timeout)
    (hs : (s.clusters gid).step (machine gid) a = some cluster) :
    ∃ t', (serviceSys .assigned ctl clientID).Star t t' ∧
      Refines epoch (s.setCluster gid cluster) t' := by
  have hr := h.submitted.clusters gid
  have hr' : (rsmSys (machine gid) (epoch gid)).Reachable cluster := hr.step hs
  have hreqs := RsmSystem.requests_step hs ha
  obtain ⟨new, hnew⟩ := (RsmStep.of_step hs).operations (ReplicaInv.reachable hr)
  obtain ⟨t', hstar, hsame⟩ := h.same.executes ht new fun op hop => by
    obtain ⟨k, hk⟩ := List.mem_iff_getElem?.mp (hnew ▸ List.mem_append_right _ hop)
    refine h.submitted.handled gid op.id op.req ?_
    rw [← hreqs]
    exact operation_submitted hr' hk
  have hops : (fun gid' => ((s.setCluster gid cluster).clusters gid').raft.operations) =
      Function.update (fun gid' => (s.clusters gid').raft.operations) gid
        ((s.clusters gid).raft.operations ++ new) := by
    ext1 gid'
    unfold Deployment.setCluster
    dsimp only
    rcases eq_or_ne gid' gid with rfl | hne
    · rw [Function.update_self, Function.update_self, hnew]
    · rw [Function.update_of_ne hne, Function.update_of_ne hne]
  refine ⟨t', hstar, ⟨reachable_setCluster h.submitted hr', fun gid' id' req hreq => ?_⟩, ?_⟩
  · refine h.submitted.handled gid' id' req ?_
    unfold Deployment.setCluster at hreq
    dsimp only at hreq
    rcases eq_or_ne gid' gid with rfl | hne
    · rw [Function.update_self, hreqs] at hreq
      exact hreq
    · rwa [Function.update_of_ne hne] at hreq
  · rw [hops]
    exact ⟨hsame.clerks, hsame.control, hsame.groups, hsame.executed, hsame.sound⟩

omit ht in
theorem Refines.control {a : ShardAction Ctl} {c : Control Ctl} (ha : ServiceAction.Given .assigned
      (.controller a : ServiceAction Ctl Ck)) (hclient : ∀ gid req, a ≠ .client gid req)
    (hs : t.shards.step ctl a = some (c.shards t.shards.groups t.shards.replies)) :
    ∃ t', (serviceSys .assigned ctl clientID).Star t t' ∧
      Refines epoch { s with control := c } t' := by
  have hsent : s.control.sent <+: c.sent := by
    rw [← h.same.control]
    exact sent_step (ShardStep.of_step (G := .assigned) ⟨ha, hs⟩)
  refine ⟨{ t with shards := c.shards t.shards.groups t.shards.replies },
    .single (a := .controller a) ⟨ha, ?_⟩, ⟨h.submitted.clusters, fun gid id' req hreq => ?_⟩, ?_⟩
  · cases a with
    | client gid req => exact absurd rfl (hclient gid req)
    | _ =>
        change (t.shards.step ctl _).bind _ = _
        rw [hs]
        rfl
  · obtain ⟨src, hsrc, hreq⟩ := h.submitted.handled gid id' req hreq
    exact ⟨src, hsrc, request_mono hsent (later_refl _) List.prefix_rfl hreq⟩
  · exact ⟨h.same.clerks, rfl, h.same.groups, fun gid op reply src hanswer hsrc => by
      have := h.same.executed gid op reply src hanswer hsrc
      cases src <;> exact this, h.same.sound⟩

theorem Refines.clerk {a : ClerkAction Ck} {b : ServiceAction Ctl Ck}
    (hb : ServiceAction.Given .assigned b) (hs : s.clerkStep clientID a = some s')
    (hstep : ∀ clerks, t.clerkStep clientID a = some { t with clerks := clerks } →
      t.step ctl clientID b = some { t with clerks := clerks }) :
    ∃ t', (serviceSys .assigned ctl clientID).Star t t' ∧ Refines epoch s' t' := by
  obtain ⟨clerks, hclerks, hs⟩ := Option.bind_eq_some_iff.mp hs
  cases hs
  have hclerks' : t.clerkStep clientID a = some { t with clerks := clerks } := by
    unfold Service.clerkStep
    rw [h.same.clerks, hclerks]
    rfl
  have hinv := (ServiceInv.reachable ht).1.clerks
  rw [h.same.clerks] at hinv
  refine ⟨{ t with clerks := clerks }, .single (a := b) ⟨hb, hstep clerks hclerks'⟩,
    ⟨h.submitted.clusters, fun gid id' req hreq => ?_⟩, ?_⟩
  · obtain ⟨src, hsrc, hreq⟩ := h.submitted.handled gid id' req hreq
    exact ⟨src, hsrc, request_mono List.prefix_rfl (hinv.later (.of_step hclerks))
      (gets_step (.of_step hclerks)) hreq⟩
  · exact ⟨rfl, h.same.control, h.same.groups, fun gid op reply src hanswer hsrc => by
      have := h.same.executed gid op reply src hanswer hsrc
      cases src <;> exact this, h.same.sound⟩

end

omit [DecidableEq Ctl] [DecidableEq Ck] in
/-- A request that reaches a server is submitted, and nothing else happens. -/
theorem Refines.handle (h : Refines epoch s t) {src : Source} {gid : Tgid} {i : Fin (n gid)}
    {req : Request} {cluster : RsmSystem (n gid) GroupServer Request (Option Reply)}
    (hreq : Deployment.request s.control s.clerks src = some (gid, req))
    (hs : (s.clusters gid).step (machine gid) (.submit i req true) = some cluster) :
    Refines epoch { s.setCluster gid cluster with
      handlers := Function.update s.handlers gid (Function.update (s.handlers gid)
        ⟨i, ((s.clusters gid).rsms i).epoch, ((s.clusters gid).rsms i).nextSequence + 1⟩
        (some src)) } t := by
  have hr := h.submitted.clusters gid
  have hnext := (SubmitInv.reachable hr).requests_next i
  obtain ⟨hrequests, hraft⟩ := requests_submit hs
  have hops : (fun gid' => ((s.setCluster gid cluster).clusters gid').raft.operations) =
      fun gid' => (s.clusters gid').raft.operations := by
    ext1 gid'
    unfold Deployment.setCluster
    dsimp only
    rcases eq_or_ne gid' gid with rfl | hne
    · rw [Function.update_self, hraft]
    · rw [Function.update_of_ne hne]
  refine ⟨⟨reachable_setCluster h.submitted (hr.step hs), fun gid' id' req' hreq' => ?_⟩, ?_⟩
  · unfold Deployment.setCluster at hreq' ⊢
    dsimp only at hreq' ⊢
    rcases eq_or_ne gid' gid with rfl | hne
    · rw [Function.update_self, hrequests, Function.update_apply] at hreq'
      rw [Function.update_self, Function.update_apply]
      split at hreq'
      · cases hreq'
        exact ⟨src, if_pos ‹_›, hreq⟩
      · rw [if_neg ‹_›]
        exact h.submitted.handled gid' id' req' hreq'
    · rw [Function.update_of_ne hne] at hreq' ⊢
      exact h.submitted.handled gid' id' req' hreq'
  · change Matches _ (fun gid' => ((s.setCluster gid cluster).clusters gid').raft.operations) t
    rw [hops]
    refine ⟨h.same.clerks, h.same.control, h.same.groups,
      fun gid' id' reply src' hanswer hsrc => ?_, h.same.sound⟩
    refine h.same.executed gid' id' reply src' hanswer ?_
    dsimp only at hsrc
    rcases eq_or_ne gid' gid with rfl | hne
    · -- an operation that is committed is that of an earlier call
      have hold : (s.clusters gid').requests id' ≠ none := by
        obtain ⟨j, op, hj, rfl, -⟩ := hanswer
        rw [operation_submitted hr hj]
        simp
      rw [Function.update_self, Function.update_of_ne] at hsrc
      · exact hsrc
      · rintro rfl
        exact hold hnext
    · rwa [Function.update_of_ne hne] at hsrc

/-- **The deployment refines the service.** -/
theorem deployment_simulation (ctl : Ctl ↪ GoString) (clientID : Ck ↪ {id : ℕ // id ≠ 0})
    (epoch : ∀ gid, Fin (n gid) → ℕ) :
    Simulation (deploymentSys .assigned ctl clientID epoch) (serviceSys .assigned ctl clientID)
      (Refines epoch) where
  init s hs := by
    refine ⟨.init, rfl, ?_⟩
    rw [hs]
    refine ⟨⟨fun gid => .init rfl, fun gid op req hreq => by cases hreq⟩, rfl, rfl, fun gid => rfl,
      fun gid op reply src hanswer => ?_, fun gid op hanswer => ?_⟩
    all_goals
      obtain ⟨k, op, hk, -⟩ := hanswer
      cases hk
  step s a s' t _ ht h hs := by
    obtain ⟨hgiven, hs⟩ := hs
    change s.step ctl clientID a = some s' at hs
    cases a with
    | cluster gid a =>
        simp only [Deployment.step] at hs
        split at hs
        · cases hs
        · rename_i hnot
          obtain ⟨cluster, hcluster, hs⟩ := Option.bind_eq_some_iff.mp hs
          cases hs
          exact h.cluster ht hnot hcluster
    | controller a =>
        simp only [Deployment.step] at hs
        split at hs
        · cases hs
        · cases hs
        · cases hs
        · rename_i hexecute hclient hreply
          obtain ⟨c, hc, hs⟩ := Option.bind_eq_some_iff.mp hs
          cases hs
          refine h.control hgiven hclient ?_
          have hstep := Control.step_eq hc hexecute hclient hreply t.shards.groups t.shards.replies
          rwa [← h.same.control] at hstep
    | clerk a =>
        simp only [Deployment.step] at hs
        split at hs
        · cases hs
        · cases hs
        · cases hs
        · rename_i hquery hget hput
          refine h.clerk ht (b := .clerk a) trivial hs fun clerks hclerks => ?_
          cases a with
          | query c queried => exact absurd rfl (hquery c queried)
          | getReply g reply => exact absurd rfl (hget g reply)
          | putReply p reply => exact absurd rfl (hput p reply)
          | _ => exact hclerks
    | query c =>
        refine h.clerk ht (b := .query c) trivial hs fun clerks hclerks => ?_
        rw [← h.same.control] at hclerks
        exact hclerks
    | handle src gid i =>
        obtain ⟨⟨dst, req⟩, hreq, hs⟩ := Option.bind_eq_some_iff.mp hs
        dsimp only at hs
        split at hs
        · rename_i hdst
          subst hdst
          obtain ⟨cluster, hcluster, hs⟩ := Option.bind_eq_some_iff.mp hs
          cases hs
          exact ⟨t, .refl, h.handle hreq hcluster⟩
        · cases hs
    | reply c gid op =>
        simp only [Deployment.step] at hs
        split at hs
        · rename_i k reply hsrc hout
          obtain ⟨c', hc, hs⟩ := Option.bind_eq_some_iff.mp hs
          cases hs
          obtain ⟨j, hj⟩ := List.mem_iff_getElem?.mp (h.executed hsrc hout)
          refine h.control (a := .reply c j) trivial (by simp) ?_
          have hstep := Control.step_reply hc hj t.shards.groups
          rwa [← h.same.control] at hstep
        · cases hs
    | getReply g gid op =>
        simp only [Deployment.step] at hs
        split at hs
        · rename_i k r k' hsrc hpc
          split at hs
          · rename_i hk
            subst hk
            obtain ⟨outcome, hout, hs⟩ := Option.bind_eq_some_iff.mp hs
            obtain ⟨reply, hreply, hs⟩ := Option.bind_eq_some_iff.mp hs
            unfold getReplyOf at hreply
            split at hreply
            · cases hreply
              obtain ⟨e, he, hrpc, heq⟩ := h.executed hsrc hout
              cases heq
              obtain ⟨i, hi⟩ := List.mem_iff_getElem?.mp he
              refine h.clerk ht (b := .getReply g i) trivial hs fun clerks hclerks => ?_
              simp only [Service.step, hi, h.same.clerks, hpc, hrpc, if_pos, Option.bind_eq_bind,
                Option.bind_some]
              exact hclerks
            · cases hreply
            · cases hreply
              exact h.clerk ht (b := .refuse (.get g)) trivial hs fun clerks hclerks => hclerks
          · cases hs
        · cases hs
    | putReply p gid op =>
        simp only [Deployment.step] at hs
        split at hs
        · rename_i k r k' hsrc hpc
          split at hs
          · rename_i hk
            subst hk
            obtain ⟨outcome, hout, hs⟩ := Option.bind_eq_some_iff.mp hs
            obtain ⟨reply, hreply, hs⟩ := Option.bind_eq_some_iff.mp hs
            unfold putReplyOf at hreply
            split at hreply
            · cases hreply
              obtain ⟨e, he, hrpc, heq⟩ := h.executed hsrc hout
              cases heq
              obtain ⟨i, hi⟩ := List.mem_iff_getElem?.mp he
              refine h.clerk ht (b := .putReply p i) trivial hs fun clerks hclerks => ?_
              simp only [Service.step, hi, h.same.clerks, hpc, hrpc, if_pos, Option.bind_eq_bind,
                Option.bind_some]
              exact hclerks
            · cases hreply
            · cases hreply
              exact h.clerk ht (b := .refuse (.put p)) trivial hs fun clerks hclerks => hclerks
          · cases hs
        · cases hs

theorem exists_trace (ctl : Ctl ↪ GoString) (clientID : Ck ↪ {id : ℕ // id ≠ 0})
    (epoch : ∀ gid, Fin (n gid) → ℕ) {s : Deployment n Ctl Ck}
    (hs : (deploymentSys .assigned ctl clientID epoch).Reachable s) :
    ∃ trace, Trace kvSpec trace ∧ history trace = s.clerks.history := by
  obtain ⟨t, ht, h⟩ := (deployment_simulation ctl clientID epoch).reachable hs
  obtain ⟨-, trace, htrace⟩ := ServiceInv.reachable ht
  exact ⟨trace, htrace.trace, by rw [htrace.history, h.same.clerks]⟩

/-- **The deployed service is linearizable.** Whatever becomes of servers,
clusters and controllers, the calls of `Get` and `Put` are those of one
versioned map, and no server is about to execute an operation that makes
`DoOp` panic. -/
theorem deployment_linearizable (ctl : Ctl ↪ GoString) (clientID : Ck ↪ {id : ℕ // id ≠ 0})
    (epoch : ∀ gid, Fin (n gid) → ℕ) {s : Deployment n Ctl Ck}
    (hs : (deploymentSys .assigned ctl clientID epoch).Reachable s) :
    Linearizable kvSpec s.clerks.history ∧
      ∀ gid i op index, ((s.clusters gid).rsms i).applier = .received (.command (some op) index) →
        (((s.clusters gid).rsms i).state.doOp op.req).2 ≠ none := by
  obtain ⟨t, ht, h⟩ := (deployment_simulation ctl clientID epoch).reachable hs
  refine ⟨?_, fun gid i op index happlier hnone => ?_⟩
  · obtain ⟨trace, htrace, hhistory⟩ := exists_trace ctl clientID epoch hs
    rw [← hhistory]
    exact htrace.linearizable
  · have hinv := ReplicaInv.reachable (h.submitted.clusters gid)
    have hreceived := (hinv.replica i).applier
    rw [happlier] at hreceived
    obtain ⟨-, -, op', hop, hget⟩ := hreceived
    cases hop
    refine h.same.sound gid op.id ⟨_, op, hget, rfl, ?_⟩
    rw [← (hinv.replica i).state (machine_lawful gid)]
    exact hnone.symm

end

/-! ### A shard that moves between two clusters -/

instance countable_shardTransfer : Countable ShardTransfer :=
  Function.Injective.countable (f := fun t : ShardTransfer => (t.values, t.requests))
    fun t t' h => by cases t; cases t'; cases h; rfl

instance countable_request : Countable Request := by
  let code : Request → GoString ⊕ (GoString × GoString × Tversion × ℕ × ℕ × ℕ) ⊕
      (Tshid × Tnum) ⊕ (Tshid × TransferData × Tnum) ⊕ (Tshid × Tnum)
    | .get args => .inl args.key
    | .put args =>
        .inr (.inl (args.key, args.value, args.version, args.clientID, args.sequence, args.ack))
    | .freezeShard shard num => .inr (.inr (.inl (shard, num)))
    | .installShard shard data num => .inr (.inr (.inr (.inl (shard, data, num))))
    | .deleteShard shard num => .inr (.inr (.inr (.inr (shard, num))))
  refine Function.Injective.countable (f := code) fun r r' h => ?_
  rcases r with ⟨⟨⟩⟩ | ⟨⟨⟩⟩ | _ | _ | _ <;> rcases r' with ⟨⟨⟩⟩ | ⟨⟨⟩⟩ | _ | _ | _ <;>
    cases h <;> rfl

instance countable_op {k : ℕ} : Countable (Op k Request) :=
  Function.Injective.countable
    (f := fun op : Op k Request => (op.server, op.epoch, op.sequence, op.req))
    fun op op' h => by cases op; cases op'; cases h; rfl

instance countable_entry {k : ℕ} : Countable (LogEntry (Op k Request)) :=
  Function.Injective.countable (f := fun e : LogEntry (Op k Request) => (e.term, e.command))
    fun e e' h => by cases e; cases e'; cases h; rfl

@[reducible] noncomputable def someShardLabgob {k : ℕ} : Labgob (Op k Request) where
  encodeLogEntry := Kvraft.encodeCountable
  decodeLogEntry data := (Kvraft.decodeCountable data).map Prod.fst
  decode_encode e := by
    have h := Kvraft.decode_encodeCountable e []
    rw [List.append_nil] at h
    rw [h]
    rfl

/-- The one server of a group answers a request, its call number `q`. -/
def serveActions (src : Source) (gid : Tgid) (q : ℕ) :
    List (DeploymentAction (fun _ => 1) (Fin 3) (Fin 1)) :=
  .handle src gid 0 :: [.start ⟨0, 0, q⟩, .raft (.claim 0), .receive 0, .execute 0,
    .compact 0 false, .notify 0, .result ⟨0, 0, q⟩, .removeWaiter ⟨0, 0, q⟩].map (.cluster gid)

/-- A call loads the configuration and sends its request. -/
def routeActions (c : CallID) : List (DeploymentAction (fun _ => 1) (Fin 3) (Fin 1)) :=
  [.clerk (.load c), .query c, .clerk (.merge c), .clerk (.route c), .clerk (.send c)]

/-- A key of the first shard is written at group 1, the shard moves to
group 2, and the key is read there. -/
def moveClusters : List (DeploymentAction (fun _ => 1) (Fin 3) (Fin 1)) := List.flatten
  [[.cluster 1 (.raft (.startElection 0)), .cluster 2 (.raft (.startElection 0))],
    (moveActions.take 3).map .controller,
    .clerk (.put 0 [13] [7] 0) :: routeActions (.put 0),
    serveActions (.put 0) 1 1,
    [.putReply 0 1 ⟨0, 0, 1⟩, .clerk (.complete 0)],
    ((moveActions.take 12).drop 3).map .controller,
    serveActions (.controller 0) 1 2,
    [.reply 0 1 ⟨0, 0, 2⟩, .controller (.run 0)],
    serveActions (.controller 1) 2 1,
    .reply 0 2 ⟨0, 0, 1⟩ :: List.replicate 12 (.controller (.run 0)),
    [.controller (.executePut 2), .clerk (.get 0 [13]), .clerk (.load (.get 0)),
      .clerk (.route (.get 0)), .clerk (.send (.get 0))],
    serveActions (.get 0) 1 3,
    .getReply 0 1 ⟨0, 0, 3⟩ :: routeActions (.get 0),
    serveActions (.get 1) 2 2,
    [.getReply 0 2 ⟨0, 0, 2⟩]]

theorem moveClusters_given : ∀ a ∈ moveClusters, DeploymentAction.Given .assigned a := by
  simp [moveClusters, routeActions, serveActions, moveActions, DeploymentAction.Given,
    ShardAction.Given, Configs.assigned, sampleConfig_first, sampleConfig_assigned]

def movedClusters [ShardGob] [Labgob (Op 1 Request)] : Deployment (fun _ => 1) (Fin 3) (Fin 1) :=
  play (Deployment.step sampleIds sampleClients) (.init fun _ _ => 0) moveClusters

theorem reachable_movedClusters [ShardGob] [Labgob (Op 1 Request)] :
    (deploymentSys .assigned sampleIds sampleClients fun _ _ => 0).Reachable movedClusters :=
  reachable_playIn _ _ moveClusters moveClusters_given

theorem deployment_linearizable_move :
    let _ : ShardGob := someShardGob
    let _ : Labgob (Op 1 Request) := someShardLabgob
    movedClusters.clerks.history = [.invoke (.put 0) (.put [13] [7] 0), .ret (.put 0) (.put .ok),
      .invoke (.get 0) (.get [13]), .ret (.get 0) (.get ⟨[7], 1, .ok⟩)] ∧
    Linearizable kvSpec movedClusters.clerks.history := by
  intro _ _
  exact ⟨by decide +kernel,
    (deployment_linearizable sampleIds sampleClients _ reachable_movedClusters).1⟩

end RaftShardedKv.Shardkv
