import RaftShardedKv.Lib.Pool
import RaftShardedKv.Shard.System

/-!
What the controllers do to the metadata.

A controller stores only what follows from a record that it has read:
it takes over, plans the next configuration where none is pending,
publishes the one that is pending, or clears the plan once it is
published. That holds for a late copy of a `Put` as well, since a `Put`
names the version of the record it follows from, and so the records under
the key form one chain.

That no plan is ever replaced needs one thing more. A controller plans
after it has seen, in one read, that nothing is pending, but it stores
the plan against a later read. What happens in between is its own doing
alone: an epoch belongs to one owner, and the owner of an epoch that has
no `Put` under way adds no record of that epoch.
-/

namespace RaftShardedKv

open Transition

variable {Ctl : Type}

/-! ### The steps -/

variable [DecidableEq Ctl]

/-- The metadata is owned by the controller, which reads it. -/
structure Owned (id : GoString) (stored : List ControllerState) (sck : ShardCtrler)
    (state : ControllerState) (version : ℕ) : Prop where
  read : readState stored = some (state, version)
  owner : state.owner = id
  epoch : state.epoch = sck.epoch

/-- How a controller moves on without sending anything. -/
inductive Moves (G : Configs) (id : GoString) (s : ShardSystem Ctl) (sck : ShardCtrler) :
    ShardCtrler → Prop
  | call (task : Task) (h : sck.pc = .idle) (htask : ∀ next, task = some next → G.next next) :
      Moves G id s sck (sck.ensureLeadership task)
  | stop (deposed : Bool) (h : ∀ call version state resent swap,
        sck.pc = .put call version state resent swap →
          ∃ (k : ℕ) (err : Err), s.putReplies[k]? = some (call, err)) :
      Moves G id s sck { sck with deposed := deposed, pc := .idle }
  | lead (task : Task) (h : sck.pc = .lead task) : Moves G id s sck { sck with pc := .recover task }
  | recovered (task : Task) (state : ControllerState) (version : ℕ) (h : sck.pc = .recover task)
      (howned : Owned id s.stored sck state version) (hpending : state.pending = none) :
      Moves G id s sck { sck with pc := ShardCtrler.recovered task }
  | found (r : Recovery) (h : sck.pc = .recover r.task)
      (howned : Owned id s.stored sck r.state r.version)
      (hpending : r.state.pending = some r.record)
      (hcurrent : r.state.current = r.record.fromConfig) :
      Moves G id s sck { sck with pc := .migrate r 0 }
  | skip (r : Recovery) (h : sck.pc = .recover r.task) :
      Moves G id s sck { sck with pc := .published r }
  | stay (r : Recovery) (i : Tshid) (h : sck.pc = .migrate r i)
      (heq : r.record.fromConfig.shards i = r.record.toConfig.shards i) :
      Moves G id s sck { sck with pc := .migrate r (i + 1) }
  | freeze (r : Recovery) (i : Tshid) (clerks : List Tgid) (h : sck.pc = .migrate r i)
      (hne : r.record.fromConfig.shards i ≠ r.record.toConfig.shards i)
      (hsource : r.record.fromConfig.shards i ≠ 0) :
      Moves G id s sck { sck with pc := .check { r with clerks := clerks } i .freeze }
  | create (r : Recovery) (i : Tshid) (clerks : List Tgid) (h : sck.pc = .migrate r i)
      (hne : r.record.fromConfig.shards i ≠ r.record.toConfig.shards i)
      (hsource : r.record.fromConfig.shards i = 0) :
      Moves G id s sck { sck with pc := .check { r with clerks := clerks } i (.install none) }
  | frozen (r : Recovery) (i : Tshid) (call : ℕ) (data : TransferData) (num : Tnum) (k : ℕ)
      (clerks : List Tgid) (h : sck.pc = .call r i .freeze call)
      (hreply : s.replies[k]? = some (call, .freezeShard data num .ok))
      (htarget : r.record.toConfig.shards i ≠ 0) :
      Moves G id s sck { sck with pc := .check { r with clerks := clerks } i (.install data) }
  | drop (r : Recovery) (i : Tshid) (call : ℕ) (data : TransferData) (num : Tnum) (k : ℕ)
      (h : sck.pc = .call r i .freeze call)
      (hreply : s.replies[k]? = some (call, .freezeShard data num .ok))
      (htarget : r.record.toConfig.shards i = 0) :
      Moves G id s sck { sck with pc := .migrate r (i + 1) }
  | installed (r : Recovery) (i : Tshid) (data : TransferData) (call : ℕ) (k : ℕ)
      (h : sck.pc = .call r i (.install data) call)
      (hreply : s.replies[k]? = some (call, .installShard .ok)) :
      Moves G id s sck { sck with pc := .migrate r (i + 1) }
  | deleted (r : Recovery) (i : Tshid) (call : ℕ) (k : ℕ) (h : sck.pc = .call r i .delete call)
      (hreply : s.replies[k]? = some (call, .deleteShard .ok)) :
      Moves G id s sck { sck with pc := .remove r (i + 1) }
  | lost (r : Recovery) (i : Tshid) (job : Job) (call : ℕ) (h : sck.pc = .call r i job call) :
      Moves G id s sck { sck with pc := .check r i job }
  | published (r : Recovery) (state : ControllerState) (version : ℕ) (h : sck.pc = .published r)
      (howned : Owned id s.stored sck state version) (hpending : state.pending = some r.record)
      (hcurrent : state.current = r.record.toConfig) :
      Moves G id s sck { sck with pc := .remove { r with state := state, version := version } 0 }
  | keep (r : Recovery) (i : Tshid) (h : sck.pc = .remove r i)
      (heq : r.record.fromConfig.shards i = 0 ∨
        r.record.fromConfig.shards i = r.record.toConfig.shards i) :
      Moves G id s sck { sck with pc := .remove r (i + 1) }
  | delete (r : Recovery) (i : Tshid) (clerks : List Tgid) (h : sck.pc = .remove r i)
      (hne : r.record.fromConfig.shards i ≠ r.record.toConfig.shards i)
      (hsource : r.record.fromConfig.shards i ≠ 0) :
      Moves G id s sck { sck with pc := .check { r with clerks := clerks } i .delete }
  | swapped (call version : ℕ) (state : ControllerState) (resent : Bool) (swap : Swap) (k : ℕ)
      (h : sck.pc = .put call version state resent swap)
      (hreply : s.putReplies[k]? = some (call, .ok)) :
      Moves G id s sck (sck.swapped state swap true)
  | maybe (call version : ℕ) (state : ControllerState) (resent : Bool) (swap : Swap) (k : ℕ)
      (err : Err) (h : sck.pc = .put call version state resent swap)
      (hreply : s.putReplies[k]? = some (call, err)) :
      Moves G id s sck { sck with pc := .confirm state swap }
  | confirmed (state : ControllerState) (swap : Swap) (h : sck.pc = .confirm state swap)
      (hread : (readState s.stored).map Prod.fst = some state) :
      Moves G id s sck (sck.swapped state swap true)
  | rejected (call version : ℕ) (state : ControllerState) (resent : Bool) (task : Task) (k : ℕ)
      (err : Err) (h : sck.pc = .put call version state resent (.elect task))
      (hreply : s.putReplies[k]? = some (call, err)) :
      Moves G id s sck { sck with pc := .elect task }
  | unconfirmed (state : ControllerState) (task : Task)
      (h : sck.pc = .confirm state (.elect task)) :
      Moves G id s sck { sck with pc := .elect task }

/-- What a controller asks to be stored. -/
inductive Sends (G : Configs) (id : GoString) (s : ShardSystem Ctl) (sck : ShardCtrler) :
    ℕ → ControllerState → Bool → Swap → Prop
  | init (cfg : ShardConfig) (h : sck.pc = .idle) (hcfg : G.first cfg) :
      Sends G id s sck 0 ⟨id, 1, cfg, none⟩ false .init
  | elect (task : Task) (state : ControllerState) (version : ℕ) (h : sck.pc = .elect task)
      (hread : readState s.stored = some (state, version)) :
      Sends G id s sck version { state with owner := id, epoch := state.epoch + 1 } false
        (.elect task)
  | publish (r : Recovery) (i : ℕ) (h : sck.pc = .migrate r i) (hi : NShards ≤ i) :
      Sends G id s sck r.version { r.state with current := r.record.toConfig } false (.publish r)
  | clear (r : Recovery) (i : ℕ) (h : sck.pc = .remove r i) (hi : NShards ≤ i) :
      Sends G id s sck r.version { r.state with pending := none } false (.clear r.task)
  | plan (next : ShardConfig) (state : ControllerState) (version : ℕ) (h : sck.pc = .plan next)
      (howned : Owned id s.stored sck state version) (hnum : next.num = state.current.num.addOne) :
      Sends G id s sck version { state with pending := some ⟨state.current, next⟩ } false .plan
  | again (call version : ℕ) (state : ControllerState) (resent : Bool) (swap : Swap)
      (h : sck.pc = .put call version state resent swap) : Sends G id s sck version state true swap

/-- What a step of the system can do. -/
inductive ShardStep (G : Configs) (id : Ctl → GoString) (s : ShardSystem Ctl) :
    ShardSystem Ctl → Prop
  | move (c : Ctl) (sck : ShardCtrler) (h : Moves G (id c) s (s.ctrlers c) sck) :
      ShardStep G id s (s.setCtrler c sck)
  | sendPut (c : Ctl) (version : ℕ) (state : ControllerState) (resent : Bool) (swap : Swap)
      (h : Sends G (id c) s (s.ctrlers c) version state resent swap) :
      ShardStep G id s (s.sendPut c version state resent swap)
  | send (c : Ctl) (r : Recovery) (i : Tshid) (job : Job) (h : (s.ctrlers c).pc = .check r i job) :
      ShardStep G id s { s.setPc c (s.ctrlers c) (.call r i job s.sent.length) with
        sent := s.sent ++ [(r.gid i job, r.request i job)] }
  | executePut (k version : ℕ) (state : ControllerState) (hk : s.puts[k]? = some (version, state))
      (hfresh : k ∉ s.putReplies.map Prod.fst) (hfits : s.stored.length < maxVersion) :
      ShardStep G id s { s with
        stored := (putState s.stored version state).1
        putReplies := s.putReplies ++ [(k, (putState s.stored version state).2)] }
  | execute (k : ℕ) (gid : Tgid) (req : Request) (kv : KVServer) (reply : Reply)
      (hk : s.sent[k]? = some (gid, req)) (hdo : (s.groups gid).doOp req = some (kv, reply)) :
      ShardStep G id s { s with
        groups := Function.update s.groups gid kv
        replies := s.replies ++ [(k, reply)] }
  | client (gid : Tgid) (req : Request) (kv : KVServer) (reply : Reply)
      (hreq : (∃ args, req = .get args) ∨ ∃ args, req = .put args)
      (hdo : (s.groups gid).doOp req = some (kv, reply)) :
      ShardStep G id s { s with groups := Function.update s.groups gid kv }

/-- The controller that takes a step. -/
def ShardAction.ctrler : ShardAction Ctl → Option Ctl
  | .initConfig c _ | .initController c | .changeConfigTo c _ | .run c | .putReply c _ | .putLost c
  | .reply c _ | .lost c => some c
  | .executePut _ | .execute _ | .client _ _ => none

/-- What a step of this controller can do. -/
inductive CtrlerStep (G : Configs) (id : Ctl → GoString) (s : ShardSystem Ctl) (c : Ctl) :
    ShardSystem Ctl → Prop
  | move (sck : ShardCtrler) (h : Moves G (id c) s (s.ctrlers c) sck) :
      CtrlerStep G id s c (s.setCtrler c sck)
  | sendPut (version : ℕ) (state : ControllerState) (resent : Bool) (swap : Swap)
      (h : Sends G (id c) s (s.ctrlers c) version state resent swap) :
      CtrlerStep G id s c (s.sendPut c version state resent swap)
  | send (r : Recovery) (i : Tshid) (job : Job) (h : (s.ctrlers c).pc = .check r i job) :
      CtrlerStep G id s c { s.setPc c (s.ctrlers c) (.call r i job s.sent.length) with
        sent := s.sent ++ [(r.gid i job, r.request i job)] }

/-- What a step of the servers can do. -/
inductive ServerStep (s : ShardSystem Ctl) : ShardSystem Ctl → Prop
  | executePut (k version : ℕ) (state : ControllerState) (hk : s.puts[k]? = some (version, state))
      (hfresh : k ∉ s.putReplies.map Prod.fst) (hfits : s.stored.length < maxVersion) :
      ServerStep s { s with
        stored := (putState s.stored version state).1
        putReplies := s.putReplies ++ [(k, (putState s.stored version state).2)] }
  | execute (k : ℕ) (gid : Tgid) (req : Request) (kv : KVServer) (reply : Reply)
      (hk : s.sent[k]? = some (gid, req)) (hdo : (s.groups gid).doOp req = some (kv, reply)) :
      ServerStep s { s with
        groups := Function.update s.groups gid kv
        replies := s.replies ++ [(k, reply)] }
  | client (gid : Tgid) (req : Request) (kv : KVServer) (reply : Reply)
      (hreq : (∃ args, req = .get args) ∨ ∃ args, req = .put args)
      (hdo : (s.groups gid).doOp req = some (kv, reply)) :
      ServerStep s { s with groups := Function.update s.groups gid kv }

section

variable {G : Configs} {id : GoString} {s : ShardSystem Ctl} {sck : ShardCtrler}

/-- The controller waits for a reply. -/
def Pc.waits : Pc → Bool
  | .put _ _ _ _ _ | .call _ _ _ _ => true
  | _ => false

omit [DecidableEq Ctl] in
theorem Moves.not_waits {sck' : ShardCtrler} (h : Moves G id s sck sck') :
    sck'.pc.waits = false := by
  have hswapped : ∀ st swap, (sck.swapped st swap true).pc.waits = false := by
    intro st swap
    cases swap with
    | clear task => cases task <;> rfl
    | _ => rfl
  cases h with
  | call task =>
      unfold ShardCtrler.ensureLeadership
      split <;> rfl
  | recovered task => cases task <;> rfl
  | swapped call version state resent swap => exact hswapped state swap
  | confirmed state swap => exact hswapped state swap
  | _ => rfl

theorem ShardCtrler.readOwned_cases (sck : ShardCtrler) (id : GoString)
    (stored : List ControllerState) :
    (∃ deposed, sck.readOwned id stored = ({ sck with deposed := deposed }, none)) ∨
      ∃ state version, sck.readOwned id stored = (sck, some (state, version)) ∧
        Owned id stored sck state version := by
  unfold ShardCtrler.readOwned
  split
  · exact Or.inl ⟨sck.deposed, rfl⟩
  · split
    · exact Or.inl ⟨sck.deposed, rfl⟩
    · rename_i state version hread
      split
      · exact Or.inl ⟨true, rfl⟩
      · rename_i hown
        obtain ⟨howner, hepoch⟩ := not_or.mp hown
        exact Or.inr ⟨state, version, rfl, hread, not_not.mp howner, not_not.mp hepoch⟩

theorem Recovery.start_eq {r : Recovery} {i : Tshid} {job : Job} {pc : Pc}
    (h : r.start i job = some pc) : ∃ clerks, pc = .check { r with clerks := clerks } i job := by
  unfold Recovery.start at h
  dsimp only at h
  split at h
  · cases h
    exact ⟨r.clerks, rfl⟩
  · split at h
    · cases h
    · cases h
      exact ⟨_, rfl⟩

section

omit [DecidableEq Ctl]

theorem Moves.of_migrate {r : Recovery} {i : Tshid} {pc : Pc} (hpc : sck.pc = .migrate r i)
    (h : r.migrate i = some pc) : Moves G id s sck { sck with pc := pc } := by
  unfold Recovery.migrate at h
  dsimp only at h
  split at h
  · rename_i heq
    cases h
    exact .stay r i hpc heq
  · rename_i hne
    split at h
    · rename_i hsource
      obtain ⟨clerks, rfl⟩ := Recovery.start_eq h
      exact .freeze r i clerks hpc hne hsource
    · rename_i hsource
      have hsource := not_not.mp hsource
      unfold Recovery.install at h
      split at h
      · obtain ⟨clerks, rfl⟩ := Recovery.start_eq h
        exact .create r i clerks hpc hne hsource
      · rename_i htarget
        exact absurd (hsource.trans (not_not.mp htarget).symm) hne

theorem Moves.of_remove {r : Recovery} {i : Tshid} {pc : Pc} (hpc : sck.pc = .remove r i)
    (h : r.remove i = some pc) : Moves G id s sck { sck with pc := pc } := by
  unfold Recovery.remove at h
  dsimp only at h
  split at h
  · rename_i heq
    cases h
    exact .keep r i hpc heq
  · rename_i hne
    obtain ⟨clerks, rfl⟩ := Recovery.start_eq h
    exact .delete r i clerks hpc (not_or.mp hne).2 (not_or.mp hne).1

theorem Moves.stop_of (hpc : ∀ call version state resent swap,
    sck.pc ≠ .put call version state resent swap) (deposed : Bool) :
    Moves G id s sck { sck with deposed := deposed, pc := .idle } :=
  .stop deposed fun _ _ _ _ _ h => absurd h (hpc _ _ _ _ _)

theorem Moves.of_answered {r : Recovery} {i : Tshid} {job : Job} {call k : ℕ} {reply : Reply}
    {pc : Pc} (hpc : sck.pc = .call r i job call) (hk : s.replies[k]? = some (call, reply))
    (h : r.answered i job reply = some pc) : Moves G id s sck { sck with pc := pc } := by
  have hstop : Moves G id s sck { sck with pc := .idle } :=
    .stop_of (by simp [hpc]) sck.deposed
  unfold Recovery.answered at h
  split at h
  · split at h
    · split at h
      · cases h
        exact hstop
      · unfold Recovery.install at h
        split at h
        · rename_i htarget
          obtain ⟨clerks, rfl⟩ := Recovery.start_eq h
          exact .frozen r i call _ _ k clerks hpc hk htarget
        · rename_i htarget
          cases h
          exact .drop r i call _ _ k hpc hk (not_not.mp htarget)
    · cases h
      exact hstop
    · cases h
  · split at h
    · cases h
      exact .installed r i _ call k hpc hk
    · cases h
      exact hstop
    · cases h
  · split at h
    · cases h
      exact .deleted r i call k hpc hk
    · cases h
      exact hstop
    · cases h
  · cases h

theorem Moves.of_failed {call version : ℕ} {state : ControllerState} {resent : Bool} {swap : Swap}
    {k : ℕ} {err : Err} (hpc : sck.pc = .put call version state resent swap)
    (hk : s.putReplies[k]? = some (call, err)) :
    Moves G id s sck (sck.swapped state swap false) := by
  cases swap with
  | elect task => exact .rejected call version state resent task k err hpc hk
  | _ =>
      refine .stop sck.deposed fun call' _ _ _ _ h => ?_
      rw [hpc] at h
      cases h
      exact ⟨k, err, hk⟩

theorem Moves.of_confirm {state : ControllerState} {swap : Swap}
    (hpc : sck.pc = .confirm state swap)
    (ok : Bool) (hok : ok = true → (readState s.stored).map Prod.fst = some state) :
    Moves G id s sck (sck.swapped state swap ok) := by
  cases ok with
  | true => exact .confirmed state swap hpc (hok rfl)
  | false =>
      cases swap with
      | elect task => exact .unconfirmed state task hpc
      | _ => exact .stop_of (by simp [hpc]) sck.deposed

end

end

section

variable {G : Configs} {id : Ctl → GoString} {s s' : ShardSystem Ctl} {c : Ctl}

theorem CtrlerStep.of_pc {pc : Pc}
    (h : Moves G (id c) s (s.ctrlers c) { s.ctrlers c with pc := pc }) :
    CtrlerStep G id s c (s.setPc c (s.ctrlers c) pc) :=
  .move _ h

theorem CtrlerStep.shardStep (h : CtrlerStep G id s c s') : ShardStep G id s s' := by
  cases h with
  | move sck h => exact .move c sck h
  | sendPut version state resent swap h => exact .sendPut c version state resent swap h
  | send r i job h => exact .send c r i job h

theorem CtrlerStep.of_run (hs : s.run id c = some s') : CtrlerStep G id s c s' := by
  unfold ShardSystem.run at hs
  dsimp only at hs
  split at hs
  · rename_i task hpc
    rcases (s.ctrlers c).readOwned_cases (id c) s.stored with
      ⟨deposed, heq⟩ | ⟨state, version, heq, howned⟩
    · rw [heq] at hs
      cases hs
      exact .move _ (.stop_of (by simp [hpc]) deposed)
    · rw [heq] at hs
      cases hs
      exact .of_pc (.lead task hpc)
  · rename_i task hpc
    split at hs
    · cases hs
      exact .move _ (.stop_of (by simp [hpc]) true)
    · rename_i state version hread
      cases hs
      exact .sendPut _ _ _ _ (.elect task state version hpc hread)
  · rename_i state swap hpc
    cases hs
    exact .move _ (.of_confirm hpc _ of_decide_eq_true)
  · rename_i task hpc
    rcases (s.ctrlers c).readOwned_cases (id c) s.stored with
      ⟨deposed, heq⟩ | ⟨state, version, heq, howned⟩
    · rw [heq] at hs
      cases hs
      exact .move _ (.stop_of (by simp [hpc]) deposed)
    · rw [heq] at hs
      dsimp only at hs
      split at hs
      · rename_i hpending
        cases hs
        exact .of_pc (.recovered task state version hpc howned hpending)
      · rename_i record hpending
        split at hs
        · rename_i hcurrent
          cases hs
          exact .of_pc (.found ⟨task, state, version, record, []⟩ hpc howned hpending hcurrent)
        · cases hs
          exact .of_pc (.skip ⟨task, state, version, record, []⟩ hpc)
  · rename_i r shard hpc
    split at hs
    · rename_i hlt
      obtain ⟨pc, hmigrate, hs⟩ := Option.bind_eq_some_iff.mp hs
      cases hs
      exact .of_pc (.of_migrate hpc hmigrate)
    · rename_i hge
      cases hs
      exact .sendPut _ _ _ _ (.publish r shard hpc (not_lt.mp hge))
  · rename_i r shard job hpc
    rcases (s.ctrlers c).readOwned_cases (id c) s.stored with
      ⟨deposed, heq⟩ | ⟨state, version, heq, howned⟩
    · rw [heq] at hs
      cases hs
      exact .move _ (.stop_of (by simp [hpc]) deposed)
    · rw [heq] at hs
      cases hs
      exact .send r shard job hpc
  · rename_i r hpc
    rcases (s.ctrlers c).readOwned_cases (id c) s.stored with
      ⟨deposed, heq⟩ | ⟨state, version, heq, howned⟩
    · rw [heq] at hs
      cases hs
      exact .move _ (.stop_of (by simp [hpc]) deposed)
    · rw [heq] at hs
      dsimp only at hs
      split at hs
      · cases hs
        exact .of_pc (.stop_of (by simp [hpc]) (s.ctrlers c).deposed)
      · rename_i hor
        obtain ⟨hpending, hcurrent⟩ := not_or.mp hor
        cases hs
        exact .of_pc (.published r state version hpc howned (not_not.mp hpending)
          (not_not.mp hcurrent))
  · rename_i r shard hpc
    split at hs
    · rename_i hlt
      obtain ⟨pc, hremove, hs⟩ := Option.bind_eq_some_iff.mp hs
      cases hs
      exact .of_pc (.of_remove hpc hremove)
    · rename_i hge
      cases hs
      exact .sendPut _ _ _ _ (.clear r shard hpc (not_lt.mp hge))
  · rename_i next hpc
    rcases (s.ctrlers c).readOwned_cases (id c) s.stored with
      ⟨deposed, heq⟩ | ⟨state, version, heq, howned⟩
    · rw [heq] at hs
      cases hs
      exact .move _ (.stop_of (by simp [hpc]) deposed)
    · rw [heq] at hs
      dsimp only at hs
      split at hs
      · cases hs
        exact .of_pc (.stop_of (by simp [hpc]) (s.ctrlers c).deposed)
      · rename_i hor
        cases hs
        exact .sendPut _ _ _ _ (.plan next state version hpc howned
          (not_not.mp (not_or.mp hor).2))
  · cases hs

/-- A controller takes a reply to its `Put`. -/
theorem ShardSystem.of_putReply {k : ℕ} (hs : s.step id (.putReply c k) = some s') :
    ∃ call err version state resent swap, s.putReplies[k]? = some (call, err) ∧
      (s.ctrlers c).pc = .put call version state resent swap ∧
      (err = .ok ∧ s' = s.setCtrler c ((s.ctrlers c).swapped state swap true) ∨
        err = .errVersion ∧ resent = true ∧ s' = s.setPc c (s.ctrlers c) (.confirm state swap) ∨
        err = .errVersion ∧ resent = false ∧
          s' = s.setCtrler c ((s.ctrlers c).swapped state swap false) ∨
        err = .errNoKey ∧ s' = s.setCtrler c ((s.ctrlers c).swapped state swap false)) := by
  obtain ⟨⟨call, err⟩, hk, hs⟩ := Option.bind_eq_some_iff.mp hs
  dsimp only at hs
  split at hs
  · rename_i call' version state resent swap hpc
    split at hs
    · cases hs
    · rename_i heq
      obtain rfl := not_not.mp heq
      refine ⟨call, err, version, state, resent, swap, hk, hpc, ?_⟩
      split at hs
      · cases hs
        exact .inl ⟨rfl, rfl⟩
      · split at hs
        · rename_i hresent
          cases hs
          exact .inr (.inl ⟨rfl, hresent, rfl⟩)
        · rename_i hresent
          cases hs
          exact .inr (.inr (.inl ⟨rfl, by simpa using hresent, rfl⟩))
      · cases hs
        exact .inr (.inr (.inr ⟨rfl, rfl⟩))
      · cases hs
  · cases hs

theorem CtrlerStep.of_putReply {k : ℕ} (hs : s.step id (.putReply c k) = some s') :
    CtrlerStep G id s c s' := by
  obtain ⟨call, err, version, state, resent, swap, hk, hpc, hcases⟩ := ShardSystem.of_putReply hs
  rcases hcases with ⟨rfl, rfl⟩ | ⟨-, -, rfl⟩ | ⟨-, -, rfl⟩ | ⟨-, rfl⟩
  · exact .move _ (.swapped call version state resent swap k hpc hk)
  · exact .of_pc (.maybe call version state resent swap k err hpc hk)
  · exact .move _ (.of_failed hpc hk)
  · exact .move _ (.of_failed hpc hk)

theorem CtrlerStep.of_step {a : ShardAction Ctl} (hs : (shardSys G id).step s a s')
    (hc : a.ctrler = some c) : CtrlerStep G id s c s' := by
  obtain ⟨hgiven, hs⟩ := hs
  cases a with
  | initConfig c cfg =>
      cases hc
      change s.step id (.initConfig c cfg) = some s' at hs
      simp only [ShardSystem.step] at hs
      split at hs
      · rename_i hpc
        cases hs
        exact .sendPut _ _ _ _ (.init cfg hpc hgiven)
      · cases hs
  | initController c =>
      cases hc
      change s.step id (.initController c) = some s' at hs
      simp only [ShardSystem.step] at hs
      split at hs
      · rename_i hpc
        cases hs
        exact .move _ (.call none hpc (by simp))
      · cases hs
  | changeConfigTo c next =>
      cases hc
      change s.step id (.changeConfigTo c next) = some s' at hs
      simp only [ShardSystem.step] at hs
      split at hs
      · rename_i hpc
        cases hs
        refine .move _ (.call (some next) hpc fun next' heq => ?_)
        cases heq
        exact hgiven
      · cases hs
  | run c =>
      cases hc
      exact .of_run hs
  | putReply c k =>
      cases hc
      exact .of_putReply hs
  | putLost c =>
      cases hc
      change s.step id (.putLost c) = some s' at hs
      simp only [ShardSystem.step] at hs
      split at hs
      · rename_i call version state resent swap hpc
        cases hs
        exact .sendPut _ _ _ _ (.again call version state resent swap hpc)
      · cases hs
  | reply c k =>
      cases hc
      obtain ⟨⟨call, reply⟩, hk, hs⟩ := Option.bind_eq_some_iff.mp hs
      dsimp only at hs
      split at hs
      · rename_i r shard job call' hpc
        split at hs
        · cases hs
        · rename_i heq
          obtain rfl := not_not.mp heq
          obtain ⟨pc, hanswered, hs⟩ := Option.bind_eq_some_iff.mp hs
          cases hs
          exact .of_pc (.of_answered hpc hk hanswered)
      · cases hs
  | lost c =>
      cases hc
      change s.step id (.lost c) = some s' at hs
      simp only [ShardSystem.step] at hs
      split at hs
      · rename_i r shard job call hpc
        cases hs
        exact .of_pc (.lost r shard job call hpc)
      · cases hs
  | executePut k => cases hc
  | execute k => cases hc
  | client gid req => cases hc

theorem ServerStep.shardStep (h : ServerStep s s') : ShardStep G id s s' := by
  cases h with
  | executePut k version state hk hfresh hfits =>
      exact .executePut k version state hk hfresh hfits
  | execute k gid req kv reply hk hdo => exact .execute k gid req kv reply hk hdo
  | client gid req kv reply hreq hdo => exact .client gid req kv reply hreq hdo

theorem ServerStep.of_step {a : ShardAction Ctl} (hs : (shardSys G id).step s a s')
    (hc : a.ctrler = none) : ServerStep s s' := by
  obtain ⟨-, hs⟩ := hs
  cases a with
  | executePut k =>
      obtain ⟨⟨version, state⟩, hk, hs⟩ := Option.bind_eq_some_iff.mp hs
      dsimp only at hs
      split at hs
      · cases hs
      · rename_i hnot
        obtain ⟨hfresh, hfits⟩ := not_or.mp hnot
        cases hs
        exact .executePut k version state hk hfresh (Nat.lt_of_not_le hfits)
  | execute k =>
      obtain ⟨⟨gid, req⟩, hk, hs⟩ := Option.bind_eq_some_iff.mp hs
      obtain ⟨⟨kv, reply⟩, hdo, hs⟩ := Option.bind_eq_some_iff.mp hs
      cases hs
      exact .execute k gid req kv reply hk hdo
  | client gid req =>
      change s.step id (.client gid req) = some s' at hs
      simp only [ShardSystem.step] at hs
      split at hs
      · obtain ⟨⟨kv, reply⟩, hdo, hs⟩ := Option.bind_eq_some_iff.mp hs
        cases hs
        exact .client gid _ kv reply (Or.inl ⟨_, rfl⟩) hdo
      · obtain ⟨⟨kv, reply⟩, hdo, hs⟩ := Option.bind_eq_some_iff.mp hs
        cases hs
        exact .client gid _ kv reply (Or.inr ⟨_, rfl⟩) hdo
      · cases hs
  | _ => cases hc

theorem ShardStep.of_step {a : ShardAction Ctl} (hs : (shardSys G id).step s a s') :
    ShardStep G id s s' := by
  cases hc : a.ctrler with
  | some c => exact (CtrlerStep.of_step hs hc).shardStep
  | none => exact (ServerStep.of_step hs hc).shardStep

end

end RaftShardedKv
