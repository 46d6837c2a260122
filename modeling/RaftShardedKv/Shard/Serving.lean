import RaftShardedKv.Shard.Ownership

/-!
What the handover of every shard says about the system: who serves a
shard and from what it has started, and that the plan under way can be
carried out from wherever it was left.
-/

namespace RaftShardedKv

open Transition Handover

variable {Ctl : Type}

/-! ### One owner -/

section

variable {x : Tshid} {a : Held} {G : Configs} {id : Ctl → GoString} {s s' : ShardSystem Ctl}

theorem ShardState.cell_serving {st : ShardState} :
    st.cell.status = .serving ↔ st.status = .shardServing := by
  unfold ShardState.cell ShardStatus.held
  cases st.status <;> simp

theorem ShardState.cell_frozen {st : ShardState} :
    st.cell.status = .frozen ↔ st.status = .shardFrozen := by
  unfold ShardState.cell ShardStatus.held
  cases st.status <;> simp

theorem ShardState.cell_absent {st : ShardState} :
    st.cell.status = .absent ↔ st.status = .shardAbsent := by
  unfold ShardState.cell ShardStatus.held
  cases st.status <;> simp

theorem Ownership.cell_of_held (h : Ownership x s a) {g : Tgid}
    (hg : (s.groups g x).status ≠ .shardAbsent) : a.cell g = (s.groups g x).cell := by
  apply h.cell
  rintro rfl
  exact hg h.zero

theorem Ownership.serving (h : Ownership x s a) {g : Tgid}
    (hg : (s.groups g x).status = .shardServing) : (a.cell g).status = .serving := by
  rw [h.cell_of_held (by simp [hg])]
  exact ShardState.cell_serving.mpr hg

theorem Ownership.frozen_content (h : Ownership x s a) (hi : Handover.Inv a) {g : Tgid}
    (hg : (s.groups g x).status = .shardFrozen) :
    a.Moves (s.groups g x).configNum ∧
      a.frozen (s.groups g x).configNum = some (s.groups g x).cell.content := by
  have hcell := h.cell_of_held (g := g) (by simp [hg])
  have hfrozen := hi.frozen_cell g (by rw [hcell]; exact ShardState.cell_frozen.mpr hg)
  rw [hcell] at hfrozen
  exact ⟨hfrozen.1, hfrozen.2.2.1⟩

theorem ControllerInv.assigned (h : ControllerInv .assigned id s) {v : ℕ} {r : ControllerState}
    (hv : s.stored[v]? = some r) : r.current.shards x ≠ 0 ∧
      ∀ record, r.pending = some record →
        record.fromConfig.shards x ≠ 0 ∧ record.toConfig.shards x ≠ 0 := by
  induction v generalizing r with
  | zero =>
      obtain ⟨-, hpending, hfirst⟩ := h.chain 0 r hv
      refine ⟨?_, fun record hrecord => nomatch hpending.symm.trans hrecord⟩
      rw [hfirst.2 x]
      decide
  | succ v ih =>
      obtain ⟨r', hr', hfollows⟩ := h.chain (v + 1) r hv
      obtain ⟨hcurrent, hpending'⟩ := ih hr'
      cases hfollows with
      | takeover owner => exact ⟨hcurrent, hpending'⟩
      | plan next hpending hnum hnext =>
          refine ⟨hcurrent, fun record hrecord => ?_⟩
          cases hrecord
          exact ⟨hcurrent, hnext x⟩
      | publish record hpending => exact ⟨(hpending' record hpending).2, hpending'⟩
      | clear record hpending => exact ⟨hcurrent, fun record hrecord => nomatch hrecord⟩

/-- The groups of the last plan are groups. -/
theorem Ownership.owner_ne_zero (hinv : ControllerInv .assigned id s) (h : Ownership x s a) :
    a.owner a.last ≠ 0 ∧ (a.Moving → a.owner (a.last - 1) ≠ 0) := by
  have hreached := h.reached
  cases hlast : s.stored.getLast? with
  | none =>
      rw [hlast] at hreached
      obtain ⟨hl, hstage⟩ := hreached
      refine ⟨?_, fun hm => absurd hstage hm.1⟩
      rw [hl, h.first]
      decide
  | some r =>
      rw [hlast] at hreached
      obtain ⟨v, hv⟩ := List.mem_iff_getElem?.mp (List.mem_of_getLast? hlast)
      obtain ⟨hcurrent, hboth⟩ := hinv.assigned (x := x) hv
      have hrec := h.evidence.records r (List.mem_of_getElem? hv)
      cases hpending : r.pending with
      | none =>
          obtain ⟨hl, hstage⟩ := (reached_idle hpending).mp hreached
          refine ⟨?_, fun hm => absurd hstage hm.1⟩
          rw [hl, ← hrec.owner]
          exact hcurrent
      | some record =>
          obtain ⟨hl, -⟩ := (reached_pending hpending).mp hreached
          obtain ⟨hfrom, hto⟩ := hboth record hpending
          have hplanned := hrec.planned record hpending
          rw [hl, ← hplanned.source, ← hplanned.target]
          exact ⟨hto, fun _ => hfrom⟩

variable [DecidableEq Ctl]

/-- A group starts to serve by a request to install. -/
theorem ShardStep.starts (hs : ShardStep G id s s') {g : Tgid} {n : Tnum}
    (hbefore : ¬ ((s.groups g x).status = .shardServing ∧ (s.groups g x).configNum = n))
    (hafter : (s'.groups g x).status = .shardServing ∧ (s'.groups g x).configNum = n) :
    (s.groups g x).status = .shardAbsent ∧ ∃ (k : ℕ) (data : TransferData),
      s.sent[k]? = some (g, .installShard x data n) ∧ s'.groups g x =
        ⟨(decodeShardTransfer data).values, .shardServing, n,
          (decodeShardTransfer data).requests⟩ := by
  have hupdate : ∀ {gid : Tgid} {kv : KVServer},
      (Function.update s.groups gid kv g x).status = .shardServing ∧
        (Function.update s.groups gid kv g x).configNum = n → g = gid := by
    intro gid kv h
    by_contra hne
    rw [Function.update_of_ne hne] at h
    exact hbefore h
  cases hs with
  | move | sendPut | send | executePut => exact absurd hafter hbefore
  | execute k gid req kv reply hk hdo =>
      obtain rfl := hupdate hafter
      have heffect := KVServer.doOp_effect hdo x
      have hself : Function.update s.groups g kv g x = kv x := by rw [Function.update_self]
      dsimp only at hafter ⊢
      rw [hself] at hafter ⊢
      generalize hst : s.groups g x = st at heffect hbefore
      generalize hst' : kv x = st' at heffect hafter
      cases heffect with
      | install data num st hstatus hnum =>
          obtain rfl : num = n := hafter.2
          exact ⟨hstatus, k, data, hk, rfl⟩
      | freeze | delete => cases hafter.1
      | put args reply st requests values hx hstatus => exact absurd hafter hbefore
      | _ => exact absurd hafter hbefore
  | client gid req kv reply hreq hdo =>
      obtain rfl := hupdate hafter
      have heffect := KVServer.doOp_effect hdo x
      have hself : Function.update s.groups g kv g x = kv x := by rw [Function.update_self]
      dsimp only at hafter ⊢
      rw [hself] at hafter ⊢
      generalize hst : s.groups g x = st at heffect hbefore
      generalize hst' : kv x = st' at heffect hafter
      cases heffect with
      | install => simp at hreq
      | freeze | delete => cases hafter.1
      | put args reply st requests values hx hstatus => exact absurd hafter hbefore
      | _ => exact absurd hafter hbefore

end

variable [DecidableEq Ctl]

/-- What is true now and was not at first has become true at some point,
and has been true ever since. -/
theorem became {P : ℕ → Prop} {k : ℕ} (h : P k) (hzero : ¬ P 0) :
    ∃ j < k, ¬ P j ∧ ∀ m, j < m → m ≤ k → P m := by
  induction k with
  | zero => exact absurd h hzero
  | succ k ih =>
      by_cases hk : P k
      · obtain ⟨j, hj, hnot, hall⟩ := ih hk
        refine ⟨j, by omega, hnot, fun m hjm hm => ?_⟩
        rcases hm.eq_or_lt with rfl | hlt
        · exact h
        · exact hall m hjm (by omega)
      · refine ⟨k, by omega, hk, fun m hkm hm => ?_⟩
        obtain rfl : m = k + 1 := by omega
        exact h

/-- One group serves a shard at most, and one has it at least. A group
that serves it under the number at which another has frozen it has
started, under that number, from what the other holds. -/
theorem unique_owner (id : Ctl ↪ GoString) {s : ShardSystem Ctl}
    (hs : (shardSys .assigned id).Reachable s) (x : Tshid) :
    (∀ g g', (s.groups g x).status = .shardServing → (s.groups g' x).status = .shardServing →
      g = g') ∧
    (∃ g ≠ 0, (s.groups g x).status = .shardServing ∨ (s.groups g x).status = .shardFrozen) ∧
    ∀ (r : (shardSys .assigned id).Run) (k : ℕ), r.state k = s → ∀ source target n,
      (s.groups source x).status = .shardFrozen → (s.groups source x).configNum = n →
      (s.groups target x).status = .shardServing → (s.groups target x).configNum = n →
      ∃ j < k, ((r.state j).groups target x).status = .shardAbsent ∧
        (r.state (j + 1)).groups target x =
          ⟨(s.groups source x).values, .shardServing, n, (s.groups source x).requests⟩ ∧
        ∀ m, j < m → m ≤ k → ((r.state m).groups target x).status = .shardServing ∧
          ((r.state m).groups target x).configNum = n := by
  have hsim := shard_simulation (G := .assigned) (fun _ h => h) id x
  obtain ⟨a, ha, h⟩ := hsim.reachable hs
  have hi := Inv.reachable ha
  refine ⟨?_, ?_, ?_⟩
  · intro g g' hg hg'
    exact hi.serving_unique (h.serving hg) (h.serving hg')
  · obtain ⟨g, hg, hstatus⟩ := hi.held
    obtain ⟨hlast, hbefore⟩ := h.owner_ne_zero (ControllerInv.reachable id.injective hs)
    have hne : g ≠ 0 := by
      rcases hg with rfl | ⟨hm, rfl⟩
      · exact hlast
      · exact hbefore hm
    refine ⟨g, hne, ?_⟩
    rw [h.cell g hne, ShardState.cell_serving, ShardState.cell_frozen] at hstatus
    exact hstatus
  · rintro r k rfl source target n hfrozen hsource hserving htarget
    obtain ⟨f, hf, hstar⟩ := hsim.run r
    obtain ⟨hm, hcontent⟩ := (hf k).2.frozen_content (.reachable (hf k).1) hfrozen
    rw [hsource] at hm hcontent
    have hzero : ¬ (((r.state 0).groups target x).status = .shardServing ∧
        ((r.state 0).groups target x).configNum = n) := by
      rw [r.start]
      change ¬ ((KVServer.start target x).status = _ ∧ (KVServer.start target x).configNum = n)
      unfold KVServer.start
      split
      · rintro ⟨-, rfl⟩
        exact absurd hm.1 (by decide)
      · rintro ⟨h, -⟩
        cases h
    obtain ⟨j, hj, hnot, hall⟩ := became
      (P := fun m => ((r.state m).groups target x).status = .shardServing ∧
        ((r.state m).groups target x).configNum = n) ⟨hserving, htarget⟩ hzero
    refine ⟨j, hj, ?_⟩
    rcases r.next j with heq | ⟨act, hstep⟩
    · exact absurd (heq ▸ hall (j + 1) (by omega) (by omega)) hnot
    · obtain ⟨habsent, i, data, hsent, hgroup⟩ :=
        (ShardStep.of_step hstep).starts hnot (hall (j + 1) (by omega) (by omega))
      -- what was installed is what had been frozen, and that is still in the history
      have hd := (((hf j).2.evidence.sent i _ _ hsent).2 rfl).2.2
      have hd' := (extends_of_star (hf j).1 (star_of_le hstar hj.le)).frozen n _ hd
      have heq := Option.some.inj (hd'.symm.trans hcontent)
      refine ⟨habsent, ?_, hall⟩
      rw [hgroup, heq]
      rfl

/-- The first shard moves to group 2, up to where that has it. -/
def moveActions : List (ShardAction (Fin 3)) :=
  [.initConfig 0 (sampleConfig 1 1), .executePut 0, .putReply 0 0,
    .changeConfigTo 0 (sampleConfig 2 2), .run 0, .run 0, .run 0, .executePut 1, .putReply 0 1,
    .run 0, .run 0, .run 0, .execute 0, .reply 0 0, .run 0, .execute 1]

theorem moveActions_given {G : Configs} (hfirst : G.first (sampleConfig 1 1))
    (hnext : G.next (sampleConfig 2 2)) : ∀ a ∈ moveActions, ShardAction.Given G a := by
  simp [moveActions, ShardAction.Given, hfirst, hnext]

theorem sampleConfig_first : ShardConfig.First (sampleConfig 1 1) :=
  ⟨rfl, fun _ => ite_self _⟩

theorem sampleConfig_assigned : ShardConfig.Assigned (sampleConfig 2 2) := by
  intro s
  unfold sampleConfig
  dsimp only
  split <;> decide

/-- Before the shard moves, group 1 runs a `Put` of a key in it. -/
def putMoveActions : List (ShardAction (Fin 3)) :=
  moveActions.take 3 ++ .client 1 (.put ⟨[13], [7], 0, 5, 1, 0⟩) :: moveActions.drop 3

theorem putMoveActions_given : ∀ a ∈ putMoveActions, ShardAction.Given .assigned a := by
  simp [putMoveActions, moveActions, ShardAction.Given, Configs.assigned, sampleConfig_first,
    sampleConfig_assigned]

theorem unique_owner_putMoveActions :
    let r := Sys.Run.playIn (ShardSystem.init (Fin 3)) (ShardSystem.step sampleIds) putMoveActions
      putMoveActions_given
    let source := (r.state 17).groups 1 shard0
    source.status = .shardFrozen ∧ source.values.get [13] = some ⟨[7], 1⟩ ∧
      (source.requests.session 5).replies.get 1 = some ⟨.ok⟩ ∧
      ((r.state 17).groups 2 shard0).status = .shardServing ∧
      ∃ j < 17, ((r.state j).groups 2 shard0).status = .shardAbsent ∧
        (r.state (j + 1)).groups 2 shard0 = ⟨source.values, .shardServing, 2, source.requests⟩ := by
  intro r source
  have hfrozen : source.status = .shardFrozen := by decide +kernel
  have hserving : ((r.state 17).groups 2 shard0).status = .shardServing := by decide +kernel
  obtain ⟨-, -, hstart⟩ := unique_owner sampleIds (r.reachable 17) shard0
  obtain ⟨j, hj, habsent, hgroup, -⟩ := hstart r 17 rfl 1 2 2 hfrozen (by decide +kernel) hserving
    (by decide +kernel)
  exact ⟨hfrozen, by decide +kernel, by decide +kernel, hserving, j, hj, habsent, hgroup⟩

/-! ### A plan can be carried out -/

def Reply.err : Reply → Err
  | .get reply => reply.err
  | .put reply => reply.err
  | .freezeShard _ _ err | .installShard err | .deleteShard err => err

/-- All went well, and what was frozen was so under this number. -/
def Reply.Grants (num : Tnum) (reply : Reply) : Prop :=
  reply.err = .ok ∧ ∀ data n err, reply = .freezeShard data n err → n = num

section

variable {kv : KVServer} {x : Tshid} {num : Tnum}

theorem KVServer.freeze_ok (h : ((kv x).status = .shardServing ∧ (kv x).configNum < num) ∨
      (kv x).status = .shardFrozen ∧ (kv x).configNum = num) :
    ∃ kv' data, kv.doOp (.freezeShard x num) = some (kv', .freezeShard data num .ok) := by
  rcases h with ⟨hstatus, hlt⟩ | ⟨hstatus, rfl⟩
  · simp [doOp, ShardState.freezeShard, hstatus, not_le.mpr hlt, hlt.ne']
  · simp [doOp, ShardState.freezeShard, hstatus]

theorem KVServer.install_ok (h : ((kv x).status = .shardAbsent ∧ (kv x).configNum < num) ∨
      (kv x).status = .shardServing ∧ (kv x).configNum = num) (data : TransferData) :
    ∃ kv', kv.doOp (.installShard x data num) = some (kv', .installShard .ok) := by
  rcases h with ⟨hstatus, hlt⟩ | ⟨hstatus, rfl⟩
  · simp [doOp, ShardState.installShard, hstatus, not_le.mpr hlt]
  · simp [doOp, ShardState.installShard, hstatus]

theorem KVServer.delete_ok (hnum : (kv x).configNum = num)
    (h : (kv x).status = .shardFrozen ∨ (kv x).status = .shardAbsent) :
    ∃ kv', kv.doOp (.deleteShard x num) = some (kv', .deleteShard .ok) := by
  subst hnum
  rcases h with hstatus | hstatus
  · simp [doOp, ShardState.deleteShard, hstatus]
  · simp [doOp, ShardState.deleteShard, hstatus]

end

section

variable {x : Tshid} {a : Held} {G : Configs} {id : Ctl → GoString} {s s' : ShardSystem Ctl}
  {st : ControllerState} {record : MigrationRecord}

omit [DecidableEq Ctl] in
theorem Ownership.last_plan (h : Ownership x s a) (hlast : s.stored.getLast? = some st)
    (hpending : st.pending = some record)
    (hmove : record.fromConfig.shards x ≠ record.toConfig.shards x) :
    a.last = record.toConfig.num ∧ a.Moves a.last ∧
      a.stage = (if st.current = record.toConfig then .published else .planned) ∧
      record.fromConfig.shards x = a.owner (a.last - 1) ∧
      record.toConfig.shards x = a.owner a.last := by
  have hreached := h.reached
  rw [hlast] at hreached
  obtain ⟨hl, hstage⟩ := (reached_pending hpending).mp hreached
  have hplanned := (h.evidence.records st (List.mem_of_getLast? hlast)).planned record hpending
  rw [hl]
  exact ⟨rfl, hplanned.moves_iff.mpr hmove, hstage, hplanned.source, hplanned.target⟩

variable (hr : shardHandover.Reachable a) (h : Ownership x s a)
  (hlast : s.stored.getLast? = some st) (hpending : st.pending = some record)
  (hmove : record.fromConfig.shards x ≠ record.toConfig.shards x)

include hr h hlast hpending hmove

section

omit [DecidableEq Ctl]

theorem Ownership.freeze_ok (hcurrent : st.current ≠ record.toConfig)
    (hsource : record.fromConfig.shards x ≠ 0) :
    ∃ kv data, (s.groups (record.fromConfig.shards x)).doOp (.freezeShard x record.toConfig.num) =
      some (kv, .freezeShard data record.toConfig.num .ok) := by
  obtain ⟨hl, hm, hstage, hfrom, -⟩ := h.last_plan hlast hpending hmove
  rw [if_neg hcurrent] at hstage
  have hnot : a.last ∉ a.deleted := by
    intro hdel
    rcases published_of_deleted hr _ hdel with hlt | ⟨-, hne⟩
    · exact absurd hlt (lt_irrefl _)
    · exact hne hstage
  have hcan := (Inv.reachable hr).can_freeze hstage hm hnot
  rw [← hfrom, h.cell _ hsource, ShardState.cell_serving, ShardState.cell_frozen, hl] at hcan
  exact KVServer.freeze_ok hcan

theorem Ownership.install_ok (htarget : record.toConfig.shards x ≠ 0)
    (hd : a.frozen record.toConfig.num ≠ none) (data : TransferData) :
    ∃ kv, (s.groups (record.toConfig.shards x)).doOp (.installShard x data record.toConfig.num) =
      some (kv, .installShard .ok) := by
  obtain ⟨hl, hm, hstage, -, hto⟩ := h.last_plan hlast hpending hmove
  rw [← hl] at hd
  have hcan := (Inv.reachable hr).can_install (by rw [hstage]; split <;> decide) hm hd
  rw [← hto, h.cell _ htarget, ShardState.cell_serving, ShardState.cell_absent, hl] at hcan
  exact KVServer.install_ok (hcan.imp_left And.right) data

theorem Ownership.delete_ok (hcurrent : st.current = record.toConfig)
    (hsource : record.fromConfig.shards x ≠ 0) :
    ∃ kv, (s.groups (record.fromConfig.shards x)).doOp (.deleteShard x record.toConfig.num) =
      some (kv, .deleteShard .ok) := by
  obtain ⟨hl, hm, hstage, hfrom, -⟩ := h.last_plan hlast hpending hmove
  rw [if_pos hcurrent] at hstage
  obtain ⟨hnum, hcan⟩ := (Inv.reachable hr).can_delete hstage hm
  rw [← hfrom, h.cell _ hsource, hl] at hnum
  rw [← hfrom, h.cell _ hsource, ShardState.cell_frozen, ShardState.cell_absent] at hcan
  exact KVServer.delete_ok hnum (hcan.imp_left And.right)

end

end

section

variable {G : Configs} {id : Ctl → GoString} {s s' : ShardSystem Ctl}

/-- As long as the metadata is as a controller has read it, every reply
to its calls grants what it asked for. -/
def Granted (s : ShardSystem Ctl) : Prop :=
  ∀ c r i job call (k : ℕ) reply, (s.ctrlers c).pc = .call r i job call →
    s.replies[k]? = some (call, reply) → s.stored.length = r.version →
      reply.Grants r.record.toConfig.num

theorem Granted.setCtrler (h : Granted s) {c : Ctl} {sck : ShardCtrler}
    (hpc : ∀ r i job call, sck.pc = .call r i job call → ∀ (k : ℕ) reply,
      s.replies[k]? ≠ some (call, reply)) : Granted (s.setCtrler c sck) := by
  intro c' r i job call k reply hc hk hversion
  change (Function.update s.ctrlers c sck c').pc = _ at hc
  rcases eq_or_ne c' c with rfl | hne
  · rw [Function.update_self] at hc
    exact absurd hk (hpc r i job call hc k reply)
  · rw [Function.update_of_ne hne] at hc
    exact h c' r i job call k reply hc hk hversion

omit [DecidableEq Ctl] in
/-- A group grants what a controller asks that knows the last record. -/
theorem granted_reply (hinv : ControllerInv G id s) {c : Ctl} {r : Recovery} {i : Tshid} {job : Job}
    {call : ℕ} (hpc : (s.ctrlers c).pc = .call r i job call)
    (hversion : s.stored.length = r.version) {a : Held} (hr : shardHandover.Reachable a)
    (h : Ownership i s a) {kv : KVServer} {reply : Reply}
    (hdo : (s.groups (r.gid i job)).doOp (r.request i job) = some (kv, reply)) :
    reply.Grants r.record.toConfig.num := by
  have hvalid := hinv.pcs c
  have hprogress := h.evidence.pcs c
  rw [hpc] at hvalid hprogress
  obtain ⟨⟨hne, hgid⟩, hprepared, -⟩ := hprogress
  obtain ⟨hrec, hcurrent⟩ := hvalid
  obtain ⟨v, hv, hget⟩ := hrec.read
  have hlast : s.stored.getLast? = some r.state := by
    rw [List.getLast?_eq_getElem?, hversion, hv]
    exact hget
  cases job with
  | freeze =>
      have hfrom : r.state.current ≠ r.record.toConfig := by
        intro heq
        rw [heq] at hcurrent
        exact (hinv.consistent hget).ne hrec.pending hcurrent.symm
      obtain ⟨kv', data, heq⟩ := h.freeze_ok hr hlast hrec.pending hne hfrom hgid
      cases heq.symm.trans hdo
      refine ⟨rfl, fun _ _ _ hreply => ?_⟩
      cases hreply
      rfl
  | install data =>
      have hd : a.frozen r.record.toConfig.num ≠ none := by
        rw [hprepared.2 rfl]
        exact Option.some_ne_none _
      obtain ⟨kv', heq⟩ := h.install_ok hr hlast hrec.pending hne hgid hd data
      cases heq.symm.trans hdo
      refine ⟨rfl, fun _ _ _ hreply => ?_⟩
      cases hreply
  | delete =>
      obtain ⟨kv', heq⟩ := h.delete_ok hr hlast hrec.pending hne hcurrent hgid
      cases heq.symm.trans hdo
      refine ⟨rfl, fun _ _ _ hreply => ?_⟩
      cases hreply

theorem Granted.step (hinv : ControllerInv G id s)
    (hown : ∀ x, ∃ a, shardHandover.Reachable a ∧ Ownership x s a) (h : Granted s)
    (hs : ShardStep G id s s') : Granted s' := by
  cases hs with
  | move c sck hm =>
      refine h.setCtrler fun r i job call hpc => ?_
      have hwaits := hm.not_waits
      rw [hpc] at hwaits
      cases hwaits
  | sendPut c version state resent swap hm =>
      have hput : Granted
          (s.setPc c (s.ctrlers c) (.put s.puts.length version state resent swap)) :=
        h.setCtrler (by simp)
      exact hput
  | send c r i job hpc =>
      have hcall : Granted (s.setPc c (s.ctrlers c) (.call r i job s.sent.length)) := by
        refine h.setCtrler fun r' i' job' call hcall k reply hk => ?_
        cases hcall
        obtain ⟨a, -, hi⟩ := hown i
        obtain ⟨gid, req, hsent, -⟩ := hi.evidence.replies k _ reply hk
        exact absurd (List.getElem?_eq_some_iff.mp hsent).1 (lt_irrefl _)
      exact hcall
  | executePut k version state hk =>
      rcases putState_cases state (hinv.puts k version state hk).le with ⟨rfl, heq⟩ | ⟨-, heq⟩
      · intro c r i job call k' reply hpc hk' hversion
        rw [heq] at hversion
        have hvalid := hinv.pcs c
        rw [show (s.ctrlers c).pc = _ from hpc] at hvalid
        obtain ⟨v, hv, hget⟩ := hvalid.1.read
        have hlt := (List.getElem?_eq_some_iff.mp hget).1
        simp only [List.length_append, List.length_singleton] at hversion
        omega
      · rw [heq]
        exact h
  | execute k gid req kv reply hk hdo =>
      intro c r i job call k' reply' hpc hk' hversion
      rcases Pool.concat_cases hk' with hk' | ⟨-, heq⟩
      · exact h c r i job call k' reply' hpc hk' hversion
      · cases heq
        obtain ⟨a, ha, hi⟩ := hown i
        have hprogress := hi.evidence.pcs c
        rw [show (s.ctrlers c).pc = _ from hpc] at hprogress
        cases hk.symm.trans hprogress.2.2
        exact granted_reply hinv hpc hversion ha hi hdo
  | client gid req kv reply hreq hdo => exact h

end

/-- While a plan is pending, whatever it still asks of the groups is
granted, and so is what a controller asks as long as it is the owner. -/
theorem migration_granted (id : Ctl ↪ GoString) {s : ShardSystem Ctl}
    (hs : (shardSys .started id).Reachable s) :
    (∀ st record, s.stored.getLast? = some st → st.pending = some record → ∀ x,
      record.fromConfig.shards x ≠ record.toConfig.shards x →
      (st.current = record.fromConfig → record.fromConfig.shards x ≠ 0 → ∃ kv data,
        (s.groups (record.fromConfig.shards x)).doOp (.freezeShard x record.toConfig.num) =
          some (kv, .freezeShard data record.toConfig.num .ok)) ∧
      (st.current = record.fromConfig → record.toConfig.shards x ≠ 0 →
        (record.fromConfig.shards x ≠ 0 →
          (s.groups (record.fromConfig.shards x) x).status = .shardFrozen ∧
            (s.groups (record.fromConfig.shards x) x).configNum = record.toConfig.num) →
        ∀ data, ∃ kv, (s.groups (record.toConfig.shards x)).doOp
          (.installShard x data record.toConfig.num) = some (kv, .installShard .ok)) ∧
      (st.current = record.toConfig → record.fromConfig.shards x ≠ 0 → ∃ kv,
        (s.groups (record.fromConfig.shards x)).doOp (.deleteShard x record.toConfig.num) =
          some (kv, .deleteShard .ok))) ∧
    ∀ c r i job call (k : ℕ) reply last, (s.ctrlers c).pc = .call r i job call →
      s.replies[k]? = some (call, reply) → s.stored.getLast? = some last → last.owner = id c →
      reply.Grants r.record.toConfig.num := by
  have hown : ∀ {s : ShardSystem Ctl}, (shardSys .started id).Reachable s → ∀ x,
      ∃ a, shardHandover.Reachable a ∧ Ownership x s a := fun hs x =>
    (shard_simulation (G := .started) (fun _ h => h) id x).reachable hs
  have hinv := ControllerInv.reachable id.injective hs
  refine ⟨?_, ?_⟩
  · intro st record hlast hpending x hmove
    obtain ⟨a, ha, h⟩ := hown hs x
    refine ⟨fun hcurrent hsource => ?_, fun hcurrent htarget hfrozen data => ?_,
      fun hcurrent hsource => h.delete_ok ha hlast hpending hmove hcurrent hsource⟩
    · refine h.freeze_ok ha hlast hpending hmove (fun heq => hmove ?_) hsource
      rw [← hcurrent, heq]
    · refine h.install_ok ha hlast hpending hmove htarget ?_ data
      by_cases hsource : record.fromConfig.shards x = 0
      · obtain ⟨hl, hm, -, hfrom, -⟩ := h.last_plan hlast hpending hmove
        rw [← hl, h.unassigned.source _ hm (hfrom.symm.trans hsource)]
        exact Option.some_ne_none _
      · obtain ⟨hstatus, hnum⟩ := hfrozen hsource
        rw [← hnum, (h.frozen_content (.reachable ha) hstatus).2]
        exact Option.some_ne_none _
  · intro c r i job call k reply last hpc hk hlast howner
    have hgranted : Granted s := by
      refine hs.invariant (I := Granted) ?_ ?_
      · rintro _ rfl c r i job call k reply hpc
        cases hpc
      · intro s act s' hs h hstep
        exact h.step (.reachable id.injective hs) (hown hs) (.of_step hstep)
    have hvalid := hinv.pcs c
    rw [hpc] at hvalid
    exact hgranted c r i job call k reply hpc hk (hvalid.1.latest last hlast howner).symm

theorem migration_granted_moveActions :
    let s := play (ShardSystem.step sampleIds) (.init (Fin 3)) (moveActions.take 9)
    ∃ kv data, (s.groups 1).doOp (.freezeShard shard0 2) = some (kv, .freezeShard data 2 .ok) := by
  intro s
  have hs : (shardSys .started sampleIds).Reachable s := reachable_playIn _ _ _ fun a ha =>
    moveActions_given (G := .started) sampleConfig_first trivial a (List.mem_of_mem_take ha)
  have hlast : s.stored.getLast? = some ⟨sampleIds 0, 1, sampleConfig 1 1,
      some ⟨sampleConfig 1 1, sampleConfig 2 2⟩⟩ := by decide +kernel
  exact ((migration_granted sampleIds hs).1 _ _ hlast rfl shard0 (by decide)).1 rfl (by decide)

end RaftShardedKv
