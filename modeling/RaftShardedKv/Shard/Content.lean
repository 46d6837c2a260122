import RaftShardedKv.Shard.Serving

/-!
What a shard holds, whoever has it.

The content of a shard is that of the group that serves it, or of the one
that has frozen it while there is no other. Migration does not change it:
a group that freezes keeps what it has served, one that installs starts
from that, and one that deletes leaves another that serves. Only a `Put`
at the group that serves changes the content.
-/

namespace RaftShardedKv

open Transition Handover

variable {Ctl : Type}

instance : Inhabited ShardTransfer := ⟨decodeShardTransfer none⟩

namespace ShardSystem

noncomputable def content (s : ShardSystem Ctl) (x : Tshid) : ShardTransfer :=
  current fun g => (s.groups g x).cell

end ShardSystem

variable {x : Tshid} {a : Held} {G : Configs} {id : Ctl ↪ GoString} {s s' : ShardSystem Ctl}

/-! ### Who has it -/

theorem Ownership.frozen_held (h : Ownership x s a) {g : Tgid}
    (hg : (s.groups g x).status = .shardFrozen) : (a.cell g).status = .frozen := by
  rw [h.cell_of_held (by simp [hg])]
  exact ShardState.cell_frozen.mpr hg

theorem Ownership.content_serving (h : Ownership x s a) (hi : Handover.Inv a) {g : Tgid}
    (hg : (s.groups g x).status = .shardServing) :
    s.content x = ⟨(s.groups g x).values, (s.groups g x).requests⟩ := by
  refine current_serving (f := fun g => (s.groups g x).cell) (ShardState.cell_serving.mpr hg)
    fun g' hg' => ?_
  exact hi.serving_unique (h.serving (ShardState.cell_serving.mp hg')) (h.serving hg)

theorem Ownership.content_frozen (h : Ownership x s a) (hi : Handover.Inv a) {g : Tgid}
    (hg : (s.groups g x).status = .shardFrozen)
    (hnone : ∀ g', (s.groups g' x).status ≠ .shardServing) :
    s.content x = ⟨(s.groups g x).values, (s.groups g x).requests⟩ := by
  refine current_frozen (f := fun g => (s.groups g x).cell) (ShardState.cell_frozen.mpr hg)
    (fun g' hg' => ?_) fun g' hg' => hnone g' (ShardState.cell_serving.mp hg')
  exact hi.frozen_unique (h.frozen_held (ShardState.cell_frozen.mp hg')) (h.frozen_held hg)

variable [DecidableEq Ctl]

theorem exists_ownership (hr : (shardSys .assigned id).Reachable s) (x : Tshid) :
    ∃ a, Handover.Inv a ∧ Ownership x s a ∧ a.owner a.last ≠ 0 ∧
      (a.Moving → a.owner (a.last - 1) ≠ 0) := by
  obtain ⟨a, ha, h⟩ := (shard_simulation (G := .assigned) (fun _ h => h) id x).reachable hr
  exact ⟨a, .reachable ha, h, h.owner_ne_zero (ControllerInv.reachable id.injective hr)⟩

/-! ### What changes it -/

omit [DecidableEq Ctl] in
theorem content_congr (h : ∀ g, s'.groups g x = s.groups g x) : s'.content x = s.content x := by
  unfold ShardSystem.content
  simp only [h]

theorem ShardSystem.run_groups {id : Ctl → GoString} {c : Ctl} (hs : s.run id c = some s') :
    s'.groups = s.groups := by
  simp only [run, Option.bind_eq_bind] at hs
  grind [setPc, setCtrler, sendPut, Option.bind_eq_some_iff]

theorem ShardSystem.step_groups {id : Ctl → GoString} {act : ShardAction Ctl}
    (hs : s.step id act = some s') (hexecute : ∀ k, act ≠ .execute k)
    (hclient : ∀ gid req, act ≠ .client gid req) : s'.groups = s.groups := by
  cases act with
  | run c => exact run_groups hs
  | execute k => exact absurd rfl (hexecute k)
  | client gid req => exact absurd rfl (hclient gid req)
  | _ =>
      simp only [step, Option.bind_eq_bind] at hs
      grind [setPc, setCtrler, sendPut, Option.bind_eq_some_iff]

section

variable (hr : (shardSys .assigned id).Reachable s) (hr' : (shardSys .assigned id).Reachable s')
  {gid : Tgid} {kv : KVServer} (hgroups : s'.groups = Function.update s.groups gid kv)

include hgroups

section

omit [DecidableEq Ctl]

theorem groups_self : s'.groups gid x = kv x := by
  rw [hgroups, Function.update_self]

theorem groups_of_ne {g : Tgid} (hg : g ≠ gid) : s'.groups g x = s.groups g x := by
  rw [hgroups, Function.update_of_ne hg]

theorem content_same (hkv : kv x = s.groups gid x) : s'.content x = s.content x := by
  refine content_congr fun g => ?_
  rcases eq_or_ne g gid with rfl | hg
  · rw [groups_self hgroups, hkv]
  · exact groups_of_ne hgroups hg

end

include hr hr'

/-- A request of a controller leaves the content as it is. -/
theorem content_execute {k : ℕ} {req : Request} {reply : Reply} (hk : s.sent[k]? = some (gid, req))
    (hdo : (s.groups gid).doOp req = some (kv, reply)) : s'.content x = s.content x := by
  obtain ⟨a, hi, h, hlast, hbefore⟩ := exists_ownership hr x
  obtain ⟨a', hi', h', -⟩ := exists_ownership hr' x
  have hasked := h.evidence.sent k gid req hk
  have heffect := KVServer.doOp_effect hdo x
  have hself : s'.groups gid x = kv x := groups_self hgroups
  have hother : ∀ g ≠ gid, s'.groups g x = s.groups g x := fun g hg => groups_of_ne hgroups hg
  generalize hst : s.groups gid x = st at heffect
  generalize hst' : kv x = st' at heffect hself
  cases heffect with
  | get | put | putRefused | putElsewhere => cases hasked
  | freeze num st hstatus hnum =>
      have hserving : (s.groups gid x).status = .shardServing := by rw [hst, hstatus]
      have hfrozen : (s'.groups gid x).status = .shardFrozen := by rw [hself]
      rw [h.content_serving hi hserving, h'.content_frozen hi' hfrozen fun g hg => ?_, hself, hst]
      -- whoever served before is the one that has stopped
      rcases eq_or_ne g gid with rfl | hne
      · cases hfrozen.symm.trans hg
      · rw [hother g hne] at hg
        exact hne (hi.serving_unique (h.serving hg) (h.serving hserving))
  | install data num st hstatus hnum =>
      obtain ⟨hgid, hm, howner, hd⟩ := And.imp_right (fun h => h rfl) hasked
      have hlt : (a.cell (a.owner num)).num < num := by
        rw [← howner, h.cell gid hgid, hst]
        exact hnum
      obtain ⟨rfl, hmoving, hfrozen, hcontent, hnone⟩ := hi.before_install hm hd hlt
      rw [h.cell _ (hbefore hmoving)] at hfrozen hcontent
      have hserving : (s'.groups gid x).status = .shardServing := by rw [hself]
      rw [h'.content_serving hi' hserving, hself, h.content_frozen hi
        (ShardState.cell_frozen.mp hfrozen) fun g hg => hnone g (h.serving hg)]
      exact hcontent.symm
  | delete num st hstatus hnum =>
      obtain ⟨hgid, hm, howner, hp⟩ := And.imp_right (fun h => h rfl) hasked
      have hcell := h.cell gid hgid
      rw [hst] at hcell
      rw [howner] at hcell
      obtain ⟨rfl, hserving⟩ := hi.before_delete hm hp
        (by rw [hcell]; exact ShardState.cell_frozen.mpr hstatus) (by rw [hcell]; exact hnum.symm)
      rw [h.cell _ hlast] at hserving
      have hserving := ShardState.cell_serving.mp hserving
      have hsame := hother (a.owner a.last) fun heq => hm.2.2 (heq.trans howner).symm
      rw [h.content_serving hi hserving, h'.content_serving hi' (hsame ▸ hserving), hsame]
  | _ => exact content_same hgroups (hst'.trans hst.symm)

/-- A `Put` is done on the content, or refused. -/
theorem content_put {args : PutArgs} {reply : PutReply}
    (hdo : (s.groups gid).doOp (.put args) = some (kv, .put reply)) (x : Tshid) :
    (key2Shard args.key ≠ x ∨ (s.groups gid x).status ≠ .shardServing ∧ reply = ⟨.errWrongGroup⟩) ∧
        s'.content x = s.content x ∨
      key2Shard args.key = x ∧ (s.groups gid x).status = .shardServing ∧
        s.content x = ⟨(s.groups gid x).values, (s.groups gid x).requests⟩ ∧
        (s.content x).requests.doPut args (ShardState.applyPut args) (s.content x).values =
          some ((s'.content x).requests, (s'.content x).values, reply) := by
  obtain ⟨a, hi, h, -⟩ := exists_ownership hr x
  obtain ⟨a', hi', h', -⟩ := exists_ownership hr' x
  have heffect := KVServer.doOp_effect hdo x
  have hself : s'.groups gid x = kv x := groups_self hgroups
  generalize hst : s.groups gid x = st at heffect
  generalize hst' : kv x = st' at heffect hself
  cases heffect with
  | put args reply st requests values hx hstatus hdo =>
      have hserving : (s'.groups gid x).status = .shardServing := by rw [hself, hstatus]
      have hcontent := h.content_serving hi (g := gid) (by rw [hst, hstatus])
      rw [hst] at hcontent
      refine Or.inr ⟨hx, hstatus, hcontent, ?_⟩
      rw [hcontent, h'.content_serving hi' hserving, hself]
      exact hdo
  | putRefused args st hx hstatus =>
      exact Or.inl ⟨Or.inr ⟨hstatus, rfl⟩, content_same hgroups (hst'.trans hst.symm)⟩
  | putElsewhere args reply st hx =>
      exact Or.inl ⟨Or.inl hx, content_same hgroups (hst'.trans hst.symm)⟩
  | elsewhere req reply st hother hnot => exact absurd rfl (hnot.2 args)

end

theorem content_step {act : ShardAction Ctl} (hr : (shardSys .assigned id).Reachable s)
    (hs : (shardSys .assigned id).step s act s') (hclient : ∀ gid req, act ≠ .client gid req) :
    s'.content x = s.content x := by
  by_cases hexecute : ∃ k, act = .execute k
  · obtain ⟨k, rfl⟩ := hexecute
    obtain ⟨⟨gid, req⟩, hk, hs'⟩ := Option.bind_eq_some_iff.mp hs.2
    obtain ⟨⟨kv, reply⟩, hdo, hs'⟩ := Option.bind_eq_some_iff.mp hs'
    have hgroups : s'.groups = Function.update s.groups gid kv := by
      cases hs'
      rfl
    exact content_execute hr (hr.step hs) hgroups hk hdo
  · have hgroups := ShardSystem.step_groups hs.2 (fun k heq => hexecute ⟨k, heq⟩) hclient
    exact content_congr fun g => by rw [hgroups]

theorem content_get (hr : (shardSys .assigned id).Reachable s) (gid : Tgid) (args : GetArgs) :
    ((s.groups gid (key2Shard args.key)).get args).err = .errWrongGroup ∨
      (s.groups gid (key2Shard args.key)).get args =
        match (s.content (key2Shard args.key)).values.get args.key with
        | none => ⟨[], 0, .errNoKey⟩
        | some entry => ⟨entry.value, entry.version, .ok⟩ := by
  obtain ⟨a, hi, h, -⟩ := exists_ownership hr (key2Shard args.key)
  unfold ShardState.get
  split
  · exact Or.inl rfl
  · rename_i hstatus
    rw [h.content_serving hi (not_not.mp hstatus)]
    exact Or.inr rfl

end RaftShardedKv
