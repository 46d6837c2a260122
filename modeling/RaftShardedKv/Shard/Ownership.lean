import RaftShardedKv.Shard.Evidence

/-!
Who owns a shard.

Each shard by itself is an object that is handed over in the sense of
`Lib.Handover`: what the groups hold of it are the copies, the records
under the metadata key are the plans. Every step of the system is matched
by steps of the handover of each shard, and so all that holds of those
holds here: one group serves a shard at most, one holds it at least, and
a new owner has started from what the old one has kept.
-/

namespace RaftShardedKv

open Transition Handover

variable {Ctl : Type}

def ShardStatus.held : ShardStatus → Status
  | .shardAbsent => .absent
  | .shardServing => .serving
  | .shardFrozen => .frozen

def ShardState.cell (st : ShardState) : Cell ShardTransfer :=
  ⟨st.status.held, st.configNum, ⟨st.values, st.requests⟩⟩

abbrev shardHandover : Sys Held Unit := handover Gid1 fun _ => decodeShardTransfer none

/-! ### No group -/

section

variable {a a' : Held}

theorem Unassigned.start : Unassigned (.start Gid1 fun _ => decodeShardTransfer none) := by
  constructor
  · exact fun _ => rfl
  all_goals exact fun _ hm => absurd rfl hm.2.2

/-- What a few steps of the handover have to see to for group 0. -/
theorem Unassigned.of_extends (h : Unassigned a) (he : Extends a a')
    (hcontent : (a'.cell 0).status = .serving → (a'.cell 0).content = decodeShardTransfer none)
    (hpublished : ∀ n ≤ a.last, a.owner (n - 1) = 0 → a.Moves n → a'.Published n →
      a.Published n ∨ n ∈ a'.deleted)
    (hfrozen : ∀ n ≤ a.last, a.owner n = 0 → a.Moves n → a'.frozen n ≠ none →
      a.frozen n ≠ none ∨ n ∈ a'.installed)
    (hnew : ∀ n, a.last < n → a'.Moves n →
      (a'.owner (n - 1) = 0 → a'.frozen n = some (decodeShardTransfer none) ∧ ¬ a'.Published n) ∧
        (a'.owner n = 0 → a'.frozen n = none)) : Unassigned a' := by
  have hmoves : ∀ n ≤ a.last, a'.Moves n → a.Moves n ∧ a'.owner n = a.owner n ∧
      a'.owner (n - 1) = a.owner (n - 1) := fun n hle hm =>
    ⟨(he.moves_iff hle).mp hm, he.owner n hle, he.owner (n - 1) (by omega)⟩
  refine ⟨hcontent, fun n hm hzero => ?_, fun n hm hzero hp => ?_, fun n hm hzero hd => ?_⟩
  · rcases le_or_gt n a.last with hle | hlt
    · obtain ⟨hm, -, howner⟩ := hmoves n hle hm
      exact he.frozen n _ (h.source n hm (howner.symm.trans hzero))
    · exact ((hnew n hlt hm).1 hzero).1
  · rcases le_or_gt n a.last with hle | hlt
    · obtain ⟨hm, -, howner⟩ := hmoves n hle hm
      have hzero := howner.symm.trans hzero
      rcases hpublished n hle hzero hm hp with hp | hdel
      · exact he.deleted (h.dropped n hm hzero hp)
      · exact hdel
    · exact absurd hp ((hnew n hlt hm).1 hzero).2
  · rcases le_or_gt n a.last with hle | hlt
    · obtain ⟨hm, howner, -⟩ := hmoves n hle hm
      have hzero := howner.symm.trans hzero
      rcases hfrozen n hle hzero hm hd with hd | hin
      · exact he.installed (h.installed n hm hzero hd)
      · exact hin
    · exact absurd ((hnew n hlt hm).2 hzero) hd

/-- A few steps of the handover, by which group 0 has done its part. -/
structure Aside (a a' : Held) : Prop where
  star : shardHandover.Star a a'
  unassigned : Unassigned a'
  values : ∀ n d, a'.frozen n = some d → d.values ≠ .nil

theorem Aside.single (hr : shardHandover.Reachable a) (hu : Unassigned a)
    (hvalues : ∀ n d, a.frozen n = some d → d.values ≠ .nil) (hstep : Step a a')
    (hlast : a'.last = a.last) (hpublished : ∀ n, a'.Published n → a.Published n)
    (hfrozen : a'.frozen = a.frozen) (hcell : a'.cell 0 = a.cell 0) : Aside a a' := by
  refine ⟨.single (a := ()) hstep, hu.of_extends (hstep.extends (Inv.reachable hr)) ?_
    (fun n _ _ _ hp => Or.inl (hpublished n hp)) (fun n _ _ _ hd => Or.inl (hfrozen ▸ hd))
    fun n hlt hn => absurd (hn.2.1.trans_eq hlast) (not_le.mpr hlt), hfrozen ▸ hvalues⟩
  rw [hcell]
  exact hu.content

/-- Group 0 stops at once when a plan gives its shard to another group. -/
theorem freeze_zero (hinv : Inv a) (hu : Unassigned a) (hstage : a.stage = .settled) {g : Tgid}
    (hg : g ≠ 0) (hzero : a.owner a.last = 0) :
    Step (a.plan g) ((a.plan g).freeze (a.last + 1)) ∧
      (∀ n, ((a.plan g).freeze (a.last + 1)).frozen n =
        if n = a.last + 1 then some (decodeShardTransfer none) else a.frozen n) ∧
      ∀ g', ((a.plan g).freeze (a.last + 1)).cell g' =
        if g' = 0 then ⟨.frozen, a.last + 1, decodeShardTransfer none⟩ else a.cell g' := by
  have hold : (a.plan g).owner (a.last + 1 - 1) = 0 := by
    rw [Int.add_sub_cancel, ← hzero]
    exact Function.update_of_ne (by omega) _ _
  have halone := hinv.after (Or.inl fun hm => hm.1 hstage)
  rw [hzero] at halone
  have hcontent : ((a.plan g).cell ((a.plan g).owner (a.last + 1 - 1))).content =
      decodeShardTransfer none := by
    rw [hold]
    exact hu.content halone.1
  refine ⟨.freeze _ ⟨?_, le_rfl, ?_⟩ ?_ ?_, fun n => ?_, fun g' => ?_⟩
  · have := hinv.pos
    omega
  · rw [hold]
    exact fun heq => hg ((Function.update_self ..).symm.trans heq.symm)
  · rw [hold]
    exact halone.1
  · rw [hold]
    exact Int.lt_add_one_iff.mpr (hinv.num_le 0)
  · rw [State.freeze_frozen, hcontent]
    rfl
  · rw [State.freeze_cell, hcontent, hold]
    rfl

/-- Group 0 takes a shard as soon as its owner has stopped, and keeps
nothing of it. -/
theorem install_zero (hinv : Inv a) (hn : a.Moves a.last) (hstage : a.stage = .planned)
    (htarget : a.owner a.last = 0) (hnot : a.last ∉ a.installed) {d : ShardTransfer}
    (hfrozen : a.frozen a.last = some d) :
    Step a (a.install a.last d) ∧
      Step (a.install a.last d) ((a.install a.last d).write 0 (decodeShardTransfer none)) := by
  have hunsettled : a.stage ≠ .settled := by
    rw [hstage]
    decide
  have hinstall : Step a (a.install a.last d) := by
    rcases hinv.can_install hunsettled hn (Option.ne_none_iff_exists'.mpr ⟨_, hfrozen⟩)
      with ⟨-, habsent, hlt⟩ | ⟨hserving, hnum⟩
    · exact .install a.last d hn hfrozen habsent hlt
    · exact absurd ((hinv.serving_cell _ hserving).2 (hnum.symm ▸ hn.1)) (hnum.symm ▸ hnot)
  refine ⟨hinstall, .write 0 _ ?_⟩
  rw [State.install_cell, if_pos htarget.symm]

variable (hr : shardHandover.Reachable a) (hu : Unassigned a)
  (hvalues : ∀ n d, a.frozen n = some d → d.values ≠ .nil)

include hr hu hvalues

/-- A plan is made. A shard that is with no group can be had at once. -/
theorem aside_plan (hstage : a.stage = .settled) (g : Tgid) : ∃ a', Aside a a' ∧
    a'.last = a.last + 1 ∧ a'.stage = .planned ∧ a'.owner (a.last + 1) = g ∧
    ∀ g' ≠ 0, a'.cell g' = a.cell g' := by
  have hinv := Inv.reachable hr
  have hplan : Step a (a.plan g) := .plan g hstage
  have he := hplan.extends hinv
  have hnew : (a.plan g).owner (a.last + 1) = g := Function.update_self ..
  have hold : (a.plan g).owner (a.last + 1 - 1) = a.owner a.last := by
    rw [Int.add_sub_cancel]
    exact he.owner _ le_rfl
  have hpublished : ∀ n ≤ a.last, a.Published n := by
    intro n hle
    rcases hle.lt_or_eq with hlt | heq
    · exact Or.inl hlt
    · exact Or.inr ⟨heq, by simp [hstage]⟩
  by_cases hghost : a.owner a.last = 0 ∧ g ≠ 0
  · obtain ⟨hzero, hg⟩ := hghost
    obtain ⟨hfreeze, hget, hcell⟩ := freeze_zero hinv hu hstage hg hzero
    refine ⟨(a.plan g).freeze (a.last + 1), ⟨(Sys.Star.single (a := ()) hplan).tail ⟨(), hfreeze⟩,
      hu.of_extends (he.trans (hfreeze.extends (hinv.step hplan))) ?_
        (fun n hle _ _ _ => Or.inl (hpublished n hle)) ?_ ?_, ?_⟩, rfl, rfl, hnew, ?_⟩
    · intro hs
      rw [hcell, if_pos rfl] at hs
      cases hs
    · intro n hle _ _ hd
      rw [hget, if_neg (by omega)] at hd
      exact Or.inl hd
    · intro n hlt hn
      obtain rfl : n = a.last + 1 := le_antisymm hn.2.1 hlt
      refine ⟨fun _ => ⟨by rw [hget, if_pos rfl], ?_⟩, fun hn0 => absurd (hnew.symm.trans hn0) hg⟩
      rintro (hlt | ⟨-, hne⟩)
      · exact absurd hlt (lt_irrefl _)
      · exact hne rfl
    · intro n d hd
      rw [hget] at hd
      split at hd
      · cases hd
        exact GoMap.orMake_ne_nil .nil
      · exact hvalues n d hd
    · intro g' hg'
      rw [hcell, if_neg hg']
  · refine ⟨a.plan g, ⟨Sys.Star.single (a := ()) hplan, hu.of_extends he hu.content
      (fun n hle _ _ _ => Or.inl (hpublished n hle)) (fun n _ _ _ hd => Or.inl hd) ?_, hvalues⟩,
      rfl, rfl, hnew, fun _ _ => rfl⟩
    intro n hlt hn
    obtain rfl : n = a.last + 1 := le_antisymm hn.2.1 hlt
    refine ⟨fun hzero => ?_, fun _ => ?_⟩
    · have hzero := hold.symm.trans hzero
      refine absurd ⟨hzero, fun hg => hn.2.2 ?_⟩ hghost
      rw [hold, hnew, hzero, hg]
    · by_contra hd
      obtain ⟨d, hd⟩ := Option.ne_none_iff_exists'.mp hd
      exact absurd (hinv.frozen_moves _ d hd).2.1 (not_le.mpr hlt)

/-- The old owner stops. Where the shard goes to no group, that is all. -/
theorem aside_freeze {n : ℤ} (hn : a.Moves n) (hzero : a.owner (n - 1) ≠ 0)
    (hstatus : (a.cell (a.owner (n - 1))).status = .serving)
    (hlt : (a.cell (a.owner (n - 1))).num < n)
    (hcontent : (a.cell (a.owner (n - 1))).content.values ≠ .nil) :
    ∃ a', Aside a a' ∧ a'.last = a.last ∧ a'.stage = a.stage ∧
      a'.frozen n = some (a.cell (a.owner (n - 1))).content ∧
      ∀ g' ≠ 0, a'.cell g' = if g' = a.owner (n - 1) then
        ⟨.frozen, n, (a.cell (a.owner (n - 1))).content⟩ else a.cell g' := by
  have hinv := Inv.reachable hr
  have hfreeze : Step a (a.freeze n) := .freeze n hn hstatus hlt
  have hinv' := hinv.step hfreeze
  have he := hfreeze.extends hinv
  have hget := a.freeze_frozen n
  have hfrozen : (a.freeze n).frozen n = some (a.cell (a.owner (n - 1))).content := by
    rw [hget, if_pos rfl]
  have hvalues' : ∀ m d, (a.freeze n).frozen m = some d → d.values ≠ .nil := by
    intro m d hd
    rw [hget] at hd
    split at hd
    · cases hd
      exact hcontent
    · exact hvalues m d hd
  by_cases htarget : a.owner n = 0
  · have hnot : n ∉ a.installed := by
      intro hin
      obtain ⟨d, hd⟩ := hinv.installed_frozen n hin
      exact absurd (hinv.frozen_num n d hd) (not_le.mpr hlt)
    obtain ⟨rfl, hstage⟩ := hinv.last_of_not_installed hn hnot
    obtain ⟨hinstall, hwrite⟩ := install_zero hinv' (he.moves hn) hstage htarget hnot hfrozen
    have hinv'' := hinv'.step hinstall
    refine ⟨_, ⟨((Sys.Star.single (a := ()) hfreeze).tail ⟨(), hinstall⟩).tail ⟨(), hwrite⟩,
      hu.of_extends (he.trans ((hinstall.extends hinv').trans (hwrite.extends hinv''))) ?_
        (fun _ _ _ _ hp => Or.inl hp) ?_ ?_, hvalues'⟩, rfl, rfl, hfrozen, ?_⟩
    · intro _
      rw [State.write_cell, if_pos rfl]
    · intro m _ _ _ hd
      rcases eq_or_ne m a.last with rfl | hne
      · exact Or.inr (Set.mem_insert _ _)
      · left
        intro hnone
        refine hd ((hget m).trans ?_)
        rw [if_neg hne, hnone]
    · exact fun m hlt hm => absurd hm.2.1 (not_le.mpr hlt)
    · intro g' hg'
      rw [State.write_cell, if_neg hg', State.install_cell,
        if_neg fun heq => hg' (heq.trans htarget), State.freeze_cell]
  · refine ⟨a.freeze n, ⟨Sys.Star.single (a := ()) hfreeze, hu.of_extends he ?_
      (fun _ _ _ _ hp => Or.inl hp) ?_ ?_, hvalues'⟩, rfl, rfl, hfrozen,
      fun g' _ => a.freeze_cell n g'⟩
    · rw [State.freeze_cell, if_neg hzero.symm]
      exact hu.content
    · intro m _ hm0 _ hd
      have hne : m ≠ n := by
        rintro rfl
        exact htarget hm0
      rw [hget, if_neg hne] at hd
      exact Or.inl hd
    · exact fun m hlt hm => absurd hm.2.1 (not_le.mpr hlt)

/-- The plan is published. Group 0 has nothing to keep. -/
theorem aside_publish (hstage : a.stage = .planned)
    (hdone : a.Moves a.last → a.last ∈ a.installed) : ∃ a', Aside a a' ∧ a'.last = a.last ∧
    a'.stage = .published ∧ ∀ g' ≠ 0, a'.cell g' = a.cell g' := by
  have hinv := Inv.reachable hr
  have hpublish : Step a { a with stage := .published } := .publish hstage hdone
  have hinv' := hinv.step hpublish
  have he := hpublish.extends hinv
  have hpublished : ∀ n ≠ a.last, ({ a with stage := .published } : Held).Published n →
      a.Published n := by
    rintro n hne (hlt | ⟨heq, -⟩)
    · exact Or.inl hlt
    · exact absurd heq hne
  by_cases hghost : a.Moves a.last ∧ a.owner (a.last - 1) = 0 ∧ a.last ∉ a.deleted
  · obtain ⟨hm, hzero, hnot⟩ := hghost
    have hm' : ({ a with stage := .published } : Held).Moves a.last := he.moves hm
    obtain ⟨hnum, hcan⟩ := hinv'.can_delete rfl hm'
    have hfrozen : (({ a with stage := .published } : Held).cell (a.owner (a.last - 1))).status =
        .frozen := by
      obtain ⟨hs, -⟩ := hinv'.copied ⟨nofun, hm'⟩ (hdone hm) hnot
      exact hs
    have hdelete : Step { a with stage := .published } (State.delete { a with stage := .published }
        a.last (decodeShardTransfer none)) :=
      .delete a.last _ hm' (Or.inr ⟨rfl, nofun⟩) hfrozen hnum
    refine ⟨_, ⟨(Sys.Star.single (a := ()) hpublish).tail ⟨(), hdelete⟩,
      hu.of_extends (he.trans (hdelete.extends hinv')) ?_ ?_ (fun _ _ _ _ hd => Or.inl hd) ?_,
      hvalues⟩, rfl, rfl, ?_⟩
    · intro hs
      have hself : (State.delete { a with stage := .published } a.last
          (decodeShardTransfer none)).cell 0 = ⟨.absent, a.last, decodeShardTransfer none⟩ := by
        rw [State.delete_cell, if_pos hzero.symm]
      rw [hself] at hs
      cases hs
    · intro n _ _ _ hp
      rcases eq_or_ne n a.last with rfl | hne
      · exact Or.inr (Set.mem_insert _ _)
      · exact Or.inl (hpublished n hne hp)
    · exact fun m hlt hm => absurd hm.2.1 (not_le.mpr hlt)
    · intro g' hg'
      rw [State.delete_cell, if_neg fun heq => hg' (heq.trans hzero)]
  · refine ⟨_, ⟨Sys.Star.single (a := ()) hpublish, hu.of_extends he hu.content ?_
      (fun _ _ _ _ hd => Or.inl hd) ?_, hvalues⟩, rfl, rfl, fun _ _ => rfl⟩
    · intro n _ hzero hm hp
      rcases eq_or_ne n a.last with rfl | hne
      · exact Or.inr (not_not.mp fun hnot => hghost ⟨hm, hzero, hnot⟩)
      · exact Or.inl (hpublished n hne hp)
    · exact fun m hlt hm => absurd hm.2.1 (not_le.mpr hlt)

end

/-! ### The simulation -/

/-- Shard `x` of the system is where its history says. -/
structure Ownership (x : Tshid) (s : ShardSystem Ctl) (a : Held) : Prop where
  evidence : Evidence x s a
  unassigned : Unassigned a
  frozen : ∀ n d, a.frozen n = some d → d.values ≠ .nil
  first : a.owner 1 = Gid1
  reached : Reached a s.stored.getLast?
  cell : ∀ g ≠ 0, a.cell g = (s.groups g x).cell
  zero : (s.groups 0 x).status = .shardAbsent
  values : ∀ g, (s.groups g x).values ≠ .nil

section

variable {x : Tshid} {a a' : Held} {G : Configs} {id : Ctl → GoString} {s s' : ShardSystem Ctl}

theorem Ownership.init (x : Tshid) :
    Ownership x (ShardSystem.init Ctl) (.start Gid1 fun _ => decodeShardTransfer none) where
  evidence := ⟨by simp [ShardSystem.init], by simp [ShardSystem.init], by simp [ShardSystem.init],
    by simp [ShardSystem.init], fun _ => trivial⟩
  unassigned := .start
  frozen := nofun
  first := rfl
  reached := ⟨rfl, rfl⟩
  cell g _ := by
    change (if g = Gid1 then _ else _) = ShardState.cell (KVServer.start g x)
    unfold KVServer.start
    split <;> rfl
  zero := rfl
  values g := by
    change (KVServer.start g x).values ≠ .nil
    unfold KVServer.start
    split <;> exact GoMap.orMake_ne_nil .nil

/-- A record is stored. -/
theorem Ownership.store (hinv : ControllerInv G id s) (hr : shardHandover.Reachable a)
    (h : Ownership x s a) (ha : Aside a a') (hcell : ∀ g ≠ 0, a'.cell g = a.cell g)
    {st : ControllerState} (hrecord : Documented x a' st) (hreached : Reached a' (some st))
    (replies : List (ℕ × Err)) :
    Ownership x { s with stored := s.stored ++ [st], putReplies := replies } a' := by
  have he := extends_of_star hr ha.star
  have hev := h.evidence.extends hinv he
  refine ⟨⟨?_, ?_, hev.sent, hev.replies, hev.pcs⟩, ha.unassigned, ha.values, ?_, ?_, ?_, h.zero,
    h.values⟩
  · intro r hr
    rcases List.mem_append.mp hr with hr | hr
    · exact hev.records r hr
    · cases List.mem_singleton.mp hr
      exact hrecord
  · intro k v st' hk m r record hv hm
    -- the version that a `Put` names is not above the records there are
    have hlt : m < s.stored.length := by
      have := (hinv.puts k v st' hk).le
      omega
    rw [List.getElem?_append_left hlt] at hm
    exact hev.puts k v st' hk m r record hv hm
  · rw [he.owner 1 (Inv.reachable hr).pos]
    exact h.first
  · rw [List.getLast?_concat]
    exact hreached
  · exact fun g hg => (hcell g hg).trans (h.cell g hg)

/-- A group has executed a request. -/
theorem Ownership.execute (hinv : ControllerInv G id s) (hr : shardHandover.Reachable a)
    (h : Ownership x s a) (ha : Aside a a') (hlast : a'.last = a.last) (hstage : a'.stage = a.stage)
    {gid : Tgid} {kv : KVServer} (hgid : gid = 0 → (kv x).status = .shardAbsent)
    (hvalues : (kv x).values ≠ .nil)
    (hcell : ∀ g ≠ 0, a'.cell g = if g = gid then (kv x).cell else a.cell g) :
    Ownership x { s with groups := Function.update s.groups gid kv } a' := by
  have he := extends_of_star hr ha.star
  have hev := h.evidence.extends hinv he
  refine ⟨⟨hev.records, hev.puts, hev.sent, hev.replies, hev.pcs⟩, ha.unassigned, ha.values, ?_, ?_,
    ?_, ?_, ?_⟩
  · rw [he.owner 1 (Inv.reachable hr).pos]
    exact h.first
  · have hreached := h.reached
    unfold Reached at hreached ⊢
    rw [hlast, hstage]
    exact hreached
  · intro g hg
    rw [hcell g hg]
    change _ = ShardState.cell (Function.update s.groups gid kv g x)
    rw [Function.update_apply]
    split
    · rfl
    · exact h.cell g hg
  · change (Function.update s.groups gid kv 0 x).status = _
    rw [Function.update_apply]
    split
    · rename_i hzero
      exact hgid hzero.symm
    · exact h.zero
  · intro g
    change (Function.update s.groups gid kv g x).values ≠ _
    rw [Function.update_apply]
    split
    · exact hvalues
    · exact h.values g

theorem Ownership.aside (h : Ownership x s a) : Aside a a :=
  ⟨.refl, h.unassigned, h.frozen⟩

theorem Ownership.single (h : Ownership x s a) (hr : shardHandover.Reachable a) (hstep : Step a a')
    (hlast : a'.last = a.last) (hpublished : ∀ n, a'.Published n → a.Published n)
    (hfrozen : a'.frozen = a.frozen) (hcell : a'.cell 0 = a.cell 0) : Aside a a' :=
  .single hr h.unassigned h.frozen hstep hlast hpublished hfrozen hcell

/-- The record that is stored next. -/
theorem Ownership.follows (hG : ∀ cfg, G.first cfg → cfg.First) (hinv : ControllerInv G id s)
    (hr : shardHandover.Reachable a) (h : Ownership x s a) {k : ℕ} {st : ControllerState}
    (hk : s.puts[k]? = some (s.stored.length, st)) (replies : List (ℕ × Err)) :
    ∃ a', shardHandover.Star a a' ∧
      Ownership x { s with stored := s.stored ++ [st], putReplies := replies } a' := by
  have hafter := hinv.puts k _ st hk
  have hbacked := h.evidence.puts k _ st hk
  cases hlen : s.stored.length with
  | zero =>
      rw [hlen] at hafter
      obtain ⟨-, hpending, hfirst⟩ := hafter
      obtain ⟨hnum, hshards⟩ := hG _ hfirst
      have hreached := h.reached
      rw [List.length_eq_zero_iff.mp hlen] at hreached
      refine ⟨a, .refl, h.store hinv hr h.aside (fun _ _ => rfl) ⟨?_, ?_, ?_, ?_, ?_⟩ ?_ replies⟩
      · exact hnum.ge
      · exact hnum.le.trans hreached.1.ge
      · rw [hshards, hnum]
        exact h.first.symm
      · exact fun record hrecord => nomatch hpending.symm.trans hrecord
      · exact fun record hrecord => nomatch hpending.symm.trans hrecord
      · exact (reached_idle hpending).mpr ⟨hreached.1.trans hnum.symm, hreached.2⟩
  | succ m =>
      rw [hlen] at hafter
      obtain ⟨r, hm, hfollows⟩ := hafter
      have hrec := h.evidence.records r (List.mem_of_getElem? hm)
      have hlast : s.stored.getLast? = some r := by
        rw [List.getLast?_eq_getElem?, hlen]
        exact hm
      have hreached := h.reached
      rw [hlast] at hreached
      have hcons := hinv.consistent hm
      cases hfollows with
      | takeover owner =>
          exact ⟨a, .refl, h.store hinv hr h.aside (fun _ _ => rfl) (hrec.takeover owner) hreached
            replies⟩
      | plan next hpending hnum hnext =>
          obtain ⟨hl, hstage⟩ := (reached_idle hpending).mp hreached
          rw [Tnum.addOne_eq (hinv.num_ne_maxInt (fun cfg hcfg => (hG cfg hcfg).1) hm)] at hnum
          obtain ⟨a', ha, hlast', hstage', howner, hcell⟩ :=
            aside_plan hr h.unassigned h.frozen hstage (next.shards x)
          have hnum' : next.num = a'.last := by rw [hlast', hl, hnum]
          have hrec' := (hrec.extends (extends_of_star hr ha.star)).plan hnum hnum'
            (by rw [hnum', hlast', howner])
          refine ⟨a', ha.star, h.store hinv hr ha hcell hrec' ⟨hnum'.symm, ?_⟩ replies⟩
          refine hstage'.trans (if_neg fun hcurrent => ?_).symm
          have heq := congrArg ShardConfig.num hcurrent
          dsimp only at heq
          lia
      | publish record hpending hcurrent =>
          obtain ⟨hl, hstage⟩ := (reached_pending hpending).mp hreached
          have hne : r.current ≠ record.toConfig := hcurrent ▸ hcons.ne hpending
          rw [if_neg hne] at hstage
          have hinstalled := (hbacked m r record hlen hm hpending).1 hcurrent rfl
          unfold Installed at hinstalled
          rw [← hl] at hinstalled
          obtain ⟨a', ha, hlast', hstage', hcell⟩ :=
            aside_publish hr h.unassigned h.frozen hstage hinstalled
          have hrec' := (hrec.extends (extends_of_star hr ha.star)).publish hpending
            (Or.inr ⟨by rw [hlast', hl], by rw [hstage']; decide⟩)
          have hpending' : ({ r with current := record.toConfig } : ControllerState).pending =
            some record := hpending
          refine ⟨a', ha.star, h.store hinv hr ha hcell hrec' ?_ replies⟩
          exact (reached_pending hpending').mpr ⟨hlast'.trans hl, hstage'.trans (if_pos rfl).symm⟩
      | clear record hpending hcurrent =>
          obtain ⟨hl, hstage⟩ := (reached_pending hpending).mp hreached
          rw [if_pos hcurrent] at hstage
          have hdropped := (hbacked m r record hlen hm hpending).2 rfl
          unfold Dropped at hdropped
          rw [← hl] at hdropped
          have ha : Aside a { a with stage := .settled } := by
            refine h.single hr (.settle hstage hdropped) rfl (fun n hp => ?_) rfl rfl
            exact hp.imp_right fun hlast => ⟨hlast.1, by simp [hstage]⟩
          refine ⟨_, ha.star, h.store hinv hr ha (fun _ _ => rfl)
            (hrec.extends (extends_of_star hr ha.star)).clear ⟨?_, rfl⟩ replies⟩
          exact hl.trans (congrArg ShardConfig.num hcurrent).symm

theorem Ownership.same (hinv : ControllerInv G id s) (hr : shardHandover.Reachable a)
    (h : Ownership x s a) {gid : Tgid} {kv : KVServer} (hkv : kv x = s.groups gid x) :
    Ownership x { s with groups := Function.update s.groups gid kv } a := by
  refine h.execute hinv hr h.aside rfl rfl ?_ (hkv ▸ h.values gid) fun g hg => ?_
  · rintro rfl
    rw [hkv]
    exact h.zero
  · split
    · rename_i heq
      rw [hkv, ← heq]
      exact h.cell g hg
    · rfl

theorem decodeShardTransfer_encode {st : ShardState} (h : st.values ≠ .nil) :
    decodeShardTransfer (encodeShardTransfer st.values st.requests) = st.cell.content := by
  change ({ values := st.values.orMake, requests := st.requests } : ShardTransfer) = _
  rw [GoMap.orMake_of_ne_nil _ h]
  rfl

/-- A group executes a request of a controller. -/
theorem Ownership.request (hinv : ControllerInv G id s) (hr : shardHandover.Reachable a)
    (h : Ownership x s a) {k : ℕ} {gid : Tgid} {req : Request} {kv : KVServer} {reply : Reply}
    (hk : s.sent[k]? = some (gid, req)) (hdo : (s.groups gid).doOp req = some (kv, reply)) :
    ∃ a', shardHandover.Star a a' ∧
      Ownership x { s with groups := Function.update s.groups gid kv } a' ∧
        Told x a' req reply := by
  have hi := Inv.reachable hr
  have hasked := h.evidence.sent k gid req hk
  have heffect := KVServer.doOp_effect hdo x
  have hcell := h.cell gid
  have hvalues := h.values gid
  generalize hst : s.groups gid x = st at heffect hcell hvalues
  generalize hst' : kv x = st' at heffect
  cases heffect with
  | get | put | putRefused | putElsewhere => cases hasked
  | freezeRefused | installRefused | deleteRefused =>
      exact ⟨a, .refl, h.same hinv hr (hst'.trans hst.symm), trivial⟩
  | elsewhere req reply st hother =>
      refine ⟨a, .refl, h.same hinv hr (hst'.trans hst.symm), ?_⟩
      unfold Told
      split
      · exact fun hy => absurd hy (hother _ _ none (Or.inl rfl))
      · exact fun hy => absurd hy (hother _ _ _ (Or.inr (Or.inl rfl)))
      · exact fun hy => absurd hy (hother _ _ none (Or.inr (Or.inr rfl)))
      · trivial
  | frozen num st hstatus hnum =>
      refine ⟨a, .refl, h.same hinv hr (hst'.trans hst.symm), fun _ => ?_⟩
      have hfrozen :=
        (hi.frozen_cell gid (by rw [hcell hasked.1, ShardState.cell, hstatus]; rfl)).2.2.1
      rw [hcell hasked.1] at hfrozen
      rw [decodeShardTransfer_encode hvalues, hnum]
      exact hfrozen
  | installed data num st hstatus hnum =>
      refine ⟨a, .refl, h.same hinv hr (hst'.trans hst.symm), fun _ => ?_⟩
      obtain ⟨hm, howner, -⟩ := hasked.2 rfl
      have hserving :=
        (hi.serving_cell gid (by rw [hcell hasked.1, ShardState.cell, hstatus]; rfl)).2
      rw [hcell hasked.1] at hserving
      rw [hnum]
      exact hserving (hm.1.trans_eq hnum)
  | deleted num st hpast =>
      refine ⟨a, .refl, h.same hinv hr (hst'.trans hst.symm), fun _ => ?_⟩
      obtain ⟨hm, howner, -⟩ := hasked.2 rfl
      rcases hpast with hlt | ⟨hnum, hstatus⟩
      · have hle := hi.num_le gid
        rw [hcell hasked.1] at hle
        exact hi.settled num hm (Or.inl (hlt.trans_le hle))
      · have habsent := hi.absent_cell gid (by rw [hcell hasked.1, ShardState.cell, hstatus]; rfl)
        rw [hcell hasked.1] at habsent
        have hpos := hm.1
        rw [hnum] at hpos ⊢
        exact habsent (zero_lt_one.trans hpos)
  | freeze num st hstatus hnum =>
      obtain ⟨hgid, hm, howner⟩ := And.imp_right (fun h => h rfl) hasked
      have hcell := hcell hgid
      rw [howner] at hcell hgid
      obtain ⟨a', ha, hlast, hstage, hfrozen, hcell'⟩ :=
        aside_freeze hr h.unassigned h.frozen hm hgid
        (by rw [hcell, ShardState.cell, hstatus]; rfl) (by rw [hcell]; exact hnum)
        (by rw [hcell]; exact hvalues)
      refine ⟨a', ha.star, h.execute hinv hr ha hlast hstage ?_ ?_ ?_, fun _ => ?_⟩
      · exact fun hzero => absurd (howner.symm.trans hzero) hgid
      · rw [hst']
        exact hvalues
      · intro g hg
        rw [hcell' g hg, hcell, howner, hst']
        rfl
      · rw [decodeShardTransfer_encode hvalues, hfrozen, hcell]
  | install data num st hstatus hnum =>
      obtain ⟨hgid, hm, howner, hd⟩ := And.imp_right (fun h => h rfl) hasked
      have hcell := hcell hgid
      rw [howner] at hcell hgid
      have hstep : Step a (a.install num (decodeShardTransfer data)) :=
        .install num _ hm hd (by rw [hcell, ShardState.cell, hstatus]; rfl)
          (by rw [hcell]; exact hnum)
      have ha := h.single hr hstep rfl (fun _ hp => hp) rfl
        (by rw [State.install_cell, if_neg hgid.symm])
      refine ⟨_, ha.star, h.execute hinv hr ha rfl rfl ?_ ?_ ?_, fun _ => Set.mem_insert _ _⟩
      · exact fun hzero => absurd (howner.symm.trans hzero) hgid
      · rw [hst']
        exact h.frozen num _ hd
      · intro g hg
        rw [State.install_cell, howner, hst']
        rfl
  | delete num st hstatus hnum =>
      obtain ⟨hgid, hm, howner, hp⟩ := And.imp_right (fun h => h rfl) hasked
      have hcell := hcell hgid
      rw [howner] at hcell hgid
      have hstep : Step a (a.delete num (decodeShardTransfer none)) :=
        .delete num _ hm hp (by rw [hcell, ShardState.cell, hstatus]; rfl)
          (by rw [hcell]; exact hnum.symm)
      have ha := h.single hr hstep rfl (fun _ hp => hp) rfl
        (by rw [State.delete_cell, if_neg hgid.symm])
      refine ⟨_, ha.star, h.execute hinv hr ha rfl rfl ?_ ?_ ?_, fun _ => Set.mem_insert _ _⟩
      · exact fun hzero => absurd (howner.symm.trans hzero) hgid
      · rw [hst']
        exact GoMap.orMake_ne_nil .nil
      · intro g hg
        rw [State.delete_cell, howner, hst', hnum]
        rfl

/-- A group executes a request of a client. -/
theorem Ownership.client (hinv : ControllerInv G id s) (hr : shardHandover.Reachable a)
    (h : Ownership x s a) {gid : Tgid} {req : Request} {kv : KVServer} {reply : Reply}
    (hreq : (∃ args, req = .get args) ∨ ∃ args, req = .put args)
    (hdo : (s.groups gid).doOp req = some (kv, reply)) :
    ∃ a', shardHandover.Star a a' ∧
      Ownership x { s with groups := Function.update s.groups gid kv } a' := by
  have heffect := KVServer.doOp_effect hdo x
  have hcell := h.cell gid
  have hvalues := h.values gid
  have hzero : gid = 0 → (s.groups gid x).status = .shardAbsent := by
    rintro rfl
    exact h.zero
  generalize hst : s.groups gid x = st at heffect hcell hvalues hzero
  generalize hst' : kv x = st' at heffect
  cases heffect with
  | get | putRefused | putElsewhere => exact ⟨a, .refl, h.same hinv hr (hst'.trans hst.symm)⟩
  | freezeRefused | installRefused | deleteRefused | frozen | installed | deleted | freeze | install
  | delete => simp at hreq
  | elsewhere req reply st _ hother =>
      rcases hreq with ⟨args, heq⟩ | ⟨args, heq⟩
      · exact absurd heq (hother.1 args)
      · exact absurd heq (hother.2 args)
  | put args reply st requests values hx hstatus hdo =>
      have hgid : gid ≠ 0 := fun heq => by simp [hzero heq] at hstatus
      have hserving : (a.cell gid).status = .serving := by
        rw [hcell hgid, ShardState.cell, hstatus]
        rfl
      have hstep : Step a (a.write gid ⟨values, requests⟩) := .write gid _ hserving
      have ha := h.single hr hstep rfl (fun _ hp => hp) rfl
        (by rw [State.write_cell, if_neg hgid.symm])
      refine ⟨_, ha.star, h.execute hinv hr ha rfl rfl (absurd · hgid) ?_ ?_⟩
      · rw [hst']
        rcases (Dedup.Table.done_of_doPut hdo).state with heq | ⟨reply', happly⟩
        · rw [heq]
          exact hvalues
        · exact ShardState.applyPut_ne_nil happly hvalues
      · intro g hg
        rw [State.write_cell, hcell hgid, hst']
        rfl

variable [DecidableEq Ctl]

/-- Every step of the system is a few steps of the handover of a shard. -/
theorem Ownership.step (hG : ∀ cfg, G.first cfg → cfg.First) (hinv : ControllerInv G id s)
    (hr : shardHandover.Reachable a) (h : Ownership x s a) (hs : ShardStep G id s s') :
    ∃ a', shardHandover.Star a a' ∧ Ownership x s' a' := by
  cases hs with
  | move c sck hm =>
      have hev := h.evidence.setCtrler (c := c) (h.evidence.moves hinv h.unassigned hm)
      exact ⟨a, .refl, hev, h.unassigned, h.frozen, h.first, h.reached, h.cell, h.zero, h.values⟩
  | sendPut c version state resent swap hm =>
      have hev := h.evidence.sendPut hinv hm
      exact ⟨a, .refl, hev, h.unassigned, h.frozen, h.first, h.reached, h.cell, h.zero, h.values⟩
  | send c r i job hpc =>
      have hev := h.evidence.send hinv hpc
      exact ⟨a, .refl, hev, h.unassigned, h.frozen, h.first, h.reached, h.cell, h.zero, h.values⟩
  | executePut k version state hk =>
      rcases putState_cases state (hinv.puts k version state hk).le with ⟨rfl, heq⟩ | ⟨-, heq⟩
      · rw [heq]
        exact h.follows hG hinv hr hk _
      · rw [heq]
        have hev := h.evidence
        exact ⟨a, .refl, ⟨hev.records, hev.puts, hev.sent, hev.replies, hev.pcs⟩, h.unassigned,
          h.frozen, h.first, h.reached, h.cell, h.zero, h.values⟩
  | execute k gid req kv reply hk hdo =>
      obtain ⟨a', hstar, h', htold⟩ := h.request hinv hr hk hdo
      have hev := h'.evidence
      refine ⟨a', hstar, ⟨hev.records, hev.puts, hev.sent, fun k' call reply' hk' => ?_, hev.pcs⟩,
        h'.unassigned, h'.frozen, h'.first, h'.reached, h'.cell, h'.zero, h'.values⟩
      rcases Pool.concat_cases hk' with hk' | ⟨-, heq⟩
      · exact hev.replies k' call reply' hk'
      · cases heq
        exact ⟨gid, req, hk, htold⟩
  | client gid req kv reply hreq hdo => exact h.client hinv hr hreq hdo

end

variable [DecidableEq Ctl]

theorem shard_simulation {G : Configs} (hG : ∀ cfg, G.first cfg → cfg.First) (id : Ctl ↪ GoString)
    (x : Tshid) : Simulation (shardSys G id) shardHandover (Ownership x) where
  init s hs := by
    obtain rfl := hs
    exact ⟨_, rfl, .init x⟩
  step s _ s' a hs ha h hstep :=
    h.step hG (.reachable id.injective hs) ha (.of_step hstep)

end RaftShardedKv
