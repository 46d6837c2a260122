import RaftShardedKv.Kv.AtMostOnce
import RaftShardedKv.Lib.Handover
import RaftShardedKv.Shard.Fencing
import RaftShardedKv.Shard.Plans

/-!
What the metadata, the messages and the controllers say about how far one
shard has been handed over.

The history of the shard is that of `Lib.Handover`. All that is said here
of it is said for good: a record that names the owner under a number, a
request that was right to send, a reply, the point that a controller has
reached in its loop. A controller may stop anywhere and its requests may
come late, and they still are right, because the history is only ever
extended.

Group 0 stands for no group. A shard that is taken from a group and given
to none is handed to group 0 in the history, and one that is given to a
group afterwards comes from there, empty.
-/

namespace RaftShardedKv

open Transition

variable {Ctl : Type}

abbrev Held := Handover.State Tgid ShardTransfer

/-! ### Plans -/

/-- The plan is in the history of shard `x`. -/
structure Planned (x : Tshid) (a : Held) (record : MigrationRecord) : Prop where
  pos : 1 < record.toConfig.num
  le : record.toConfig.num ≤ a.last
  source : record.fromConfig.shards x = a.owner (record.toConfig.num - 1)
  target : record.toConfig.shards x = a.owner record.toConfig.num

def Installed (a : Held) (record : MigrationRecord) : Prop :=
  a.Moves record.toConfig.num → record.toConfig.num ∈ a.installed

/-- If the plan moves the shard, its old owner has it no more. -/
def Dropped (a : Held) (record : MigrationRecord) : Prop :=
  a.Moves record.toConfig.num → record.toConfig.num ∈ a.deleted

/-- What a record says. -/
structure Documented (x : Tshid) (a : Held) (r : ControllerState) : Prop where
  pos : 1 ≤ r.current.num
  le : r.current.num ≤ a.last
  owner : r.current.shards x = a.owner r.current.num
  planned : ∀ record, r.pending = some record → Planned x a record
  published : ∀ record, r.pending = some record → r.current = record.toConfig →
    a.Published record.toConfig.num

/-- How far the history is by the last record. -/
def Reached (a : Held) : Option ControllerState → Prop
  | none => a.last = 1 ∧ a.stage = .settled
  | some r =>
      match r.pending with
      | none => a.last = r.current.num ∧ a.stage = .settled
      | some record => a.last = record.toConfig.num ∧
          a.stage = if r.current = record.toConfig then .published else .planned

/-- What has been done before a record is stored. -/
def Backed (a : Held) (stored : List ControllerState) (version : ℕ) (st : ControllerState) : Prop :=
  ∀ (m : ℕ) r record, version = m + 1 → stored[m]? = some r → r.pending = some record →
    (r.current = record.fromConfig → st.current = record.toConfig → Installed a record) ∧
      (st.pending = none → Dropped a record)

/-! ### Messages -/

/-- A request that is right to send to a group. -/
def Asked (x : Tshid) (a : Held) (gid : Tgid) : Request → Prop
  | .freezeShard y num => gid ≠ 0 ∧ (y = x → a.Moves num ∧ gid = a.owner (num - 1))
  | .installShard y data num => gid ≠ 0 ∧ (y = x → a.Moves num ∧ gid = a.owner num ∧
      a.frozen num = some (decodeShardTransfer data))
  | .deleteShard y num => gid ≠ 0 ∧ (y = x → a.Moves num ∧ gid = a.owner (num - 1) ∧
      a.Published num)
  | _ => False

/-- What a reply tells. -/
def Told (x : Tshid) (a : Held) : Request → Reply → Prop
  | .freezeShard y num, .freezeShard data _ .ok =>
      y = x → a.frozen num = some (decodeShardTransfer data)
  | .installShard y _ num, .installShard .ok => y = x → num ∈ a.installed
  | .deleteShard y num, .deleteShard .ok => y = x → num ∈ a.deleted
  | _, _ => True

/-! ### Controllers -/

/-- What has been done before a call to a group. -/
def Prepared (x : Tshid) (a : Held) (r : Recovery) (i : Tshid) : Job → Prop
  | .freeze => x.val < i.val → Installed a r.record
  | .install data => (x.val < i.val → Installed a r.record) ∧
      (i = x → a.frozen r.record.toConfig.num = some (decodeShardTransfer data))
  | .delete => x.val < i.val → Dropped a r.record

def Justified (r : Recovery) (i : Tshid) (job : Job) : Prop :=
  r.record.fromConfig.shards i ≠ r.record.toConfig.shards i ∧ r.gid i job ≠ 0

/-- How far a controller is. -/
def Progress (x : Tshid) (a : Held) (sent : List (Tgid × Request)) : Pc → Prop
  | .migrate r i => x.val < i → Installed a r.record
  | .check r i job => Justified r i job ∧ Prepared x a r i job
  | .call r i job call => Justified r i job ∧ Prepared x a r i job ∧
      sent[call]? = some (r.gid i job, r.request i job)
  | .remove r i => x.val < i → Dropped a r.record
  | _ => True

/-- Everything that is known of the history of shard `x`. -/
structure Evidence (x : Tshid) (s : ShardSystem Ctl) (a : Held) : Prop where
  records : ∀ r ∈ s.stored, Documented x a r
  puts : ∀ (k : ℕ) v st, s.puts[k]? = some (v, st) → Backed a s.stored v st
  sent : ∀ (k : ℕ) gid req, s.sent[k]? = some (gid, req) → Asked x a gid req
  replies : ∀ (k : ℕ) call reply, s.replies[k]? = some (call, reply) →
    ∃ gid req, s.sent[call]? = some (gid, req) ∧ Told x a req reply
  pcs : ∀ c, Progress x a s.sent (s.ctrlers c).pc

/-! ### Said for good -/

section

variable {x : Tshid} {a a' : Held}

theorem reached_idle {r : ControllerState} (h : r.pending = none) :
    Reached a (some r) ↔ a.last = r.current.num ∧ a.stage = .settled := by
  simp [Reached, h]

theorem reached_pending {r : ControllerState} {record : MigrationRecord}
    (h : r.pending = some record) :
    Reached a (some r) ↔ a.last = record.toConfig.num ∧
      a.stage = if r.current = record.toConfig then .published else .planned := by
  simp [Reached, h]

theorem Documented.takeover {r : ControllerState} (h : Documented x a r) (owner : GoString) :
    Documented x a { r with owner := owner, epoch := r.epoch + 1 } :=
  ⟨h.pos, h.le, h.owner, h.planned, h.published⟩

theorem Documented.plan {r : ControllerState} (h : Documented x a r) {next : ShardConfig}
    (hnum : next.num = r.current.num + 1) (hlast : next.num = a.last)
    (howner : a.owner next.num = next.shards x) :
    Documented x a { r with pending := some ⟨r.current, next⟩ } := by
  have hpos := h.pos
  refine ⟨hpos, h.le, h.owner, fun record hrecord => ?_, fun record hrecord hcurrent => ?_⟩
  · cases hrecord
    refine ⟨?_, hlast.le, ?_, howner.symm⟩
    · dsimp only
      lia
    · dsimp only
      rw [hnum, Int.add_sub_cancel]
      exact h.owner
  · cases hrecord
    have heq := congrArg ShardConfig.num hcurrent
    dsimp only at heq
    lia

theorem Documented.publish {r : ControllerState} (h : Documented x a r) {record : MigrationRecord}
    (hpending : r.pending = some record) (hpublished : a.Published record.toConfig.num) :
    Documented x a { r with current := record.toConfig } := by
  have hplanned := h.planned record hpending
  refine ⟨hplanned.pos.le, hplanned.le, hplanned.target, h.planned, fun record' hrecord' _ => ?_⟩
  cases hpending.symm.trans hrecord'
  exact hpublished

theorem Documented.clear {r : ControllerState} (h : Documented x a r) :
    Documented x a { r with pending := none } :=
  ⟨h.pos, h.le, h.owner, fun _ hrecord => (nomatch hrecord), fun _ hrecord => (nomatch hrecord)⟩

theorem Planned.moves_iff {record : MigrationRecord} (h : Planned x a record) :
    a.Moves record.toConfig.num ↔ record.fromConfig.shards x ≠ record.toConfig.shards x := by
  rw [h.source, h.target]
  exact ⟨fun hm => hm.2.2, fun hne => ⟨h.pos, h.le, hne⟩⟩

variable (he : Handover.Extends a a')

include he

theorem Planned.extends {record : MigrationRecord} (h : Planned x a record) :
    Planned x a' record where
  pos := h.pos
  le := h.le.trans he.last
  source := h.source.trans (he.owner _ (by have := h.le; lia)).symm
  target := h.target.trans (he.owner _ h.le).symm

theorem Installed.extends {record : MigrationRecord} (hp : Planned x a record)
    (h : Installed a record) : Installed a' record := fun hm =>
  he.installed (h ((he.moves_iff hp.le).mp hm))

theorem Dropped.extends {record : MigrationRecord} (hp : Planned x a record)
    (h : Dropped a record) : Dropped a' record := fun hm =>
  he.deleted (h ((he.moves_iff hp.le).mp hm))

theorem Documented.extends {r : ControllerState} (h : Documented x a r) : Documented x a' r where
  pos := h.pos
  le := h.le.trans he.last
  owner := h.owner.trans (he.owner _ h.le).symm
  planned record hr := (h.planned record hr).extends he
  published record hr hc := he.published _ (h.published record hr hc)

theorem Asked.extends {gid : Tgid} {req : Request} (h : Asked x a gid req) :
    Asked x a' gid req := by
  cases req with
  | get args => exact h
  | put args => exact h
  | freezeShard y num =>
      refine ⟨h.1, fun hy => ?_⟩
      obtain ⟨hm, hgid⟩ := h.2 hy
      have hle := hm.2.1
      exact ⟨he.moves hm, hgid.trans (he.owner _ (by lia)).symm⟩
  | installShard y data num =>
      refine ⟨h.1, fun hy => ?_⟩
      obtain ⟨hm, hgid, hd⟩ := h.2 hy
      exact ⟨he.moves hm, hgid.trans (he.owner _ hm.2.1).symm, he.frozen _ _ hd⟩
  | deleteShard y num =>
      refine ⟨h.1, fun hy => ?_⟩
      obtain ⟨hm, hgid, hp⟩ := h.2 hy
      have hle := hm.2.1
      exact ⟨he.moves hm, hgid.trans (he.owner _ (by lia)).symm, he.published _ hp⟩

theorem Told.extends {req : Request} {reply : Reply} (h : Told x a req reply) :
    Told x a' req reply := by
  unfold Told at h ⊢
  split
  · exact fun hy => he.frozen _ _ (h hy)
  · exact fun hy => he.installed (h hy)
  · exact fun hy => he.deleted (h hy)
  · trivial

theorem Prepared.extends {r : Recovery} {i : Tshid} {job : Job} (hp : Planned x a r.record)
    (h : Prepared x a r i job) : Prepared x a' r i job := by
  cases job with
  | freeze => exact fun hx => (h hx).extends he hp
  | install data => exact ⟨fun hx => (h.1 hx).extends he hp, fun hi => he.frozen _ _ (h.2 hi)⟩
  | delete => exact fun hx => (h hx).extends he hp

end

section

variable {x : Tshid} {a a' : Held} {G : Configs} {id : Ctl → GoString} {s s' : ShardSystem Ctl}

theorem Evidence.planned (h : Evidence x s a) {o : GoString} {r : Recovery}
    (hr : r.Valid G o s.stored) : Planned x a r.record := by
  obtain ⟨v, -, hget⟩ := hr.read
  exact (h.records r.state (List.mem_of_getElem? hget)).planned r.record hr.pending

theorem Evidence.published (h : Evidence x s a) {o : GoString} {r : Recovery}
    (hr : r.Valid G o s.stored) (hcurrent : r.state.current = r.record.toConfig) :
    a.Published r.record.toConfig.num := by
  obtain ⟨v, -, hget⟩ := hr.read
  exact (h.records r.state (List.mem_of_getElem? hget)).published r.record hr.pending hcurrent

theorem Evidence.extends (hinv : ControllerInv G id s) (h : Evidence x s a)
    (he : Handover.Extends a a') : Evidence x s a' where
  records r hr := (h.records r hr).extends he
  puts k v st hk m r record hv hm hrecord := by
    have hp := (h.records r (List.mem_of_getElem? hm)).planned record hrecord
    obtain ⟨hinst, hdrop⟩ := h.puts k v st hk m r record hv hm hrecord
    exact ⟨fun hf ht => (hinst hf ht).extends he hp, fun hn => (hdrop hn).extends he hp⟩
  sent k gid req hk := (h.sent k gid req hk).extends he
  replies k call reply hk := by
    obtain ⟨gid, req, hsent, htold⟩ := h.replies k call reply hk
    exact ⟨gid, req, hsent, htold.extends he⟩
  pcs c := by
    have hpc := h.pcs c
    have hvalid := hinv.pcs c
    generalize (s.ctrlers c).pc = pc at hpc hvalid ⊢
    cases pc with
    | migrate r i => exact fun hx => (hpc hx).extends he (h.planned hvalid.1)
    | check r i job => exact ⟨hpc.1, hpc.2.extends he (h.planned hvalid.1)⟩
    | call r i job call => exact ⟨hpc.1, hpc.2.1.extends he (h.planned hvalid.1), hpc.2.2⟩
    | remove r i => exact fun hx => (hpc hx).extends he (h.planned hvalid.1)
    | _ => trivial

variable [DecidableEq Ctl]

theorem Evidence.setCtrler (h : Evidence x s a) {c : Ctl} {sck : ShardCtrler}
    (hpc : Progress x a s.sent sck.pc) : Evidence x (s.setCtrler c sck) a := by
  refine ⟨h.records, h.puts, h.sent, h.replies, fun c' => ?_⟩
  change Progress x a s.sent (Function.update s.ctrlers c sck c').pc
  rcases eq_or_ne c' c with rfl | hne
  · rw [Function.update_self]
    exact hpc
  · rw [Function.update_of_ne hne]
    exact h.pcs c'

/-! ### Controllers go by what is known -/

/-- Group 0 carries out its part of a plan at once, and holds nothing. -/
structure Unassigned (a : Held) : Prop where
  content : (a.cell 0).status = .serving → (a.cell 0).content = decodeShardTransfer none
  source : ∀ n, a.Moves n → a.owner (n - 1) = 0 → a.frozen n = some (decodeShardTransfer none)
  dropped : ∀ n, a.Moves n → a.owner (n - 1) = 0 → a.Published n → n ∈ a.deleted
  installed : ∀ n, a.Moves n → a.owner n = 0 → a.frozen n ≠ none → n ∈ a.installed

omit [DecidableEq Ctl] in
theorem Evidence.told (h : Evidence x s a) {c : Ctl} {r : Recovery} {i : Tshid} {job : Job}
    {call k : ℕ} {reply : Reply} (hpc : (s.ctrlers c).pc = .call r i job call)
    (hk : s.replies[k]? = some (call, reply)) : Told x a (r.request i job) reply := by
  obtain ⟨gid, req, hsent, htold⟩ := h.replies k call reply hk
  have hprogress := h.pcs c
  rw [hpc] at hprogress
  cases hsent.symm.trans hprogress.2.2
  exact htold

theorem past_succ {P : Prop} {i : Tshid} (h : x.val < i.val → P) (hi : i = x → P) :
    x.val < i.val + 1 → P := fun hlt =>
  (Nat.lt_succ_iff_lt_or_eq.mp hlt).elim h fun heq => hi (Fin.ext heq.symm)

section

omit [DecidableEq Ctl]

theorem Evidence.moves (hinv : ControllerInv G id s) (hu : Unassigned a) (h : Evidence x s a)
    {c : Ctl} {sck : ShardCtrler} (hm : Moves G (id c) s (s.ctrlers c) sck) :
    Progress x a s.sent sck.pc := by
  have hpcs := h.pcs c
  have hvalid := hinv.pcs c
  have hrecovered : ∀ task, Progress x a s.sent (ShardCtrler.recovered task) := by
    intro task
    cases task <;> trivial
  have hswapped : ∀ st swap, Progress x a s.sent ((s.ctrlers c).swapped st swap true).pc := by
    intro st swap
    cases swap with
    | clear task => exact hrecovered task
    | _ => trivial
  cases hm with
  | call task hpc =>
      unfold ShardCtrler.ensureLeadership
      split <;> trivial
  | stop => trivial
  | lead => trivial
  | recovered task => exact hrecovered task
  | found r => exact fun hx => absurd hx (Nat.not_lt_zero _)
  | skip => trivial
  | stay r i hpc heq =>
      rw [hpc] at hpcs hvalid
      refine past_succ hpcs ?_
      rintro rfl hmoves
      exact absurd heq ((h.planned hvalid.1).moves_iff.mp hmoves)
  | freeze r i clerks hpc hne hsource =>
      rw [hpc] at hpcs
      exact ⟨⟨hne, hsource⟩, hpcs⟩
  | create r i clerks hpc hne hsource =>
      rw [hpc] at hpcs hvalid
      have hplanned := h.planned hvalid.1
      refine ⟨⟨hne, fun htarget => hne (hsource.trans htarget.symm)⟩, hpcs, ?_⟩
      rintro rfl
      exact hu.source _ (hplanned.moves_iff.mpr hne) (hplanned.source.symm.trans hsource)
  | frozen r i call data num k clerks hpc hreply htarget =>
      have htold := h.told hpc hreply
      rw [hpc] at hpcs
      exact ⟨⟨hpcs.1.1, htarget⟩, hpcs.2.1, htold⟩
  | drop r i call data num k hpc hreply htarget =>
      have htold := h.told hpc hreply
      rw [hpc] at hpcs hvalid
      have hplanned := h.planned hvalid.1
      refine past_succ hpcs.2.1 ?_
      rintro rfl hmoves
      exact hu.installed _ hmoves (hplanned.target.symm.trans htarget)
        (Option.ne_none_iff_exists'.mpr ⟨_, htold rfl⟩)
  | installed r i data call k hpc hreply =>
      have htold := h.told hpc hreply
      rw [hpc] at hpcs
      exact past_succ hpcs.2.1.1 fun hi _ => htold hi
  | deleted r i call k hpc hreply =>
      have htold := h.told hpc hreply
      rw [hpc] at hpcs
      exact past_succ hpcs.2.1 fun hi _ => htold hi
  | lost r i job call hpc =>
      rw [hpc] at hpcs
      exact ⟨hpcs.1, hpcs.2.1⟩
  | published r state version hpc => exact fun hx => absurd hx (Nat.not_lt_zero _)
  | keep r i hpc heq =>
      rw [hpc] at hpcs hvalid
      have hplanned := h.planned hvalid.1
      refine past_succ hpcs ?_
      rintro rfl hmoves
      rcases heq with hsource | heq
      · exact hu.dropped _ hmoves (hplanned.source.symm.trans hsource)
          (h.published hvalid.1 hvalid.2)
      · exact absurd heq (hplanned.moves_iff.mp hmoves)
  | delete r i clerks hpc hne hsource =>
      rw [hpc] at hpcs
      exact ⟨⟨hne, hsource⟩, hpcs⟩
  | swapped call version state resent swap => exact hswapped state swap
  | maybe => trivial
  | confirmed state swap => exact hswapped state swap
  | rejected => trivial
  | unconfirmed => trivial

/-- What a controller asks to be stored is backed by what has been done. -/
theorem Evidence.backed (hinv : ControllerInv G id s) (h : Evidence x s a) {c : Ctl}
    {version : ℕ} {state : ControllerState} {resent : Bool} {swap : Swap}
    (hm : Sends G (id c) s (s.ctrlers c) version state resent swap) :
    Backed a s.stored version state := by
  have hpcs := h.pcs c
  have hvalid := hinv.pcs c
  cases hm with
  | init cfg hpc =>
      intro m r record hv
      cases hv
  | elect task st v hpc hread =>
      intro m r record hv hget hrecord
      obtain ⟨-, -, m', rfl, hget'⟩ := readState_eq_some hread
      obtain rfl : m = m' := by omega
      cases hget.symm.trans hget'
      exact ⟨fun hf ht => absurd (hf.symm.trans ht) ((hinv.consistent hget).ne hrecord),
        fun hnone => nomatch hnone.symm.trans hrecord⟩
  | publish r i hpc hi =>
      rw [hpc] at hpcs hvalid
      intro m r' record hv hget hrecord
      obtain ⟨m', hv', hget'⟩ := hvalid.1.read
      obtain rfl : m = m' := by omega
      cases hget.symm.trans hget'
      cases hvalid.1.pending.symm.trans hrecord
      exact ⟨fun _ _ => hpcs (x.isLt.trans_le hi), fun hnone => nomatch hnone.symm.trans hrecord⟩
  | clear r i hpc hi =>
      rw [hpc] at hpcs hvalid
      intro m r' record hv hget hrecord
      obtain ⟨m', hv', hget'⟩ := hvalid.1.read
      obtain rfl : m = m' := by omega
      cases hget.symm.trans hget'
      cases hvalid.1.pending.symm.trans hrecord
      exact ⟨fun hf ht => absurd (hf.symm.trans ht) ((hinv.consistent hget).ne hrecord),
        fun _ => hpcs (x.isLt.trans_le hi)⟩
  | plan next st v hpc howned =>
      rw [hpc] at hvalid
      intro m r record hv hget hrecord
      obtain ⟨hlast, -, m', rfl, hget'⟩ := readState_eq_some howned.read
      obtain rfl : m = m' := by omega
      cases hget.symm.trans hget'
      cases (hvalid.2 _ hlast howned.owner).symm.trans hrecord
  | again call v st resent' swap hpc =>
      rw [hpc] at hvalid
      exact h.puts call _ _ hvalid.1

theorem Evidence.asked (hinv : ControllerInv G id s) (h : Evidence x s a) {c : Ctl} {r : Recovery}
    {i : Tshid} {job : Job} (hpc : (s.ctrlers c).pc = .check r i job) :
    Asked x a (r.gid i job) (r.request i job) := by
  have hpcs := h.pcs c
  have hvalid := hinv.pcs c
  rw [hpc] at hpcs hvalid
  have hplanned := h.planned hvalid.1
  obtain ⟨⟨hne, hgid⟩, hprepared⟩ := hpcs
  cases job with
  | freeze =>
      refine ⟨hgid, ?_⟩
      rintro rfl
      exact ⟨hplanned.moves_iff.mpr hne, hplanned.source⟩
  | install data =>
      refine ⟨hgid, ?_⟩
      rintro rfl
      exact ⟨hplanned.moves_iff.mpr hne, hplanned.target, hprepared.2 rfl⟩
  | delete =>
      refine ⟨hgid, ?_⟩
      rintro rfl
      exact ⟨hplanned.moves_iff.mpr hne, hplanned.source, h.published hvalid.1 hvalid.2⟩

end

theorem Evidence.sendPut (hinv : ControllerInv G id s) (h : Evidence x s a) {c : Ctl}
    {version : ℕ} {state : ControllerState} {resent : Bool} {swap : Swap}
    (hm : Sends G (id c) s (s.ctrlers c) version state resent swap) :
    Evidence x (s.sendPut c version state resent swap) a := by
  have hput : Evidence x (s.setPc c (s.ctrlers c)
      (.put s.puts.length version state resent swap)) a := h.setCtrler trivial
  refine ⟨hput.records, fun k v st hk => ?_, hput.sent, hput.replies, hput.pcs⟩
  rcases Pool.concat_cases hk with hk | ⟨-, heq⟩
  · exact h.puts k v st hk
  · cases heq
    exact h.backed hinv hm

theorem Progress.append_sent {sent : List (Tgid × Request)} {pc : Pc} (h : Progress x a sent pc)
    (l : List (Tgid × Request)) : Progress x a (sent ++ l) pc := by
  cases pc with
  | call r i job call => exact ⟨h.1, h.2.1, Pool.append h.2.2 l⟩
  | _ => exact h

theorem Evidence.send (hinv : ControllerInv G id s) (h : Evidence x s a) {c : Ctl} {r : Recovery}
    {i : Tshid} {job : Job} (hpc : (s.ctrlers c).pc = .check r i job) :
    Evidence x { s.setPc c (s.ctrlers c) (.call r i job s.sent.length) with
      sent := s.sent ++ [(r.gid i job, r.request i job)] } a := by
  refine ⟨h.records, h.puts, fun k gid req hk => ?_, fun k call reply hk => ?_, fun c' => ?_⟩
  · rcases Pool.concat_cases hk with hk | ⟨-, heq⟩
    · exact h.sent k gid req hk
    · cases heq
      exact h.asked hinv hpc
  · obtain ⟨gid, req, hsent, htold⟩ := h.replies k call reply hk
    exact ⟨gid, req, Pool.append hsent _, htold⟩
  · change Progress x a (s.sent ++ [(r.gid i job, r.request i job)])
      (Function.update s.ctrlers c _ c').pc
    rcases eq_or_ne c' c with rfl | hne
    · rw [Function.update_self]
      have hpcs := h.pcs c'
      rw [hpc] at hpcs
      exact ⟨hpcs.1, hpcs.2, List.getElem?_concat_length⟩
    · rw [Function.update_of_ne hne]
      exact (h.pcs c').append_sent _

end

end RaftShardedKv
