import RaftShardedKv.Shard.Controllers

/-!
What is stored under the metadata key.

Every record follows from the one before it. For all of them but one this
is what the controller has read; for a plan it is that nothing is pending
in the record that the plan replaces, and the controller has seen that in
an earlier read only. What carries over from one read to the next is a
fact about the last record as long as it is the controller's own: nobody
else writes in its name, and it has no `Put` under way itself.
-/

namespace RaftShardedKv

open Transition

variable {Ctl : Type}

/-! ### Records that follow each other -/

/-- What a controller may store in the place of a record. -/
inductive Follows (G : Configs) (r : ControllerState) : ControllerState → Prop
  | takeover (owner : GoString) : Follows G r { r with owner := owner, epoch := r.epoch + 1 }
  | plan (next : ShardConfig) (hpending : r.pending = none) (hnum : next.num = r.current.num.addOne)
      (hnext : G.next next) : Follows G r { r with pending := some ⟨r.current, next⟩ }
  | publish (record : MigrationRecord) (hpending : r.pending = some record)
      (hcurrent : r.current = record.fromConfig) :
      Follows G r { r with current := record.toConfig }
  | clear (record : MigrationRecord) (hpending : r.pending = some record)
      (hcurrent : r.current = record.toConfig) : Follows G r { r with pending := none }

/-- The record may be stored where the key has this version. -/
def After (G : Configs) (stored : List ControllerState) : ℕ → ControllerState → Prop
  | 0, st => st.epoch = 1 ∧ st.pending = none ∧ G.first st.current
  | v + 1, st => ∃ r, stored[v]? = some r ∧ Follows G r st

variable {G : Configs} {stored : List ControllerState}

theorem After.le {v : ℕ} {st : ControllerState} (h : After G stored v st) : v ≤ stored.length := by
  cases v with
  | zero => exact Nat.zero_le _
  | succ v =>
      obtain ⟨r, hr, -⟩ := h
      exact (List.getElem?_eq_some_iff.mp hr).1

theorem After.append {v : ℕ} {st : ControllerState} (h : After G stored v st)
    (l : List ControllerState) : After G (stored ++ l) v st := by
  cases v with
  | zero => exact h
  | succ v =>
      obtain ⟨r, hr, hfollows⟩ := h
      exact ⟨r, Pool.append hr l, hfollows⟩

theorem readState_eq_some {state : ControllerState} {version : ℕ}
    (h : readState stored = some (state, version)) :
    stored.getLast? = some state ∧ version = stored.length ∧
      ∃ v, version = v + 1 ∧ stored[v]? = some state := by
  obtain ⟨last, hlast, heq⟩ := Option.map_eq_some_iff.mp h
  cases heq
  refine ⟨hlast, rfl, ?_⟩
  obtain ⟨l, rfl⟩ := List.getLast?_eq_some_iff.mp hlast
  exact ⟨l.length, by simp, by simp⟩

theorem map_fst_readState (stored : List ControllerState) :
    (readState stored).map Prod.fst = stored.getLast? := by
  unfold readState
  cases stored.getLast? <;> rfl

/-- `Put` stores the record, or it answers that it does not and the key
has moved on. -/
theorem putState_cases {v : ℕ} (st : ControllerState) (hle : v ≤ stored.length) :
    (v = stored.length ∧ putState stored v st = (stored ++ [st], .ok)) ∨
      v < stored.length ∧ putState stored v st = (stored, .errVersion) := by
  rcases hle.eq_or_lt with heq | hlt
  · left
    refine ⟨heq, ?_⟩
    cases stored with
    | nil => simp [putState, heq]
    | cons r l => simp [putState, heq]
  · right
    have hne : stored ≠ [] := List.ne_nil_of_length_pos (by omega)
    refine ⟨hlt, ?_⟩
    simp [putState, hne, hlt.ne']

/-! ### What a controller knows -/

def Task.Given (G : Configs) (task : Task) : Prop := ∀ next ∈ task, G.next next

/-- The task that `compareAndSwap` goes on with. -/
def Swap.task : Swap → Task
  | .init | .plan => none
  | .elect task | .clear task => task
  | .publish r => r.task

def Latest (id : GoString) (stored : List ControllerState) (P : ControllerState → Prop) : Prop :=
  ∀ last, stored.getLast? = some last → last.owner = id → P last

def Idle (st : ControllerState) : Prop := st.pending = none

/-- A recovery works on a record that its controller has read. -/
structure Recovery.Valid (G : Configs) (id : GoString) (stored : List ControllerState)
    (r : Recovery) : Prop where
  task : r.task.Given G
  read : ∃ v, r.version = v + 1 ∧ stored[v]? = some r.state
  owner : r.state.owner = id
  pending : r.state.pending = some r.record
  latest : Latest id stored fun _ => r.version = stored.length

/-- The configuration that is current when a call to a group is made. -/
def Job.current (record : MigrationRecord) : Job → ShardConfig
  | .freeze | .install _ => record.fromConfig
  | .delete => record.toConfig

/-- What holds of a controller by where it is. -/
def PcInv (G : Configs) (id : GoString) (puts : List (ℕ × ControllerState))
    (stored : List ControllerState) : Pc → Prop
  | .idle => True
  | .lead task | .elect task | .recover task => task.Given G
  | .put call version state _ swap =>
      puts[call]? = some (version, state) ∧ state.owner = id ∧ swap.task.Given G ∧
        ∀ task, swap = .clear task →
          Idle state ∧ (version < stored.length → Latest id stored Idle)
  | .confirm _ swap => swap.task.Given G ∧ ∀ task, swap = .clear task → Latest id stored Idle
  | .migrate r _ => r.Valid G id stored ∧ r.state.current = r.record.fromConfig
  | .check r _ job | .call r _ job _ => r.Valid G id stored ∧ r.state.current = job.current r.record
  | .published r => r.task.Given G
  | .remove r _ => r.Valid G id stored ∧ r.state.current = r.record.toConfig
  | .plan next => G.next next ∧ Latest id stored Idle

structure ControllerInv (G : Configs) (id : Ctl → GoString) (s : ShardSystem Ctl) : Prop where
  fits : s.stored.length ≤ maxVersion
  chain : ∀ (v : ℕ) st, s.stored[v]? = some st → After G s.stored v st
  puts : ∀ (k : ℕ) v st, s.puts[k]? = some (v, st) → After G s.stored v st
  /-- A `Put` that may still succeed is one that its controller waits for. -/
  live : ∀ (k : ℕ) st, s.puts[k]? = some (s.stored.length, st) → ∃ c call resent swap,
    st.owner = id c ∧ (s.ctrlers c).pc = .put call s.stored.length st resent swap
  answered : ∀ (k : ℕ) call err, s.putReplies[k]? = some (call, err) →
    ∃ v st, s.puts[call]? = some (v, st) ∧ v < s.stored.length ∧
      (err = .ok → s.stored[v]? = some st)
  answers : ∀ k err, (k, err) ∈ s.putReplies → err = .ok ∨ err = .errVersion
  once : (s.putReplies.map Prod.fst).Nodup
  pcs : ∀ c, PcInv G (id c) s.puts s.stored (s.ctrlers c).pc

section

variable {id : GoString} {puts : List (ℕ × ControllerState)} {s : ShardSystem Ctl}
  {sck sck' : ShardCtrler}

theorem Latest.of_read {state : ControllerState} {version : ℕ} {P : ControllerState → Prop}
    (h : readState stored = some (state, version)) (hP : P state) : Latest id stored P := by
  intro last hlast _
  obtain rfl := Option.some.inj ((readState_eq_some h).1.symm.trans hlast)
  exact hP

/-- A record in the name of the controller is what it waits for, so all
that it knows when it does not wait stays true. -/
theorem Latest.append {st : ControllerState} (P : ControllerState → Prop) (hne : st.owner ≠ id) :
    Latest id (stored ++ [st]) P := by
  intro last hlast howner
  rw [List.getLast?_concat] at hlast
  cases hlast
  exact absurd howner hne

theorem Owned.valid {r : Recovery} (h : Owned id stored sck r.state r.version)
    (htask : r.task.Given G) (hpending : r.state.pending = some r.record) :
    r.Valid G id stored :=
  ⟨htask, (readState_eq_some h.read).2.2, h.owner, hpending,
    fun _ _ _ => (readState_eq_some h.read).2.1⟩

theorem Recovery.Valid.clerks {r : Recovery} (h : r.Valid G id stored) (clerks : List Tgid) :
    Recovery.Valid G id stored { r with clerks := clerks } :=
  ⟨h.task, h.read, h.owner, h.pending, h.latest⟩

theorem PcInv.recovered {task : Task} (htask : task.Given G) (h : Latest id stored Idle) :
    PcInv G id puts stored (ShardCtrler.recovered task) := by
  cases task with
  | none => trivial
  | some next => exact ⟨htask next rfl, h⟩

theorem PcInv.swapped {state : ControllerState} {swap : Swap} (htask : swap.task.Given G)
    (hclear : ∀ task, swap = .clear task → Latest id stored Idle) :
    PcInv G id puts stored (sck.swapped state swap true).pc := by
  cases swap with
  | init => trivial
  | elect task => exact htask
  | publish r => exact htask
  | clear task => exact PcInv.recovered htask (hclear task rfl)
  | plan => exact fun _ h => nomatch h

theorem PcInv.append {pc : Pc} {st : ControllerState} (h : PcInv G id puts stored pc)
    (hmine : st.owner = id → ∃ call resent swap, pc = .put call stored.length st resent swap) :
    PcInv G id puts (stored ++ [st]) pc := by
  by_cases howner : st.owner = id
  · obtain ⟨call, resent, swap, rfl⟩ := hmine howner
    obtain ⟨hput, howner', htask, hclear⟩ := h
    refine ⟨hput, howner', htask, fun task heq => ⟨(hclear task heq).1, fun _ last hlast _ => ?_⟩⟩
    rw [List.getLast?_concat] at hlast
    cases hlast
    exact (hclear task heq).1
  · have hlatest : ∀ P, Latest id (stored ++ [st]) P := fun P => Latest.append P howner
    have hvalid : ∀ r : Recovery, r.Valid G id stored → r.Valid G id (stored ++ [st]) := by
      intro r hr
      obtain ⟨v, hv, hget⟩ := hr.read
      exact ⟨hr.task, ⟨v, hv, Pool.append hget _⟩, hr.owner, hr.pending, hlatest _⟩
    cases pc with
    | idle => trivial
    | lead task => exact h
    | elect task => exact h
    | recover task => exact h
    | put call version state resent swap =>
        exact ⟨h.1, h.2.1, h.2.2.1, fun task heq => ⟨(h.2.2.2 task heq).1, fun _ => hlatest _⟩⟩
    | confirm state swap => exact ⟨h.1, fun _ _ => hlatest _⟩
    | migrate r i => exact ⟨hvalid r h.1, h.2⟩
    | check r i job => exact ⟨hvalid r h.1, h.2⟩
    | call r i job call => exact ⟨hvalid r h.1, h.2⟩
    | published r => exact h
    | remove r i => exact ⟨hvalid r h.1, h.2⟩
    | plan next => exact ⟨h.1, hlatest _⟩

theorem PcInv.append_puts {pc : Pc} (h : PcInv G id puts stored pc)
    (l : List (ℕ × ControllerState)) : PcInv G id (puts ++ l) stored pc := by
  cases pc with
  | put call version state resent swap => exact ⟨Pool.append h.1 l, h.2⟩
  | _ => exact h

theorem Moves.answered (h : Moves G id s sck sck') {call version : ℕ} {state : ControllerState}
    {resent : Bool} {swap : Swap} (hpc : sck.pc = .put call version state resent swap) :
    ∃ (k : ℕ) (err : Err), s.putReplies[k]? = some (call, err) := by
  cases h with
  | stop deposed h => exact h _ _ _ _ _ hpc
  | swapped _ _ _ _ _ k h hreply | maybe _ _ _ _ _ k err h hreply
  | rejected _ _ _ _ _ k err h hreply =>
      cases h.symm.trans hpc
      exact ⟨k, _, hreply⟩
  | _ => simp_all

end

section

variable {id : Ctl → GoString} {s s' : ShardSystem Ctl}

theorem ControllerInv.answered_lt (h : ControllerInv G id s) {c : Ctl} {call version : ℕ}
    {state : ControllerState} {resent : Bool} {swap : Swap}
    (hpc : (s.ctrlers c).pc = .put call version state resent swap) {k : ℕ} {err : Err}
    (hk : s.putReplies[k]? = some (call, err)) : version < s.stored.length := by
  obtain ⟨v, st, hput, hlt, -⟩ := h.answered k call err hk
  have hpcs := h.pcs c
  rw [hpc] at hpcs
  cases hput.symm.trans hpcs.1
  exact hlt

theorem ControllerInv.moves (h : ControllerInv G id s) {c : Ctl} {sck : ShardCtrler}
    (hm : Moves G (id c) s (s.ctrlers c) sck) : PcInv G (id c) s.puts s.stored sck.pc := by
  have hpcs := h.pcs c
  cases hm with
  | call task hpc htask =>
      unfold ShardCtrler.ensureLeadership
      split <;> exact htask
  | stop => trivial
  | lead task hpc =>
      rw [hpc] at hpcs
      exact hpcs
  | recovered task state version hpc howned hpending =>
      rw [hpc] at hpcs
      exact .recovered hpcs (.of_read howned.read hpending)
  | found r hpc howned hpending hcurrent =>
      rw [hpc] at hpcs
      exact ⟨howned.valid hpcs hpending, hcurrent⟩
  | skip r hpc =>
      rw [hpc] at hpcs
      exact hpcs
  | stay r i hpc | drop r i call data num k hpc | installed r i data call k hpc
  | deleted r i call k hpc
  | lost r i job call hpc | keep r i hpc =>
      rw [hpc] at hpcs
      exact hpcs
  | freeze r i clerks hpc | create r i clerks hpc | frozen r i call data num k clerks hpc
  | delete r i clerks hpc =>
      rw [hpc] at hpcs
      exact ⟨hpcs.1.clerks clerks, hpcs.2⟩
  | published r state version hpc howned hpending hcurrent =>
      rw [hpc] at hpcs
      exact ⟨Owned.valid (r := { r with state := state, version := version }) howned hpcs hpending,
        hcurrent⟩
  | swapped call version state resent swap k hpc hreply =>
      have hlt := h.answered_lt hpc hreply
      rw [hpc] at hpcs
      exact .swapped hpcs.2.2.1 fun task heq => (hpcs.2.2.2 task heq).2 hlt
  | maybe call version state resent swap k err hpc hreply =>
      have hlt := h.answered_lt hpc hreply
      rw [hpc] at hpcs
      exact ⟨hpcs.2.2.1, fun task heq => (hpcs.2.2.2 task heq).2 hlt⟩
  | confirmed state swap hpc =>
      rw [hpc] at hpcs
      exact .swapped hpcs.1 hpcs.2
  | rejected call version state resent task k err hpc =>
      rw [hpc] at hpcs
      exact hpcs.2.2.1
  | unconfirmed state task hpc =>
      rw [hpc] at hpcs
      exact hpcs.1

/-- What is sent may follow the record whose version it names, and it is
in the name of its controller. -/
theorem ControllerInv.sends (h : ControllerInv G id s) {c : Ctl} {version : ℕ}
    {state : ControllerState} {resent : Bool} {swap : Swap}
    (hm : Sends G (id c) s (s.ctrlers c) version state resent swap) :
    After G s.stored version state ∧ state.owner = id c ∧ swap.task.Given G ∧
      ∀ task, swap = .clear task →
        Idle state ∧ (version < s.stored.length → Latest (id c) s.stored Idle) := by
  have hpcs := h.pcs c
  cases hm with
  | init cfg hpc hcfg => exact ⟨⟨rfl, rfl, hcfg⟩, rfl, nofun, nofun⟩
  | elect task st v hpc hread =>
      rw [hpc] at hpcs
      obtain ⟨-, -, v', rfl, hget⟩ := readState_eq_some hread
      exact ⟨⟨st, hget, .takeover _⟩, rfl, hpcs, nofun⟩
  | publish r i hpc hi =>
      rw [hpc] at hpcs
      obtain ⟨hr, hcurrent⟩ := hpcs
      obtain ⟨v, hv, hget⟩ := hr.read
      rw [hv]
      exact ⟨⟨r.state, hget, .publish r.record hr.pending hcurrent⟩, hr.owner, hr.task, nofun⟩
  | clear r i hpc hi =>
      rw [hpc] at hpcs
      obtain ⟨hr, hcurrent⟩ := hpcs
      obtain ⟨v, hv, hget⟩ := hr.read
      refine ⟨?_, hr.owner, hr.task, fun _ _ => ⟨rfl, fun hlt last hlast howner => ?_⟩⟩
      · rw [hv]
        exact ⟨r.state, hget, .clear r.record hr.pending hcurrent⟩
      · -- the record of the recovery is not the last one, so the last is not its controller's
        exact absurd (hr.latest last hlast howner) hlt.ne
  | plan next st v hpc howned hnum =>
      rw [hpc] at hpcs
      obtain ⟨hlast, -, v', rfl, hget⟩ := readState_eq_some howned.read
      have hpending := hpcs.2 st hlast howned.owner
      exact ⟨⟨st, hget, .plan next hpending hnum hpcs.1⟩, howned.owner, nofun, nofun⟩
  | again call v st resent' swap hpc =>
      rw [hpc] at hpcs
      exact ⟨h.puts call _ _ hpcs.1, hpcs.2⟩

variable [DecidableEq Ctl]

/-- A controller that does not wait, or no longer needs to, goes on. -/
theorem ControllerInv.setCtrler (h : ControllerInv G id s) {c : Ctl} {sck : ShardCtrler}
    (hanswered : ∀ {call version state resent swap},
      (s.ctrlers c).pc = .put call version state resent swap →
        ∃ (k : ℕ) (err : Err), s.putReplies[k]? = some (call, err))
    (hpcs : PcInv G (id c) s.puts s.stored sck.pc) : ControllerInv G id (s.setCtrler c sck) where
  fits := h.fits
  chain := h.chain
  puts := h.puts
  answered := h.answered
  answers := h.answers
  once := h.once
  live k st hk := by
    obtain ⟨c', call, resent, swap, howner, hpc⟩ := h.live k st hk
    have hne : c' ≠ c := by
      rintro rfl
      obtain ⟨k', err, hreply⟩ := hanswered hpc
      exact (h.answered_lt hpc hreply).ne rfl
    refine ⟨c', call, resent, swap, howner, ?_⟩
    change (Function.update s.ctrlers c sck c').pc = _
    rw [Function.update_of_ne hne]
    exact hpc
  pcs c' := by
    change PcInv G (id c') s.puts s.stored (Function.update s.ctrlers c sck c').pc
    rcases eq_or_ne c' c with rfl | hne
    · rw [Function.update_self]
      exact hpcs
    · rw [Function.update_of_ne hne]
      exact h.pcs c'

theorem ControllerInv.sendPut (h : ControllerInv G id s) {c : Ctl} {version : ℕ}
    {state : ControllerState} {resent : Bool} {swap : Swap}
    (hm : Sends G (id c) s (s.ctrlers c) version state resent swap) :
    ControllerInv G id (s.sendPut c version state resent swap) := by
  obtain ⟨hafter, howner, hinv⟩ := h.sends hm
  have hself : ((s.sendPut c version state resent swap).ctrlers c).pc =
      .put s.puts.length version state resent swap := by
    simp [ShardSystem.sendPut, ShardSystem.setPc, ShardSystem.setCtrler]
  have hother : ∀ c' ≠ c, (s.sendPut c version state resent swap).ctrlers c' = s.ctrlers c' :=
    fun c' hne => by
      simp [ShardSystem.sendPut, ShardSystem.setPc, ShardSystem.setCtrler, hne]
  refine ⟨h.fits, h.chain, ?_, ?_, ?_, h.answers, h.once, ?_⟩
  · intro k v st hk
    rcases Pool.concat_cases hk with hk | ⟨-, heq⟩
    · exact h.puts k v st hk
    · cases heq
      exact hafter
  · intro k st hk
    rcases Pool.concat_cases hk with hk | ⟨-, heq⟩
    · obtain ⟨c', call, resent', swap', howner', hpc⟩ := h.live k st hk
      rcases eq_or_ne c' c with rfl | hne
      · -- a controller that waits sends nothing but what it waits for
        cases hm with
        | again call v st resent' swap hpc' =>
            cases hpc'.symm.trans hpc
            exact ⟨c', _, _, _, howner', hself⟩
        | init _ hpc' | elect _ _ _ hpc' | publish _ _ hpc' | clear _ _ hpc' | plan _ _ _ hpc' =>
            cases hpc'.symm.trans hpc
      · exact ⟨c', call, resent', swap', howner', (congrArg _ (hother c' hne)).trans hpc⟩
    · obtain ⟨hversion, rfl⟩ := Prod.mk.inj heq
      exact ⟨c, s.puts.length, resent, swap, howner, by rw [hself, hversion]⟩
  · intro k call err hk
    obtain ⟨v, st, hput, hrest⟩ := h.answered k call err hk
    exact ⟨v, st, Pool.append hput _, hrest⟩
  · intro c'
    rcases eq_or_ne c' c with rfl | hne
    · rw [hself]
      exact ⟨List.getElem?_concat_length, howner, hinv⟩
    · rw [hother c' hne]
      exact (h.pcs c').append_puts _

omit [DecidableEq Ctl] in
theorem ControllerInv.executePut (hid : Function.Injective id) (h : ControllerInv G id s)
    {k version : ℕ} {state : ControllerState} (hk : s.puts[k]? = some (version, state))
    (hfresh : k ∉ s.putReplies.map Prod.fst) (hfits : s.stored.length < maxVersion) :
    ControllerInv G id { s with
      stored := (putState s.stored version state).1
      putReplies := s.putReplies ++ [(k, (putState s.stored version state).2)] } := by
  have hafter := h.puts k version state hk
  have honce : ∀ err, ((s.putReplies ++ [(k, err)]).map Prod.fst).Nodup := by
    intro err
    rw [List.map_append, List.map_singleton]
    exact h.once.append (List.nodup_singleton k) (by simpa using hfresh)
  have hanswers : ∀ err, err = .ok ∨ err = .errVersion → ∀ k' err',
      (k', err') ∈ s.putReplies ++ [(k, err)] → err' = .ok ∨ err' = .errVersion := by
    intro err herr k' err' hmem
    rcases List.mem_append.mp hmem with hmem | hmem
    · exact h.answers k' err' hmem
    · cases List.mem_singleton.mp hmem
      exact herr
  rcases putState_cases state hafter.le with ⟨rfl, heq⟩ | ⟨hlt, heq⟩
  · rw [heq]
    obtain ⟨c, call, resent, swap, howner, hpc⟩ := h.live k state hk
    refine ⟨?_, ?_, ?_, ?_, ?_, hanswers _ (Or.inl rfl), honce _, ?_⟩
    · simpa using hfits
    · exact Pool.forall_concat (fun v st hv => (h.chain v st hv).append _) (hafter.append _)
    · exact fun k' v st hk' => (h.puts k' v st hk').append _
    · intro k' st hk'
      have hle := (h.puts k' _ st hk').le
      simp at hle
    · intro k' call' err hk'
      rcases Pool.concat_cases hk' with hk' | ⟨-, heq'⟩
      · obtain ⟨v, st, hput, hlt, hok⟩ := h.answered k' call' err hk'
        exact ⟨v, st, hput, by simp; omega, fun h => Pool.append (hok h) _⟩
      · cases heq'
        exact ⟨_, state, hk, by simp, fun _ => List.getElem?_concat_length⟩
    · intro c'
      refine (h.pcs c').append fun howner' => ?_
      obtain rfl := hid (howner.symm.trans howner')
      exact ⟨call, resent, swap, hpc⟩
  · rw [heq]
    refine ⟨h.fits, h.chain, h.puts, h.live, ?_, hanswers _ (Or.inr rfl), honce _, h.pcs⟩
    intro k' call' err hk'
    rcases Pool.concat_cases hk' with hk' | ⟨-, heq'⟩
    · exact h.answered k' call' err hk'
    · cases heq'
      exact ⟨version, state, hk, hlt, nofun⟩

theorem ControllerInv.step (hid : Function.Injective id) (h : ControllerInv G id s)
    (hs : ShardStep G id s s') : ControllerInv G id s' := by
  cases hs with
  | move c sck hm => exact h.setCtrler hm.answered (h.moves hm)
  | sendPut c version state resent swap hm => exact h.sendPut hm
  | send c r i job hpc =>
      have hpcs := h.pcs c
      rw [hpc] at hpcs
      have hcall : ControllerInv G id (s.setPc c (s.ctrlers c) (.call r i job s.sent.length)) :=
        h.setCtrler (fun heq => nomatch hpc.symm.trans heq) hpcs
      exact { hcall with }
  | executePut k version state hk hfresh hfits => exact h.executePut hid hk hfresh hfits
  | execute k gid req kv reply => exact { h with }
  | client gid req kv reply => exact { h with }

theorem ControllerInv.reachable (hid : Function.Injective id) (h : (shardSys G id).Reachable s) :
    ControllerInv G id s := by
  refine h.invariant ?_ fun s a s' _ hinv hs => hinv.step hid (.of_step hs)
  rintro _ rfl
  refine ⟨Nat.zero_le _, ?_, ?_, ?_, ?_, ?_, ?_, fun c => trivial⟩ <;> simp [ShardSystem.init]

end

/-! ### Stages -/

/-- A plan that is pending is for the next number, and it is published or
still to be. -/
def ControllerState.Consistent (r : ControllerState) : Prop :=
  ∀ record, r.pending = some record → record.toConfig.num = record.fromConfig.num.addOne ∧
    (r.current = record.fromConfig ∨ r.current = record.toConfig)

/-- How far the metadata has come: the epochs, and three stages of each
configuration. -/
def ControllerState.stage (r : ControllerState) : ℤ :=
  r.epoch + match r.pending with
    | none => 3 * r.current.num
    | some record =>
        if r.current = record.fromConfig then 3 * r.current.num + 1 else 3 * r.current.num - 1

section

variable {r st : ControllerState} {record : MigrationRecord}

theorem ControllerState.Consistent.ne (h : r.Consistent) (hrecord : r.pending = some record) :
    record.fromConfig ≠ record.toConfig := by
  intro heq
  have hnum := (h record hrecord).1
  rw [heq] at hnum
  exact Tnum.addOne_ne _ hnum.symm

theorem Follows.consistent (h : Follows G r st) (hr : r.Consistent) : st.Consistent := by
  intro record' hrecord'
  cases h with
  | takeover owner => exact hr record' hrecord'
  | plan next hpending hnum hnext =>
      cases hrecord'
      exact ⟨hnum, Or.inl rfl⟩
  | publish record hpending hcurrent =>
      cases hpending.symm.trans hrecord'
      exact ⟨(hr _ hpending).1, Or.inr rfl⟩
  | clear record hpending hcurrent => cases hrecord'

/-- Every record is one stage further than the one before it, but where the
numbers wrap around. -/
theorem Follows.stage (h : Follows G r st) (hr : r.Consistent) :
    st.stage = r.stage + 1 ∨ st.stage = r.stage + 1 - 3 * 2 ^ 64 := by
  cases h with
  | takeover owner =>
      left
      simp only [ControllerState.stage]
      push_cast
      ring
  | plan next hpending hnum hnext =>
      left
      simp only [ControllerState.stage, hpending, if_true]
      ring
  | publish record hpending hcurrent =>
      simp only [ControllerState.stage, hpending, if_neg (hr.ne hpending).symm, if_pos hcurrent]
      rw [(hr record hpending).1, hcurrent]
      rcases record.fromConfig.num.addOne_cases with heq | heq
      · left
        rw [heq]
        ring
      · right
        rw [heq]
        ring
  | clear record hpending hcurrent =>
      left
      have hto : r.current ≠ record.fromConfig := hcurrent ▸ (hr.ne hpending).symm
      simp only [ControllerState.stage, hpending, if_neg hto]
      ring

theorem ControllerState.Consistent.stage (h : r.Consistent) (hrecord : r.pending = some record) :
    ∃ k : ℤ, r.stage = r.epoch + 3 * record.toConfig.num - 1 ∨
      r.stage = r.epoch + 3 * record.toConfig.num - 2 + k * (3 * 2 ^ 64) := by
  obtain ⟨hnum, hcurrent⟩ := h record hrecord
  rcases hcurrent with hcurrent | hcurrent
  · simp only [ControllerState.stage, hrecord, if_pos hcurrent]
    rw [hcurrent, hnum]
    rcases record.fromConfig.num.addOne_cases with heq | heq
    · refine ⟨0, Or.inr ?_⟩
      rw [heq]
      ring
    · refine ⟨1, Or.inr ?_⟩
      rw [heq]
      ring
  · have hfrom : r.current ≠ record.fromConfig := hcurrent ▸ (h.ne hrecord).symm
    simp only [ControllerState.stage, hrecord, if_neg hfrom]
    refine ⟨0, Or.inl ?_⟩
    rw [hcurrent]
    ring

/-- The plan is pending; or it has been cleared, by one of `n` records; or they
are enough for another one. -/
def ControllerState.Taken (record : MigrationRecord) (n : ℕ) (r : ControllerState) : Prop :=
  r.pending = some record ∨ r.pending = none ∧ 1 ≤ n ∨ 2 ≤ n

theorem Follows.taken (h : Follows G r st) {n : ℕ} (ht : r.Taken record n) :
    ∃ n', st.epoch + n' = r.epoch + n + 1 ∧ st.Taken record n' := by
  cases h with
  | takeover owner => exact ⟨n, by dsimp only; omega, ht⟩
  | plan next hpending =>
      refine ⟨n + 1, rfl, Or.inr (Or.inr ?_)⟩
      rcases ht with ht | ⟨-, hle⟩ | hle
      · cases hpending.symm.trans ht
      · omega
      · omega
  | publish record' hpending =>
      refine ⟨n + 1, rfl, ?_⟩
      rcases ht with ht | ⟨hnone, -⟩ | hle
      · exact Or.inl ht
      · cases hpending.symm.trans hnone
      · exact Or.inr (Or.inr (by omega))
  | clear record' hpending => exact ⟨n + 1, rfl, Or.inr (Or.inl ⟨rfl, by omega⟩)⟩

end

section

variable {id : Ctl → GoString} {s : ShardSystem Ctl} {r st : ControllerState}

theorem ControllerInv.consistent (h : ControllerInv G id s) {v : ℕ} (hv : s.stored[v]? = some r) :
    r.Consistent := by
  induction v generalizing r with
  | zero =>
      intro record hrecord
      cases (h.chain 0 r hv).2.1.symm.trans hrecord
  | succ v ih =>
      obtain ⟨r', hr', hfollows⟩ := h.chain (v + 1) r hv
      exact hfollows.consistent (ih hr')

theorem ControllerInv.lt_maxVersion (h : ControllerInv G id s) {v : ℕ}
    (hv : s.stored[v]? = some r) : v < maxVersion :=
  (List.getElem?_eq_some_iff.mp hv).1.trans_le h.fits

theorem ControllerInv.stage_eq (h : ControllerInv G id s) {v : ℕ} (hv : s.stored[v]? = some r) :
    ∃ first, s.stored[0]? = some first ∧
      ∃ k : ℕ, r.stage = first.stage + v - k * (3 * 2 ^ 64) := by
  induction v generalizing r with
  | zero => exact ⟨r, hv, 0, by simp⟩
  | succ v ih =>
      obtain ⟨r', hr', hfollows⟩ := h.chain (v + 1) r hv
      obtain ⟨first, hfirst, k, hstage⟩ := ih hr'
      refine ⟨first, hfirst, ?_⟩
      rcases hfollows.stage (h.consistent hr') with heq | heq
      · refine ⟨k, ?_⟩
        rw [heq, hstage]
        push_cast
        ring
      · refine ⟨k + 1, ?_⟩
        rw [heq, hstage]
        push_cast
        ring

theorem ControllerInv.place_unique (h : ControllerInv G id s) {v w : ℕ}
    (hv : s.stored[v]? = some r) (hw : s.stored[w]? = some r) : v = w := by
  obtain ⟨first, hfirst, k, hstage⟩ := h.stage_eq hv
  obtain ⟨first', hfirst', k', hstage'⟩ := h.stage_eq hw
  cases hfirst.symm.trans hfirst'
  have hltv := h.lt_maxVersion hv
  have hltw := h.lt_maxVersion hw
  rw [maxVersion] at hltv hltw
  omega

theorem ControllerInv.place_of_after (h : ControllerInv G id s) {v w : ℕ}
    (hafter : After G s.stored (v + 1) st) (hw : s.stored[w]? = some st) : w = v + 1 := by
  obtain ⟨r, hr, hfollows⟩ := hafter
  obtain ⟨first, hfirst, k, hstage⟩ := h.stage_eq hr
  obtain ⟨first', hfirst', k', hstage'⟩ := h.stage_eq hw
  cases hfirst.symm.trans hfirst'
  have hltv := h.lt_maxVersion hr
  have hltw := h.lt_maxVersion hw
  rw [maxVersion] at hltv hltw
  rcases hfollows.stage (h.consistent hr) with heq | heq <;> omega

theorem ControllerInv.num_ne_maxInt (h : ControllerInv G id s)
    (hG : ∀ cfg, G.first cfg → cfg.num = NumFirst) {v : ℕ} (hv : s.stored[v]? = some r) :
    r.current.num ≠ maxInt := by
  obtain ⟨first, hfirst, k, hstage⟩ := h.stage_eq hv
  obtain ⟨hepoch, hpending, hcfg⟩ := h.chain 0 first hfirst
  have hltv := h.lt_maxVersion hv
  have hone : first.stage = 4 := by
    simp only [ControllerState.stage, hepoch, hpending, hG _ hcfg, NumFirst]
    rfl
  have hle : 3 * r.current.num - 1 ≤ r.stage := by
    unfold ControllerState.stage
    split
    · lia
    · split <;> lia
  rw [maxVersion] at hltv
  rw [maxInt]
  lia

theorem ControllerInv.epoch_owner (h : ControllerInv G id s) {i j : ℕ} (hij : i ≤ j)
    (hi : s.stored[i]? = some r) (hj : s.stored[j]? = some st) :
    r.epoch < st.epoch ∨ r.epoch = st.epoch ∧ r.owner = st.owner := by
  induction j, hij using Nat.le_induction generalizing st with
  | base =>
      cases hi.symm.trans hj
      exact Or.inr ⟨rfl, rfl⟩
  | succ j _ ih =>
      obtain ⟨r', hr', hfollows⟩ := h.chain (j + 1) st hj
      have hlast := ih hr'
      cases hfollows with
      | takeover owner =>
          rcases hlast with hlt | ⟨heq, -⟩
          · exact Or.inl (Nat.lt_succ_of_lt hlt)
          · exact Or.inl (Nat.lt_succ_of_le heq.le)
      | plan next hpending => exact hlast
      | publish record hpending => exact hlast
      | clear record hpending => exact hlast

theorem ControllerInv.taken (h : ControllerInv G id s) {i j : ℕ} (hij : i ≤ j)
    {record : MigrationRecord} (hi : s.stored[i]? = some r) (hrecord : r.pending = some record)
    (hj : s.stored[j]? = some st) : ∃ n, st.epoch + n + i = r.epoch + j ∧ st.Taken record n := by
  induction j, hij using Nat.le_induction generalizing st with
  | base =>
      cases hi.symm.trans hj
      exact ⟨0, rfl, Or.inl hrecord⟩
  | succ j _ ih =>
      obtain ⟨r', hr', hfollows⟩ := h.chain (j + 1) st hj
      obtain ⟨n, hn, htaken⟩ := ih hr'
      obtain ⟨n', hn', htaken'⟩ := hfollows.taken htaken
      exact ⟨n', by omega, htaken'⟩

theorem ControllerInv.plan_unique (h : ControllerInv G id s) {i j : ℕ}
    {record record' : MigrationRecord} (hi : s.stored[i]? = some r) (hj : s.stored[j]? = some st)
    (hrecord : r.pending = some record) (hrecord' : st.pending = some record')
    (hnum : record.toConfig.num = record'.toConfig.num) : record = record' := by
  wlog hij : i ≤ j generalizing i j r st record record'
  · exact (this hj hi hrecord' hrecord hnum.symm (by omega)).symm
  obtain ⟨n, hn, htaken⟩ := h.taken hij hi hrecord hj
  -- the stages are those of one number, so there is no time for another plan
  obtain ⟨first, hfirst, k, hstage⟩ := h.stage_eq hi
  obtain ⟨first', hfirst', k', hstage'⟩ := h.stage_eq hj
  cases hfirst.symm.trans hfirst'
  obtain ⟨m, hplan⟩ := (h.consistent hi).stage hrecord
  obtain ⟨m', hplan'⟩ := (h.consistent hj).stage hrecord'
  have hepoch : r.epoch ≤ st.epoch := by
    rcases h.epoch_owner hij hi hj with hlt | ⟨heq, -⟩ <;> omega
  have hlt := h.lt_maxVersion hj
  rw [maxVersion] at hlt
  have htwo : n < 2 := by
    rw [hnum] at hplan
    omega
  rcases htaken with heq | ⟨hnone, -⟩ | hle
  · exact Option.some.inj (heq.symm.trans hrecord')
  · cases hnone.symm.trans hrecord'
  · omega

theorem ControllerInv.first_owner (h : ControllerInv G id s) {w : ℕ} {st : ControllerState}
    (hw : s.stored[w]? = some st) (hepoch : st.epoch = 1) :
    ∃ first, s.stored[0]? = some first ∧ first.owner = st.owner := by
  have hpos : 0 < s.stored.length := (Nat.zero_le w).trans_lt (List.getElem?_eq_some_iff.mp hw).1
  have hfirst := List.getElem?_eq_getElem hpos
  have hone : (s.stored[0]).epoch = 1 := (h.chain 0 _ hfirst).1
  refine ⟨_, hfirst, ?_⟩
  rcases h.epoch_owner (Nat.zero_le w) hfirst hw with hlt | ⟨-, howner⟩
  · rw [hone, hepoch] at hlt
    exact absurd hlt (lt_irrefl 1)
  · exact howner

end

/-! ### The history -/

/-- What holds of the records that are stored one after the other, where `next`
is the number after a number. -/
structure PlanHistory (next : Tnum → Tnum) (stored : List ControllerState) : Prop where
  pending : ∀ r ∈ stored, ∀ record, r.pending = some record →
    record.toConfig.num = next record.fromConfig.num ∧
      (r.current = record.fromConfig ∨ r.current = record.toConfig)
  unique : ∀ r ∈ stored, ∀ r' ∈ stored, ∀ record record', r.pending = some record →
    r'.pending = some record' → record.toConfig.num = record'.toConfig.num → record = record'
  kept : ∀ (v : ℕ) r r', stored[v]? = some r → stored[v + 1]? = some r' →
    ∀ record, r.pending = some record →
      r'.pending = some record ∨ r'.pending = none ∧ r.current = record.toConfig
  planned : ∀ (v : ℕ) r r', stored[v]? = some r → stored[v + 1]? = some r' → r.pending = none →
    ∀ record, r'.pending = some record → record.fromConfig = r.current
  current : ∀ (v : ℕ) r r', stored[v]? = some r → stored[v + 1]? = some r' →
    r'.current = r.current ∨ ∃ record, r.pending = some record ∧ r'.pending = some record ∧
      r.current = record.fromConfig ∧ r'.current = record.toConfig
  num : ∀ (v : ℕ) r r', stored[v]? = some r → stored[v + 1]? = some r' →
    r'.current.num = r.current.num ∨ r'.current.num = next r.current.num
  owner : ∀ (v : ℕ) r r', stored[v]? = some r → stored[v + 1]? = some r' →
    r'.owner = r.owner ∧ r'.epoch = r.epoch ∨
      r'.epoch = r.epoch + 1 ∧ r'.current = r.current ∧ r'.pending = r.pending

theorem ControllerInv.from_current {id : Ctl → GoString} {s : ShardSystem Ctl}
    (h : ControllerInv G id s) {v : ℕ} {r : ControllerState} (hv : s.stored[v]? = some r)
    {record : MigrationRecord} (hrecord : r.pending = some record) :
    ∃ r' ∈ s.stored, r'.current = record.fromConfig := by
  induction v generalizing r with
  | zero => cases (h.chain 0 r hv).2.1.symm.trans hrecord
  | succ v ih =>
      obtain ⟨r', hr', hfollows⟩ := h.chain (v + 1) r hv
      cases hfollows with
      | takeover owner => exact ih hr' hrecord
      | plan next hpending =>
          cases hrecord
          exact ⟨r', List.mem_of_getElem? hr', rfl⟩
      | publish record' hpending => exact ih hr' hrecord
      | clear record' hpending => cases hrecord

theorem ControllerInv.planHistory {id : Ctl → GoString} {s : ShardSystem Ctl}
    (h : ControllerInv G id s) : PlanHistory Tnum.addOne s.stored := by
  have hfollows : ∀ (v : ℕ) r r', s.stored[v]? = some r → s.stored[v + 1]? = some r' →
      Follows G r r' ∧ r.Consistent := by
    intro v r r' hr hr'
    obtain ⟨r'', hr'', hf⟩ := h.chain (v + 1) r' hr'
    cases hr''.symm.trans hr
    exact ⟨hf, h.consistent hr⟩
  refine ⟨?_, ?_, ?_, ?_, ?_, ?_, ?_⟩
  · intro r hr record hrecord
    obtain ⟨v, hv⟩ := List.mem_iff_getElem?.mp hr
    exact h.consistent hv record hrecord
  · intro r hr r' hr' record record' hrecord hrecord' hnum
    obtain ⟨v, hv⟩ := List.mem_iff_getElem?.mp hr
    obtain ⟨v', hv'⟩ := List.mem_iff_getElem?.mp hr'
    exact h.plan_unique hv hv' hrecord hrecord' hnum
  · intro v r r' hr hr' record hrecord
    cases (hfollows v r r' hr hr').1 with
    | takeover owner => exact Or.inl hrecord
    | plan next hpending => cases hpending.symm.trans hrecord
    | publish record' hpending => exact Or.inl hrecord
    | clear record' hpending hcurrent =>
        cases hpending.symm.trans hrecord
        exact Or.inr ⟨rfl, hcurrent⟩
  · intro v r r' hr hr' hnone record hrecord
    cases (hfollows v r r' hr hr').1 with
    | takeover owner => cases hnone.symm.trans hrecord
    | plan next hpending =>
        cases hrecord
        rfl
    | publish record' hpending => cases hnone.symm.trans hrecord
    | clear record' hpending => cases hrecord
  · intro v r r' hr hr'
    cases (hfollows v r r' hr hr').1 with
    | takeover owner => exact Or.inl rfl
    | plan next hpending => exact Or.inl rfl
    | publish record hpending hcurrent => exact Or.inr ⟨record, hpending, hpending, hcurrent, rfl⟩
    | clear record hpending => exact Or.inl rfl
  · intro v r r' hr hr'
    obtain ⟨hf, hcons⟩ := hfollows v r r' hr hr'
    cases hf with
    | publish record hpending hcurrent =>
        rw [hcurrent]
        exact Or.inr (hcons record hpending).1
    | takeover owner => exact Or.inl rfl
    | plan next hpending => exact Or.inl rfl
    | clear record hpending => exact Or.inl rfl
  · intro v r r' hr hr'
    cases (hfollows v r r' hr hr').1 with
    | takeover owner => exact Or.inr ⟨rfl, rfl, rfl⟩
    | plan next hpending => exact Or.inl ⟨rfl, rfl⟩
    | publish record hpending => exact Or.inl ⟨rfl, rfl⟩
    | clear record hpending => exact Or.inl ⟨rfl, rfl⟩

variable [DecidableEq Ctl]

/-- The records under the metadata key, whatever controllers and callers do and
whichever copies of a `Put` come late. The number after a number is what the
code makes of `Num + 1`; it is one more in a run in which no configuration that
becomes current has the largest number. -/
theorem planHistory_of_reachable (id : Ctl ↪ GoString) {s : ShardSystem Ctl}
    (hs : (shardSys .any id).Reachable s) :
    PlanHistory Tnum.addOne s.stored ∧
      ((∀ r ∈ s.stored, r.current.num ≠ maxInt) → PlanHistory (· + 1) s.stored) := by
  have h := ControllerInv.reachable id.injective hs
  have hhistory := h.planHistory
  refine ⟨hhistory, fun hmax => { hhistory with pending := ?_, num := ?_ }⟩
  · intro r hr record hrecord
    obtain ⟨v, hv⟩ := List.mem_iff_getElem?.mp hr
    obtain ⟨hnum, hcurrent⟩ := hhistory.pending r hr record hrecord
    obtain ⟨r', hr', hfrom⟩ := h.from_current hv hrecord
    have hne := hmax r' hr'
    rw [hfrom] at hne
    exact ⟨hnum.trans (Tnum.addOne_eq hne), hcurrent⟩
  · intro v r r' hr hr'
    have hne := hmax r (List.mem_of_getElem? hr)
    exact (hhistory.num v r r' hr hr').imp_right fun hnum => hnum.trans (Tnum.addOne_eq hne)

def sampleIds : Fin 3 ↪ GoString := ⟨fun c => [UInt8.ofNat c], by decide⟩

/-- All shards with group 1, but the first with this one. -/
def sampleConfig (num : Tnum) (gid : Tgid) : ShardConfig where
  num := num
  shards i := if i.val = 0 then gid else Gid1
  groups := (Finmap.singleton Gid1 [[1]]).insert gid [[2]]

/-- One controller stores the first configuration and plans the second,
the other takes over. -/
def sampleActions : List (ShardAction (Fin 3)) :=
  [.initConfig 0 (sampleConfig 1 1), .executePut 0, .putReply 0 0,
    .changeConfigTo 0 (sampleConfig 2 2), .run 0, .run 0, .run 0, .executePut 1,
    .initController 1, .run 1, .executePut 2]

def samplePlans : ShardSystem (Fin 3) :=
  play (ShardSystem.step sampleIds) (.init (Fin 3)) sampleActions

theorem planHistory_of_reachable_samplePlans :
    samplePlans.stored.length = 3 ∧ PlanHistory (· + 1) samplePlans.stored := by
  refine ⟨by decide +kernel, (planHistory_of_reachable sampleIds ?_).2 (by decide +kernel)⟩
  exact reachable_playIn _ _ sampleActions (by simp [sampleActions, ShardAction.Given, Configs.any])

/-- The first configuration has the largest number; the next one moves no shard
and has the least. -/
def wrapActions : List (ShardAction (Fin 3)) :=
  List.flatten [
    [.initConfig 0 (sampleConfig maxInt 1), .executePut 0, .putReply 0 0,
      .changeConfigTo 0 (sampleConfig minInt 1), .run 0, .run 0, .run 0, .executePut 1,
      .putReply 0 1],
    List.replicate 14 (.run 0), [.executePut 2, .putReply 0 2]]

/-- It is planned and published, and the number has decreased. -/
theorem number_wraps :
    let s := play (ShardSystem.step sampleIds) (.init (Fin 3)) wrapActions
    (shardSys .any sampleIds).Reachable s ∧
      s.stored.map (·.current.num) = [maxInt, maxInt, minInt] ∧
      s.stored.map (·.pending.isSome) = [false, true, true] ∧
      ¬ PlanHistory (· + 1) s.stored := by
  intro s
  have hnum : s.stored.map (·.current.num) = [maxInt, maxInt, minInt] := by decide +kernel
  refine ⟨reachable_playIn _ _ wrapActions
    (by simp [wrapActions, ShardAction.Given, Configs.any]), hnum, by decide +kernel, fun h => ?_⟩
  have hget : ∀ v : ℕ, (s.stored[v]?).map (·.current.num) = [maxInt, maxInt, minInt][v]? := by
    intro v
    rw [← hnum, List.getElem?_map]
  obtain ⟨r, hr, hrnum⟩ := Option.map_eq_some_iff.mp (hget 1)
  obtain ⟨r', hr', hrnum'⟩ := Option.map_eq_some_iff.mp (hget 2)
  have hcase := h.num 1 r r' hr hr'
  rw [hrnum, hrnum'] at hcase
  exact absurd hcase (by decide)

end RaftShardedKv
