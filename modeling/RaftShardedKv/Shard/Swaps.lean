import RaftShardedKv.Shard.SwapCalls

/-!
What `compareAndSwap` tells its caller.

When the replies to a `Put` are lost, all that is left is to read the record
back. It cannot be the record of another call: each record that follows from
the one before it is one stage further, by its epoch or by how far the
configuration is, so what a record says determines its place. Nor does a
controller overlook its own record but behind that of another owner, since
nothing else in its name is stored while it waits.

The first record follows from none. `InitConfig` names version 0 however often
it is called, and the controller that the first record is of may read back what
an earlier call of its own has stored.
-/

namespace RaftShardedKv

open Transition

variable {Ctl : Type}

/-! ### Runs -/

structure SwapLog.Inv (id : Ctl → GoString) (log : SwapLog Ctl) : Prop where
  /-- A `Put` that may still succeed is a copy of the call that its controller
  is in. -/
  live : ∀ (k : ℕ) st, log.sys.puts[k]? = some (log.sys.stored.length, st) → ∀ c, st.owner = id c →
    ∃ call, log.calls c = some call ∧ k ∈ call.copies
  pcs : ∀ c, CallInv (id c) log.sys.metadata (log.calls c) (log.sys.ctrlers c).pc
  returned : ∀ ret ∈ log.returns, ret.Inv (id ret.ctrler) log.sys.metadata

namespace SwapLog

variable {id : Ctl → GoString} {log : SwapLog Ctl} {c : Ctl}

theorem callAt_eq {last : Option SwapCall} {pc : Pc}
    (h : ∀ k version state resent swap, pc = .put k version state resent swap →
      k < log.sys.puts.length) : log.callAt last pc = last := by
  cases pc with
  | put k version state resent swap => exact if_pos (h _ _ _ _ _ rfl).ne
  | _ => rfl

theorem put_lt (hctl : ControllerInv .any id log.sys) {k version : ℕ} {state : ControllerState}
    {resent : Bool} {swap : Swap}
    (hpc : (log.sys.ctrlers c).pc = .put k version state resent swap) :
    k < log.sys.puts.length := by
  have hpcs := hctl.pcs c
  rw [hpc] at hpcs
  exact (List.getElem?_eq_some_iff.mp hpcs.1).1

theorem callAt_self (hctl : ControllerInv .any id log.sys) (last : Option SwapCall) (c : Ctl) :
    log.callAt last (log.sys.ctrlers c).pc = last :=
  callAt_eq fun _ _ _ _ _ hpc => put_lt hctl hpc

theorem not_answered (hctl : ControllerInv .any id log.sys) (err : Err) :
    (log.sys.puts.length, err) ∉ log.sys.putReplies := by
  intro hmem
  obtain ⟨k, hk⟩ := List.mem_iff_getElem?.mp hmem
  obtain ⟨v, st, hput, -⟩ := hctl.answered k _ err hk
  exact absurd (List.getElem?_eq_some_iff.mp hput).1 (lt_irrefl _)

/-- Nothing is sent, stored or answered. -/
theorem Inv.moved (h : log.Inv id) (hctl : ControllerInv .any id log.sys) (s : ShardSystem Ctl)
    (hmeta : s.metadata = log.sys.metadata)
    (hpcs : ∀ c, (s.ctrlers c).pc = (log.sys.ctrlers c).pc ∨
      CallInv (id c) log.sys.metadata (log.calls c) (s.ctrlers c).pc ∧
        ∀ k version state resent swap, (s.ctrlers c).pc ≠ .put k version state resent swap)
    {returns : List (SwapReturn Ctl)}
    (hreturns : ∀ ret ∈ returns, ret.Inv (id ret.ctrler) log.sys.metadata) :
    Inv id ⟨s, fun c => log.callAt (log.calls c) (s.ctrlers c).pc, returns⟩ := by
  have hcalls : (fun c => log.callAt (log.calls c) (s.ctrlers c).pc) = log.calls := by
    ext1 c
    rcases hpcs c with heq | ⟨-, hput⟩
    · rw [heq]
      exact callAt_self hctl _ c
    · exact callAt_eq fun _ _ _ _ _ heq => absurd heq (hput _ _ _ _ _)
  have hstored : s.stored = log.sys.stored := congrArg Metadata.stored hmeta
  have hputs : s.puts = log.sys.puts := congrArg Metadata.puts hmeta
  rw [hcalls]
  refine ⟨?_, fun c => ?_, ?_⟩
  · rw [hputs, hstored]
    exact h.live
  · rw [hmeta]
    rcases hpcs c with heq | ⟨hcall, -⟩
    · rw [heq]
      exact h.pcs c
    · exact hcall
  · rw [hmeta]
    exact hreturns

variable [DecidableEq Ctl]

theorem Inv.setCtrler (h : log.Inv id) (hctl : ControllerInv .any id log.sys) (s : ShardSystem Ctl)
    (sck : ShardCtrler) (hmeta : s.metadata = log.sys.metadata)
    (hctrlers : s.ctrlers = Function.update log.sys.ctrlers c sck)
    (hsck : CallInv (id c) log.sys.metadata (log.calls c) sck.pc)
    (hput : ∀ k version state resent swap, sck.pc ≠ .put k version state resent swap)
    {returns : List (SwapReturn Ctl)}
    (hreturns : ∀ ret ∈ returns, ret.Inv (id ret.ctrler) log.sys.metadata) :
    Inv id ⟨s, fun c => log.callAt (log.calls c) (s.ctrlers c).pc, returns⟩ := by
  refine h.moved hctl s hmeta (fun c' => ?_) hreturns
  rw [hctrlers]
  rcases eq_or_ne c' c with rfl | hne
  · rw [Function.update_self]
    exact .inr ⟨hsck, hput⟩
  · rw [Function.update_of_ne hne]
    exact .inl rfl

/-- A call returns. -/
theorem Inv.ends (h : log.Inv id) (hctl : ControllerInv .any id log.sys) {result : Bool}
    {s : ShardSystem Ctl} (hs : SwapEnds log.sys c result s) :
    ∀ call, log.calls c = some call →
      SwapReturn.Inv (id c) log.sys.metadata ⟨c, call, result, log.sys.stored⟩ := by
  intro call hcall
  have hpcs := h.pcs c
  cases hs with
  | ok k n version state resent swap hpc hreply =>
      have hlt := hctl.answered_lt hpc hreply
      rw [hpc] at hpcs
      obtain ⟨call', hcall', hopen, rfl, rfl, hn, -⟩ := hpcs
      cases hcall.symm.trans hcall'
      obtain ⟨v, st, hput, -, hok⟩ := hctl.answered k n .ok hreply
      cases (hopen.copies n hn).symm.trans hput
      exact hopen.returns c hlt
        (fun _ => .inl ⟨hok rfl, n, hn, List.mem_of_getElem? hreply⟩) nofun
  | errVersion k n version state swap hpc hreply =>
      have hlt := hctl.answered_lt hpc hreply
      rw [hpc] at hpcs
      obtain ⟨call', hcall', hopen, rfl, rfl, -, hcopies⟩ := hpcs
      cases hcall.symm.trans hcall'
      refine hopen.returns c hlt nofun fun _ => .inl fun k' hk' hok => ?_
      -- the only copy has been refused
      rw [hcopies rfl] at hk'
      obtain rfl := List.mem_singleton.mp hk'
      have heq := List.inj_on_of_nodup_map hctl.once hok (List.mem_of_getElem? hreply) rfl
      cases heq
  | errNoKey k n version state resent swap hpc hreply =>
      rcases hctl.answers _ _ (List.mem_of_getElem? hreply) with heq | heq <;> cases heq
  | read state swap result hpc hresult =>
      rw [hpc] at hpcs
      obtain ⟨call', hcall', hopen, hlt, rfl⟩ := hpcs
      cases hcall.symm.trans hcall'
      rw [map_fst_readState] at hresult
      subst hresult
      exact hopen.returns c hlt (fun htrue => .inr (of_decide_eq_true htrue))
        fun hfalse => .inr (of_decide_eq_false hfalse)

section

omit [DecidableEq Ctl]

/-- What a controller sends follows a record after which nothing is stored in
its name, but where it calls `InitConfig` again. -/
theorem Inv.sends (h : log.Inv id) {version : ℕ} {state : ControllerState} {swap : Swap}
    (hm : Sends .any (id c) log.sys (log.sys.ctrlers c) version state false swap)
    (copies : List ℕ) :
    Alone (id c) log.sys.stored version ∨
      SwapCall.Late (id c) ⟨version, state, log.sys.stored, copies⟩ := by
  have hpcs := h.pcs c
  cases hm with
  | init cfg hpc hcfg =>
      by_cases hlate : ∃ r ∈ log.sys.stored, r.owner = id c
      · exact .inr ⟨rfl, hlate⟩
      · refine .inl fun v r hv _ howner => hlate ⟨r, List.mem_of_getElem? hv, howner⟩
  | elect task st v hpc hread => exact .inl (.of_read hread)
  | publish r i hpc hi =>
      rw [hpc] at hpcs
      exact .inl hpcs
  | clear r i hpc hi =>
      rw [hpc] at hpcs
      exact .inl hpcs
  | plan next st v hpc howned => exact .inl (.of_read howned.read)

theorem grows_put (s : ShardSystem Ctl) (p : ℕ × ControllerState) :
    s.metadata.Grows ⟨s.stored, s.puts ++ [p], s.putReplies⟩ :=
  ⟨List.prefix_rfl, List.prefix_append _ _, List.Subset.refl _, fun _ hok => .inl hok⟩

/-- The call that a controller is in when it has sent a `Put`. -/
theorem Inv.callAt_sent (h : log.Inv id) (hctl : ControllerInv .any id log.sys) {version : ℕ}
    {state : ControllerState} {resent : Bool} {swap : Swap}
    (hm : Sends .any (id c) log.sys (log.sys.ctrlers c) version state resent swap) :
    ∃ call, log.callAt (log.calls c) (.put log.sys.puts.length version state resent swap) =
        some call ∧ log.sys.puts.length ∈ call.copies ∧
      CallInv (id c) ⟨log.sys.stored, log.sys.puts ++ [(version, state)], log.sys.putReplies⟩
        (some call) (.put log.sys.puts.length version state resent swap) ∧
      ∀ n v st resent' swap', (log.sys.ctrlers c).pc = .put n v st resent' swap' →
        ∀ old, log.calls c = some old → ∀ k ∈ old.copies, k ∈ call.copies := by
  cases resent with
  | false =>
      obtain ⟨hafter, howner, -⟩ := hctl.sends hm
      have hopen := SwapCall.Open.first (m := log.sys.metadata) howner hafter (not_answered hctl)
        (h.sends hm _)
      refine ⟨⟨version, state, log.sys.stored, [log.sys.puts.length]⟩, by simp [callAt], by simp,
        ⟨_, rfl, hopen, rfl, rfl, by simp, fun _ => rfl⟩, ?_⟩
      intro n v st resent' swap' hpc
      -- a controller that waits sends nothing but further copies
      cases hm with
      | init _ hpc' | elect _ _ _ hpc' | publish _ _ hpc' | clear _ _ hpc' | plan _ _ _ hpc' =>
          cases hpc'.symm.trans hpc
  | true =>
      cases hm with
      | again n _ _ resent' _ hpc =>
          have hpcs := h.pcs c
          rw [hpc] at hpcs
          obtain ⟨call, hlast, hopen, rfl, rfl, -, -⟩ := hpcs
          refine ⟨{ call with copies := call.copies ++ [log.sys.puts.length] },
            by simp [callAt, hlast], by simp,
            ⟨_, rfl, hopen.again (not_answered hctl) (grows_put _ _), rfl, rfl, by simp, nofun⟩, ?_⟩
          rintro n' v st resent'' swap' - old hold k hk
          cases hlast.symm.trans hold
          exact List.mem_append_left _ hk

end

/-- A `Put` is sent. -/
theorem Inv.sendPut (hid : Function.Injective id) (h : log.Inv id)
    (hctl : ControllerInv .any id log.sys) {version : ℕ} {state : ControllerState} {resent : Bool}
    {swap : Swap} (hm : Sends .any (id c) log.sys (log.sys.ctrlers c) version state resent swap)
    {s : ShardSystem Ctl} (hs : s = log.sys.sendPut c version state resent swap) :
    Inv id ⟨s, fun c => log.callAt (log.calls c) (s.ctrlers c).pc, log.returns⟩ := by
  obtain ⟨call, hcall, hnew, hinv, hold⟩ := h.callAt_sent hctl hm
  have howner := (hctl.sends hm).2.1
  have hgrows := grows_put log.sys (version, state)
  have hself : (s.ctrlers c).pc = .put log.sys.puts.length version state resent swap := by
    simp [hs, ShardSystem.sendPut, ShardSystem.setPc, ShardSystem.setCtrler]
  have hother : ∀ c' ≠ c, s.ctrlers c' = log.sys.ctrlers c' := by
    intro c' hne
    simp [hs, ShardSystem.sendPut, ShardSystem.setPc, ShardSystem.setCtrler, hne]
  have hcalls : (fun c => log.callAt (log.calls c) (s.ctrlers c).pc) =
      Function.update log.calls c (some call) := by
    ext1 c'
    rcases eq_or_ne c' c with rfl | hne
    · rw [Function.update_self, hself, hcall]
    · rw [Function.update_of_ne hne, hother c' hne]
      exact callAt_self hctl _ c'
  rw [hcalls]
  subst hs
  refine ⟨?_, ?_, fun ret hret => (h.returned ret hret).grows hgrows⟩
  · intro k st hk c' howner'
    rcases Pool.concat_cases hk with hk | ⟨rfl, heq⟩
    · obtain ⟨old, hlast, hmem⟩ := h.live k st hk c' howner'
      rcases eq_or_ne c' c with rfl | hne
      · -- the controller has not ceased to wait for the earlier copy
        obtain ⟨c'', n, resent', swap', howner'', hpc⟩ := hctl.live k st hk
        obtain rfl := hid (howner'.symm.trans howner'')
        exact ⟨call, Function.update_self .., hold _ _ _ _ _ hpc old hlast k hmem⟩
      · exact ⟨old, (Function.update_of_ne hne ..).trans hlast, hmem⟩
    · obtain rfl : st = state := congrArg Prod.snd heq
      obtain rfl := hid (howner.symm.trans howner')
      exact ⟨call, Function.update_self .., hnew⟩
  · intro c'
    dsimp only
    rcases eq_or_ne c' c with rfl | hne
    · rw [Function.update_self, hself]
      exact hinv
    · rw [Function.update_of_ne hne, hother c' hne]
      exact (h.pcs c').kept hgrows rfl

section

omit [DecidableEq Ctl]

theorem grows_store {s : ShardSystem Ctl} {k : ℕ} {st : ControllerState}
    (hk : s.puts[k]? = some (s.stored.length, st)) :
    s.metadata.Grows ⟨s.stored ++ [st], s.puts, s.putReplies ++ [(k, .ok)]⟩ where
  stored := List.prefix_append _ _
  puts := List.prefix_rfl
  putReplies := List.subset_append_left _ _
  ok k' hok := by
    rcases List.mem_append.mp hok with hok | hok
    · exact .inl hok
    · cases List.mem_singleton.mp hok
      exact .inr ⟨st, hk⟩

theorem Inv.store (hid : Function.Injective id) (h : log.Inv id)
    (hctl : ControllerInv .any id log.sys) {k : ℕ} {st : ControllerState}
    (hk : log.sys.puts[k]? = some (log.sys.stored.length, st)) :
    Inv id ⟨{ log.sys with
        stored := log.sys.stored ++ [st]
        putReplies := log.sys.putReplies ++ [(k, .ok)] }, log.calls, log.returns⟩ where
  live k' st' hk' := by
    -- what names a version to come has not been sent
    have hle := (hctl.puts k' _ st' hk').le
    simp at hle
  pcs c := by
    refine (h.pcs c).store (grows_store hk) fun howner => ?_
    obtain ⟨c', n, resent, swap, howner', hpc⟩ := hctl.live k st hk
    obtain rfl := hid (howner'.symm.trans howner)
    exact ⟨⟨n, resent, swap, hpc⟩, h.live k st hk c' howner⟩
  returned ret hret := (h.returned ret hret).grows (grows_store hk)

theorem grows_refuse (s : ShardSystem Ctl) (k : ℕ) :
    s.metadata.Grows ⟨s.stored, s.puts, s.putReplies ++ [(k, .errVersion)]⟩ where
  stored := List.prefix_rfl
  puts := List.prefix_rfl
  putReplies := List.subset_append_left _ _
  ok k' hok := by
    rcases List.mem_append.mp hok with hok | hok
    · exact .inl hok
    · cases List.mem_singleton.mp hok

theorem Inv.refuse (h : log.Inv id) (k : ℕ) :
    Inv id ⟨{ log.sys with putReplies := log.sys.putReplies ++ [(k, .errVersion)] },
      log.calls, log.returns⟩ where
  live := h.live
  pcs c := (h.pcs c).kept (grows_refuse log.sys k) rfl
  returned ret hret := (h.returned ret hret).grows (grows_refuse log.sys k)

end

theorem Inv.goes (hid : Function.Injective id) (h : log.Inv id)
    (hctl : ControllerInv .any id log.sys) {s : ShardSystem Ctl} (hs : SwapGoes id log.sys s) :
    Inv id ⟨s, fun c => log.callAt (log.calls c) (s.ctrlers c).pc, log.returns⟩ := by
  have hcalls : (fun c => log.callAt (log.calls c) (log.sys.ctrlers c).pc) = log.calls := by
    ext1 c
    exact callAt_self hctl _ c
  cases hs with
  | move c sck hpc hm =>
      obtain ⟨hcall, hswaps⟩ := CallInv.moves (h.pcs c) hm hpc
      refine h.setCtrler hctl (log.sys.setCtrler c sck) sck rfl rfl hcall
        (fun _ _ _ _ _ heq => ?_) h.returned
      rw [heq] at hswaps
      cases hswaps
  | errMaybe c k n version state swap hpc hreply =>
      have hlt := hctl.answered_lt hpc hreply
      have hpcs := h.pcs c
      rw [hpc] at hpcs
      obtain ⟨call, hlast, hopen, rfl, hstate, -⟩ := hpcs
      exact h.setCtrler hctl (log.sys.setPc c (log.sys.ctrlers c) (.confirm state swap))
        { log.sys.ctrlers c with pc := .confirm state swap } rfl rfl
        ⟨call, hlast, hopen, hlt, hstate⟩ (by simp) h.returned
  | sendPut c version state resent swap hm => exact h.sendPut hid hctl hm rfl
  | send c r i job hpc =>
      have hpcs := h.pcs c
      rw [hpc] at hpcs
      refine h.setCtrler hctl _ { log.sys.ctrlers c with pc := .call r i job log.sys.sent.length }
        ?_ ?_ hpcs (by simp) h.returned <;> rfl
  | executePut k version state hk =>
      simp only [hcalls]
      rcases putState_cases state (hctl.puts k version state hk).le with ⟨rfl, heq⟩ | ⟨-, heq⟩
      · rw [heq]
        exact h.store hid hctl hk
      · rw [heq]
        exact h.refuse k
  | groups groups replies =>
      exact h.moved hctl { log.sys with groups := groups, replies := replies } rfl
        (fun _ => .inl rfl) h.returned

theorem Inv.step (hid : Function.Injective id) (h : log.Inv id)
    (hctl : ControllerInv .any id log.sys) {a : ShardAction Ctl} {log' : SwapLog Ctl}
    (hs : log.step id a = some log') : log'.Inv id := by
  obtain ⟨s, hstep, rfl⟩ := Option.map_eq_some_iff.mp hs
  unfold SwapLog.next
  cases hret : log.sys.swapResult a with
  | none => exact h.goes hid hctl (.of_step ⟨by cases a <;> trivial, hstep⟩ hret)
  | some out =>
      obtain ⟨c, result⟩ := out
      have hends := SwapEnds.of_step hstep hret
      have hreturns : ∀ ret ∈ log.returns ++ ((log.calls c).map fun call =>
          (⟨c, call, result, log.sys.stored⟩ : SwapReturn Ctl)).toList,
          ret.Inv (id ret.ctrler) log.sys.metadata := by
        intro ret hmem
        rcases List.mem_append.mp hmem with hmem | hmem
        · exact h.returned ret hmem
        · obtain ⟨call, hcall, rfl⟩ := Option.map_eq_some_iff.mp (Option.mem_toList.mp hmem)
          exact h.ends hctl hends call hcall
      obtain ⟨state, swap, rfl⟩ : ∃ state swap,
          s = log.sys.setCtrler c ((log.sys.ctrlers c).swapped state swap result) := by
        cases hends <;> exact ⟨_, _, rfl⟩
      obtain ⟨hcall, hswaps⟩ := CallInv.swapped (id c) log.sys.metadata
        (log.sys.ctrlers c) state swap result (log.calls c)
      refine h.setCtrler hctl (log.sys.setCtrler c _) _ rfl rfl hcall
        (fun _ _ _ _ _ heq => ?_) hreturns
      rw [heq] at hswaps
      cases hswaps

theorem reachable_sys (hr : (swapSys id).Reachable log) :
    (shardSys .any id).Reachable log.sys := by
  refine Sys.Reachable.invariant (I := fun log => (shardSys .any id).Reachable log.sys) ?_ ?_ hr
  · rintro _ rfl
    exact .init rfl
  · rintro log a log' - hsys hstep
    obtain ⟨s, hsys', rfl⟩ := Option.map_eq_some_iff.mp hstep
    exact hsys.step (a := a) ⟨by cases a <;> trivial, hsys'⟩

theorem Inv.reachable (hid : Function.Injective id) (hr : (swapSys id).Reachable log) :
    log.Inv id := by
  refine Sys.Reachable.invariant (I := fun log => log.Inv id) ?_ ?_ hr
  · rintro _ rfl
    refine ⟨?_, fun c => trivial, ?_⟩ <;> simp [SwapLog.init, ShardSystem.init]
  · intro log a log' hr h hstep
    exact h.step hid (.reachable hid (reachable_sys hr)) hstep

end SwapLog

/-! ### What a return tells -/

/-- A call of `InitConfig` by the controller that the first record is of. -/
def SwapCall.Repeated (owner : GoString) (call : SwapCall) : Prop :=
  call.version = 0 ∧ ∃ r, call.before[0]? = some r ∧ r.owner = owner

/-- What a call that has returned tells, in this or any earlier state. -/
structure SwapReturn.Resolved (owner : GoString) (s : ShardSystem Ctl) (ret : SwapReturn Ctl) :
    Prop where
  /-- The record is stored, by a copy of this call, and in one place only. -/
  confirmed : ret.result = true → ¬ ret.call.Repeated owner →
    (∃ k ∈ ret.call.copies, (k, Err.ok) ∈ s.putReplies) ∧
      ∀ v : ℕ, s.stored[v]? = some ret.call.state ↔ v = ret.call.version
  /-- No copy has stored the record, or it had been replaced. -/
  denied : ret.result = false →
    ((∀ k ∈ ret.call.copies, (k, Err.ok) ∉ s.putReplies) ∧
        (¬ ret.call.Repeated owner → ret.call.state ∉ s.stored)) ∨
      ret.stored[ret.call.version]? = some ret.call.state ∧
        ∃ r, ret.stored[ret.call.version + 1]? = some r ∧ r.owner ≠ owner
  /-- Such a call stores nothing and compares. -/
  repeated : ret.call.Repeated owner →
    (∀ k ∈ ret.call.copies, (k, Err.ok) ∉ s.putReplies) ∧
      (ret.result = true → ret.stored.getLast? = some ret.call.state)

theorem SwapCall.Repeated.late {owner : GoString} {call : SwapCall} (h : call.Repeated owner) :
    call.Late owner := by
  obtain ⟨hzero, r, hr, howner⟩ := h
  exact ⟨hzero, r, List.mem_of_getElem? hr, howner⟩

section

variable {G : Configs} {id : Ctl → GoString} {s : ShardSystem Ctl}

/-- Where a controller calls `InitConfig` and such a record is stored, it has
stored the first one. -/
theorem SwapCall.Late.repeated {owner : GoString} {call : SwapCall} (h : call.Late owner)
    (hctl : ControllerInv G id s) (hbefore : call.before <+: s.stored)
    (howner : call.state.owner = owner) (hepoch : call.state.epoch = 1) {w : ℕ}
    (hw : s.stored[w]? = some call.state) : call.Repeated owner := by
  obtain ⟨hzero, r, hr, -⟩ := h
  obtain ⟨first, hfirst, heq⟩ := hctl.first_owner hw hepoch
  refine ⟨hzero, first, ?_, heq.trans howner⟩
  rw [← Pool.getElem?_eq hbefore (List.length_pos_of_mem hr)]
  exact hfirst

theorem SwapReturn.Inv.resolved {ret : SwapReturn Ctl} {owner : GoString}
    (h : ret.Inv owner s.metadata) (hctl : ControllerInv .any id s) : ret.Resolved owner s := by
  have hstored : s.stored[ret.call.version]? = ret.stored[ret.call.version]? :=
    Pool.getElem?_eq h.stored h.lt
  have hepoch : ret.call.version = 0 → ret.call.state.epoch = 1 := by
    intro hzero
    have hafter := h.sent.after
    rw [hzero] at hafter
    exact hafter.1
  have hlate : ret.call.Late owner → ∀ w : ℕ, s.stored[w]? = some ret.call.state →
      ret.call.Repeated owner := fun hlate w hw =>
    hlate.repeated hctl h.sent.before h.sent.named (hepoch hlate.1) hw
  refine ⟨fun hresult hrep => ?_, fun hresult => ?_, fun hrep => ?_⟩
  · by_cases hl : ret.call.Late owner
    · -- the record that was read is stored
      obtain ⟨w, hw⟩ := List.mem_iff_getElem?.mp
        (h.stored.subset (List.mem_of_getLast? (h.late hl hresult)))
      exact absurd (hlate hl w hw) hrep
    · obtain ⟨hget, hok⟩ := h.confirmed hresult hl
      rw [← hstored] at hget
      refine ⟨hok, fun v => ⟨fun hv => hctl.place_unique hv hget, ?_⟩⟩
      rintro rfl
      exact hget
  · by_cases hl : ret.call.Late owner
    · refine .inl ⟨h.sent.late hl, fun hrep hmem => ?_⟩
      obtain ⟨w, hw⟩ := List.mem_iff_getElem?.mp hmem
      exact hrep (hlate hl w hw)
    · by_cases hget : ret.stored[ret.call.version]? = some ret.call.state
      · exact .inr ⟨hget, h.denied hresult hl hget⟩
      · refine .inl ⟨fun k hk hok => ?_, fun _ hmem => ?_⟩
        · obtain ⟨j, hj⟩ := List.mem_iff_getElem?.mp hok
          obtain ⟨v, st, hput, -, hst⟩ := hctl.answered j k .ok hj
          cases (h.sent.copies k hk).symm.trans hput
          exact hget (hstored.symm.trans (hst rfl))
        · obtain ⟨w, hw⟩ := List.mem_iff_getElem?.mp hmem
          have hafter := h.sent.after
          cases hv : ret.call.version with
          | zero =>
              -- the first record is the controller's, and so that of this call
              obtain ⟨first, hfirst, howner⟩ := hctl.first_owner hw (hepoch hv)
              rw [hv, hfirst] at hstored
              obtain rfl := h.first hl hv first hstored.symm (howner.trans h.sent.named)
              rw [hv] at hget
              exact hget hstored.symm
          | succ v =>
              rw [hv] at hafter
              obtain rfl := hctl.place_of_after hafter hw
              rw [hv, hw] at hstored
              rw [hv] at hget
              exact hget hstored.symm
  · exact ⟨h.sent.late hrep.late, h.late hrep.late⟩

end

variable [DecidableEq Ctl]

/-- What a controller in a call waits to have stored. -/
def Pc.swapped : Pc → Option ControllerState
  | .put _ _ state _ _ | .confirm state _ => some state
  | _ => none

theorem SwapLog.Inv.noted {id : Ctl → GoString} {log log' : SwapLog Ctl} (h : log.Inv id)
    {a : ShardAction Ctl} {c : Ctl} {result : Bool} (hs : log.step id a = some log')
    (hret : log.sys.swapResult a = some (c, result)) :
    ∃ call, (log.sys.ctrlers c).pc.swapped = some call.state ∧
      log'.returns = log.returns ++ [⟨c, call, result, log.sys.stored⟩] := by
  obtain ⟨s, hstep, rfl⟩ := Option.map_eq_some_iff.mp hs
  obtain ⟨call, hcall, hstate⟩ : ∃ call, log.calls c = some call ∧
      (log.sys.ctrlers c).pc.swapped = some call.state := by
    have hpcs := h.pcs c
    cases SwapEnds.of_step hstep hret with
    | ok k n version state resent swap hpc | errVersion k n version state swap hpc
    | errNoKey k n version state resent swap hpc =>
        rw [hpc] at hpcs ⊢
        obtain ⟨call, hcall, -, -, rfl, -⟩ := hpcs
        exact ⟨call, hcall, rfl⟩
    | read state swap result hpc =>
        rw [hpc] at hpcs ⊢
        obtain ⟨call, hcall, -, -, rfl⟩ := hpcs
        exact ⟨call, hcall, rfl⟩
  refine ⟨call, hstate, ?_⟩
  simp [SwapLog.next, hret, hcall]

/-- In every run, whatever is lost or late, every return of `compareAndSwap`
tells what has become of its record, but that `InitConfig` may be told of the
record of an earlier call by the controller that has made that one too. -/
theorem swaps_resolved (id : Ctl ↪ GoString) {log : SwapLog Ctl} (hr : (swapSys id).Reachable log) :
    (∀ ret ∈ log.returns, ret.Resolved (id ret.ctrler) log.sys) ∧
      ∀ a log' c result, log.step id a = some log' → log.sys.swapResult a = some (c, result) →
        ∃ call, (log.sys.ctrlers c).pc.swapped = some call.state ∧
          log'.returns = log.returns ++ [⟨c, call, result, log.sys.stored⟩] := by
  have h := SwapLog.Inv.reachable id.injective hr
  have hctl := ControllerInv.reachable id.injective (SwapLog.reachable_sys hr)
  exact ⟨fun ret hret => (h.returned ret hret).resolved hctl, fun _ _ _ _ => h.noted⟩

/-- Controller 0 has its first reply lost and reads the record back. Controller
1 takes over, its replies are lost, and controller 2 takes over before it reads
back. -/
def sampleSwaps : List (ShardAction (Fin 3)) :=
  [.initConfig 0 (sampleConfig 1 1), .executePut 0, .putLost 0, .executePut 1, .putReply 0 1,
    .run 0, .initController 1, .run 1, .executePut 2, .putLost 1,
    .initController 2, .run 2, .executePut 4, .putReply 2 3,
    .executePut 3, .putReply 1 4, .run 1]

theorem swaps_resolved_sampleSwaps :
    let log := play (SwapLog.step sampleIds) (.init (Fin 3)) sampleSwaps
    log.returns.map (fun ret => (ret.ctrler, ret.call.version, ret.result)) =
        [(0, 0, true), (2, 2, true), (1, 1, false)] ∧
      ∀ ret ∈ log.returns, ret.Resolved (sampleIds ret.ctrler) log.sys := by
  intro log
  exact ⟨by decide +kernel, (swaps_resolved sampleIds (reachable_play _ _ sampleSwaps)).1⟩

/-- A controller that stored the first configuration has moved on to the second,
which moves no shard, and calls `InitConfig` with that. -/
def repeatedSwaps : List (ShardAction (Fin 3)) :=
  List.flatten [
    [.initConfig 0 (sampleConfig 1 1), .executePut 0, .putReply 0 0,
      .changeConfigTo 0 (sampleConfig 2 1), .run 0, .run 0, .run 0, .executePut 1, .putReply 0 1],
    List.replicate 14 (.run 0), [.executePut 2, .putReply 0 2],
    List.replicate 14 (.run 0), [.executePut 3, .putReply 0 3],
    [.initConfig 0 (sampleConfig 2 1), .putLost 0, .executePut 5, .putReply 0 4, .run 0]]

/-- It is told that its record is stored, which no copy of its `Put` has stored,
and the record is stored at another version. -/
theorem repeated_swap_confirmed :
    let log := play (SwapLog.step sampleIds) (.init (Fin 3)) repeatedSwaps
    (swapSys sampleIds).Reachable log ∧ ∃ ret, log.returns[4]? = some ret ∧ ret.result = true ∧
      (∀ k ∈ ret.call.copies, (k, Err.ok) ∉ log.sys.putReplies) ∧
      log.sys.stored[ret.call.version]? ≠ some ret.call.state ∧
      log.sys.stored[3]? = some ret.call.state := by
  intro log
  refine ⟨reachable_play _ _ repeatedSwaps, ?_⟩
  decide +kernel

end RaftShardedKv
