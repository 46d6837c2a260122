import RaftShardedKv.Shard.Plans

/-!
Calls of `compareAndSwap`.

The calls are written down beside the system: which copies of a `Put` belong to
one call, what was stored when it began, and what it returned. As long as a
call goes on, nothing but its record is stored in the name of its controller,
from the version on that it names; that is known of the record that the
controller has read and stays true while it works on it.
-/

namespace RaftShardedKv

open Transition

variable {Ctl : Type}

/-! ### Calls -/

variable [DecidableEq Ctl]

/-- A call of `compareAndSwap`. -/
structure SwapCall where
  version : ℕ
  state : ControllerState
  /-- What was stored when it was made. -/
  before : List ControllerState
  /-- The copies of its `Put`. -/
  copies : List ℕ
  deriving DecidableEq

structure SwapReturn (Ctl : Type) where
  ctrler : Ctl
  call : SwapCall
  result : Bool
  /-- What was stored when it returned. -/
  stored : List ControllerState
  deriving DecidableEq

/-- The system, and the calls in it. -/
structure SwapLog (Ctl : Type) where
  sys : ShardSystem Ctl
  /-- The last call of a controller. -/
  calls : Ctl → Option SwapCall
  returns : List (SwapReturn Ctl)

/-- Whether `compareAndSwap` returns in a step, to whom and what. -/
def ShardSystem.swapResult (s : ShardSystem Ctl) : ShardAction Ctl → Option (Ctl × Bool)
  | .putReply c k => do
      let (_, err) ← s.putReplies[k]?
      match (s.ctrlers c).pc, err with
      | .put _ _ _ _ _, .ok => some (c, true)
      | .put _ _ _ false _, .errVersion => some (c, false)
      | .put _ _ _ _ _, .errNoKey => some (c, false)
      | _, _ => none
  | .run c =>
      match (s.ctrlers c).pc with
      | .confirm state _ => some (c, decide ((readState s.stored).map Prod.fst = some state))
      | _ => none
  | _ => none

namespace SwapLog

/-- The last call of a controller that is at this place after a step: a `Put`
whose number is new has been sent in the step, for the call that goes on or for
a new one. -/
def callAt (log : SwapLog Ctl) (last : Option SwapCall) : Pc → Option SwapCall
  | .put k version state resent _ =>
      if k ≠ log.sys.puts.length then last
      else if resent then last.map fun call => { call with copies := call.copies ++ [k] }
      else some ⟨version, state, log.sys.stored, [k]⟩
  | _ => last

def next (log : SwapLog Ctl) (a : ShardAction Ctl) (s : ShardSystem Ctl) : SwapLog Ctl where
  sys := s
  calls c := log.callAt (log.calls c) (s.ctrlers c).pc
  returns :=
    match log.sys.swapResult a with
    | none => log.returns
    | some (c, result) =>
        log.returns ++ ((log.calls c).map fun call => ⟨c, call, result, log.sys.stored⟩).toList

def step (id : Ctl → GoString) (log : SwapLog Ctl) (a : ShardAction Ctl) : Option (SwapLog Ctl) :=
  (log.sys.step id a).map (log.next a)

def init (Ctl : Type) : SwapLog Ctl := ⟨.init Ctl, fun _ => none, []⟩

end SwapLog

abbrev swapSys (id : Ctl → GoString) : Sys (SwapLog Ctl) (ShardAction Ctl) :=
  Sys.ofStep (SwapLog.init Ctl) (SwapLog.step id)

/-! ### Steps -/

/-- The controller is in a call. -/
def Pc.swaps : Pc → Bool
  | .put _ _ _ _ _ | .confirm _ _ => true
  | _ => false

/-- A call returns. -/
inductive SwapEnds (s : ShardSystem Ctl) (c : Ctl) : Bool → ShardSystem Ctl → Prop
  | ok (k call version : ℕ) (state : ControllerState) (resent : Bool) (swap : Swap)
      (hpc : (s.ctrlers c).pc = .put call version state resent swap)
      (hreply : s.putReplies[k]? = some (call, .ok)) :
      SwapEnds s c true (s.setCtrler c ((s.ctrlers c).swapped state swap true))
  | errVersion (k call version : ℕ) (state : ControllerState) (swap : Swap)
      (hpc : (s.ctrlers c).pc = .put call version state false swap)
      (hreply : s.putReplies[k]? = some (call, .errVersion)) :
      SwapEnds s c false (s.setCtrler c ((s.ctrlers c).swapped state swap false))
  | errNoKey (k call version : ℕ) (state : ControllerState) (resent : Bool) (swap : Swap)
      (hpc : (s.ctrlers c).pc = .put call version state resent swap)
      (hreply : s.putReplies[k]? = some (call, .errNoKey)) :
      SwapEnds s c false (s.setCtrler c ((s.ctrlers c).swapped state swap false))
  | read (state : ControllerState) (swap : Swap) (result : Bool)
      (hpc : (s.ctrlers c).pc = .confirm state swap)
      (hresult : result = decide ((readState s.stored).map Prod.fst = some state)) :
      SwapEnds s c result (s.setCtrler c ((s.ctrlers c).swapped state swap result))

/-- No call returns. -/
inductive SwapGoes (id : Ctl → GoString) (s : ShardSystem Ctl) : ShardSystem Ctl → Prop
  | move (c : Ctl) (sck : ShardCtrler) (hpc : (s.ctrlers c).pc.swaps = false)
      (h : Moves .any (id c) s (s.ctrlers c) sck) : SwapGoes id s (s.setCtrler c sck)
  | errMaybe (c : Ctl) (k call version : ℕ) (state : ControllerState) (swap : Swap)
      (hpc : (s.ctrlers c).pc = .put call version state true swap)
      (hreply : s.putReplies[k]? = some (call, .errVersion)) :
      SwapGoes id s (s.setPc c (s.ctrlers c) (.confirm state swap))
  | sendPut (c : Ctl) (version : ℕ) (state : ControllerState) (resent : Bool) (swap : Swap)
      (h : Sends .any (id c) s (s.ctrlers c) version state resent swap) :
      SwapGoes id s (s.sendPut c version state resent swap)
  | send (c : Ctl) (r : Recovery) (i : Tshid) (job : Job) (h : (s.ctrlers c).pc = .check r i job) :
      SwapGoes id s { s.setPc c (s.ctrlers c) (.call r i job s.sent.length) with
        sent := s.sent ++ [(r.gid i job, r.request i job)] }
  | executePut (k version : ℕ) (state : ControllerState) (hk : s.puts[k]? = some (version, state)) :
      SwapGoes id s { s with
        stored := (putState s.stored version state).1
        putReplies := s.putReplies ++ [(k, (putState s.stored version state).2)] }
  | groups (groups : Tgid → KVServer) (replies : List (ℕ × Reply)) :
      SwapGoes id s { s with groups := groups, replies := replies }

section

variable {id : Ctl → GoString} {s s' : ShardSystem Ctl} {a : ShardAction Ctl} {c : Ctl}

theorem SwapEnds.of_step {result : Bool} (hs : s.step id a = some s')
    (hret : s.swapResult a = some (c, result)) : SwapEnds s c result s' := by
  cases a with
  | putReply c' k =>
      obtain ⟨call, err, version, state, resent, swap, hk, hpc, hcases⟩ :=
        ShardSystem.of_putReply hs
      simp only [ShardSystem.swapResult, hk, hpc, Option.bind_eq_bind, Option.bind_some] at hret
      rcases hcases with ⟨rfl, rfl⟩ | ⟨rfl, rfl, rfl⟩ | ⟨rfl, rfl, rfl⟩ | ⟨rfl, rfl⟩
      · cases hret
        exact .ok k call version state resent swap hpc hk
      · cases hret
      · cases hret
        exact .errVersion k call version state swap hpc hk
      · cases hret
        exact .errNoKey k call version state resent swap hpc hk
  | run c' =>
      simp only [ShardSystem.swapResult] at hret
      split at hret
      · rename_i state swap hpc
        cases hret
        simp only [ShardSystem.step, ShardSystem.run, hpc] at hs
        cases hs
        exact .read state swap _ hpc rfl
      · cases hret
  | _ => cases hret

theorem SwapGoes.of_ctrlerStep (hpc : (s.ctrlers c).pc.swaps = false)
    (h : CtrlerStep .any id s c s') : SwapGoes id s s' := by
  cases h with
  | move sck h => exact .move c sck hpc h
  | sendPut version state resent swap h => exact .sendPut c version state resent swap h
  | send r i job h => exact .send c r i job h

theorem SwapGoes.of_putReply {k : ℕ} (hs : s.step id (.putReply c k) = some s')
    (hret : s.swapResult (.putReply c k) = none) : SwapGoes id s s' := by
  obtain ⟨call, err, version, state, resent, swap, hk, hpc, hcases⟩ := ShardSystem.of_putReply hs
  simp only [ShardSystem.swapResult, hk, hpc, Option.bind_eq_bind, Option.bind_some] at hret
  rcases hcases with ⟨rfl, rfl⟩ | ⟨rfl, rfl, rfl⟩ | ⟨rfl, rfl, rfl⟩ | ⟨rfl, rfl⟩
  · cases hret
  · exact .errMaybe c k call version state swap hpc hk
  · cases hret
  · cases hret

theorem SwapGoes.of_step (hs : (shardSys .any id).step s a s') (hret : s.swapResult a = none) :
    SwapGoes id s s' := by
  cases hc : a.ctrler with
  | none =>
      cases ServerStep.of_step hs hc with
      | executePut k version state hk => exact .executePut k version state hk
      | execute k gid req kv reply => exact .groups _ _
      | client gid req kv reply => exact .groups _ s.replies
  | some c =>
      have hstep := CtrlerStep.of_step hs hc
      have hs : s.step id a = some s' := hs.2
      cases a with
      | putReply c' k => exact .of_putReply hs hret
      | putLost c' =>
          simp only [ShardSystem.step] at hs
          split at hs
          · rename_i call version state resent swap hpc
            cases hs
            exact .sendPut c' _ _ _ _ (.again call version state resent swap hpc)
          · cases hs
      | executePut k => cases hc
      | execute k => cases hc
      | client gid req => cases hc
      | _ =>
          cases hc
          refine .of_ctrlerStep ?_ hstep
          cases hpc : (s.ctrlers c).pc with
          | put call version state resent swap =>
              simp [ShardSystem.step, ShardSystem.run, hpc] at hs
          | confirm state swap =>
              simp [ShardSystem.step, ShardSystem.swapResult, hpc] at hs hret
          | _ => rfl

end

/-! ### What holds of a call -/

/-- What the system has of the metadata. -/
structure Metadata where
  stored : List ControllerState
  puts : List (ℕ × ControllerState)
  putReplies : List (ℕ × Err)

def ShardSystem.metadata (s : ShardSystem Ctl) : Metadata := ⟨s.stored, s.puts, s.putReplies⟩

/-- More has been sent, stored and answered; a `Put` that has newly succeeded
named the version that was the last. -/
structure Metadata.Grows (m m' : Metadata) : Prop where
  stored : m.stored <+: m'.stored
  puts : m.puts <+: m'.puts
  putReplies : m.putReplies ⊆ m'.putReplies
  ok : ∀ k, (k, Err.ok) ∈ m'.putReplies →
    (k, Err.ok) ∈ m.putReplies ∨ ∃ st, m.puts[k]? = some (m.stored.length, st)

namespace SwapCall

variable {owner : GoString} {m m' : Metadata} {call : SwapCall}

/-- A call of `InitConfig` by a controller that has a record stored, whichever
it is. -/
def Late (owner : GoString) (call : SwapCall) : Prop :=
  call.version = 0 ∧ ∃ r ∈ call.before, r.owner = owner

/-- What stays true of a call. -/
structure Sent (owner : GoString) (m : Metadata) (call : SwapCall) : Prop where
  named : call.state.owner = owner
  after : After .any m.stored call.version call.state
  copies : ∀ k ∈ call.copies, m.puts[k]? = some (call.version, call.state)
  before : call.before <+: m.stored
  late : call.Late owner → ∀ k ∈ call.copies, (k, Err.ok) ∉ m.putReplies

/-- What holds as long as the call goes on: from its version on, nothing but its
record is stored in the name of its controller, and by one of its copies. -/
structure Open (owner : GoString) (m : Metadata) (call : SwapCall) : Prop extends
    Sent owner m call where
  own : ¬ call.Late owner → ∀ (v : ℕ) r, m.stored[v]? = some r → call.version ≤ v →
    r.owner = owner → v = call.version ∧ r = call.state
  mine : ¬ call.Late owner → m.stored[call.version]? = some call.state →
    ∃ k ∈ call.copies, (k, Err.ok) ∈ m.putReplies

theorem Sent.grows (h : call.Sent owner m) (hg : m.Grows m') : call.Sent owner m' where
  named := h.named
  after := by
    obtain ⟨l, hl⟩ := hg.stored
    exact hl ▸ h.after.append l
  copies k hk := by
    obtain ⟨l, hl⟩ := hg.puts
    exact hl ▸ Pool.append (h.copies k hk) l
  before := h.before.trans hg.stored
  late hlate k hk hok := by
    rcases hg.ok k hok with hok | ⟨st, hput⟩
    · exact h.late hlate k hk hok
    · -- version 0 is over when there is a record
      have hlen := congrArg Prod.fst (Option.some.inj ((h.copies k hk).symm.trans hput))
      obtain ⟨hzero, r, hr, -⟩ := hlate
      have hpos := (List.length_pos_of_mem hr).trans_le h.before.length_le
      simp only at hlen
      omega

theorem Open.kept (h : call.Open owner m) (hg : m.Grows m') (hstored : m'.stored = m.stored) :
    call.Open owner m' where
  toSent := h.toSent.grows hg
  own := by
    rw [hstored]
    exact h.own
  mine hlate hv := by
    rw [hstored] at hv
    obtain ⟨k, hk, hok⟩ := h.mine hlate hv
    exact ⟨k, hk, hg.putReplies hok⟩

/-- A record is stored. If it is in the name of the controller then it is that
of the call. -/
theorem Open.store (h : call.Open owner m) {k : ℕ} {st : ControllerState}
    (hg : m.Grows ⟨m.stored ++ [st], m.puts, m.putReplies ++ [(k, .ok)]⟩)
    (hmine : st.owner = owner →
      call.version = m.stored.length ∧ call.state = st ∧ k ∈ call.copies) :
    call.Open owner ⟨m.stored ++ [st], m.puts, m.putReplies ++ [(k, .ok)]⟩ where
  toSent := h.toSent.grows hg
  own hlate v r hv hle howner := by
    rcases Pool.concat_cases hv with hv | ⟨rfl, rfl⟩
    · exact h.own hlate v r hv hle howner
    · obtain ⟨hversion, hstate, -⟩ := hmine howner
      exact ⟨hversion.symm, hstate.symm⟩
  mine hlate hv := by
    rcases Pool.concat_cases hv with hv | ⟨-, hstate⟩
    · obtain ⟨k', hk', hok⟩ := h.mine hlate hv
      exact ⟨k', hk', List.mem_append_left _ hok⟩
    · exact ⟨k, (hmine (hstate ▸ h.named)).2.2, List.mem_append_right _ (List.mem_singleton_self _)⟩

theorem Open.again (h : call.Open owner m)
    (hfresh : ∀ err, (m.puts.length, err) ∉ m.putReplies)
    (hg : m.Grows ⟨m.stored, m.puts ++ [(call.version, call.state)], m.putReplies⟩) :
    { call with copies := call.copies ++ [m.puts.length] }.Open owner
      ⟨m.stored, m.puts ++ [(call.version, call.state)], m.putReplies⟩ where
  named := h.named
  after := h.after
  copies k hk := by
    rcases List.mem_append.mp hk with hk | hk
    · exact (h.toSent.grows hg).copies k hk
    · obtain rfl := List.mem_singleton.mp hk
      exact List.getElem?_concat_length
  before := h.before
  late hlate k hk := by
    rcases List.mem_append.mp hk with hk | hk
    · exact h.late hlate k hk
    · obtain rfl := List.mem_singleton.mp hk
      exact hfresh .ok
  own := h.own
  mine hlate hv := by
    obtain ⟨k, hk, hok⟩ := h.mine hlate hv
    exact ⟨k, List.mem_append_left _ hk, hok⟩

end SwapCall

/-- From this version on nothing is stored in the name of the owner. -/
def Alone (owner : GoString) (stored : List ControllerState) (version : ℕ) : Prop :=
  ∀ (v : ℕ) r, stored[v]? = some r → version ≤ v → r.owner ≠ owner

section

variable {owner : GoString} {stored : List ControllerState} {m m' : Metadata}

theorem Alone.of_read {state : ControllerState} {version : ℕ}
    (h : readState stored = some (state, version)) : Alone owner stored version := by
  intro v r hv hle
  have hlt := (List.getElem?_eq_some_iff.mp hv).1
  obtain ⟨-, rfl, -⟩ := readState_eq_some h
  omega

theorem Alone.append {version : ℕ} {st : ControllerState} (h : Alone owner stored version)
    (hst : st.owner ≠ owner) : Alone owner (stored ++ [st]) version := by
  intro v r hv hle
  rcases Pool.concat_cases hv with hv | ⟨-, rfl⟩
  · exact h v r hv hle
  · exact hst

theorem SwapCall.Open.first {version : ℕ} {state : ControllerState} (howner : state.owner = owner)
    (hafter : After .any m.stored version state)
    (hfresh : ∀ err, (m.puts.length, err) ∉ m.putReplies)
    (halone : Alone owner m.stored version ∨
      SwapCall.Late owner ⟨version, state, m.stored, [m.puts.length]⟩) :
    SwapCall.Open owner ⟨m.stored, m.puts ++ [(version, state)], m.putReplies⟩
      ⟨version, state, m.stored, [m.puts.length]⟩ where
  named := howner
  after := hafter
  copies k hk := by
    obtain rfl := List.mem_singleton.mp hk
    exact List.getElem?_concat_length
  before := List.prefix_rfl
  late _ k hk := by
    obtain rfl := List.mem_singleton.mp hk
    exact hfresh .ok
  own hlate v r hv hle howner' :=
    absurd howner' ((halone.resolve_right hlate) v r hv hle)
  mine hlate hv := absurd howner ((halone.resolve_right hlate) version state hv le_rfl)

/-- What holds of the call of a controller by where it is. -/
def CallInv (owner : GoString) (m : Metadata) (last : Option SwapCall) : Pc → Prop
  | .put k version state resent _ => ∃ call, last = some call ∧ call.Open owner m ∧
      call.version = version ∧ call.state = state ∧ k ∈ call.copies ∧
      (resent = false → call.copies = [k])
  | .confirm state _ => ∃ call, last = some call ∧ call.Open owner m ∧
      call.version < m.stored.length ∧ call.state = state
  | .migrate r _ | .check r _ _ | .call r _ _ _ | .remove r _ => Alone owner m.stored r.version
  | _ => True

theorem CallInv.kept {last : Option SwapCall} {pc : Pc} (h : CallInv owner m last pc)
    (hg : m.Grows m') (hstored : m'.stored = m.stored) : CallInv owner m' last pc := by
  cases pc with
  | put k version state resent swap =>
      obtain ⟨call, hlast, hopen, hrest⟩ := h
      exact ⟨call, hlast, hopen.kept hg hstored, hrest⟩
  | confirm state swap =>
      obtain ⟨call, hlast, hopen, hlt, hstate⟩ := h
      exact ⟨call, hlast, hopen.kept hg hstored, hstored ▸ hlt, hstate⟩
  | migrate r i | check r i job | call r i job n | remove r i =>
      simp only [CallInv, hstored]
      exact h
  | _ => trivial

theorem CallInv.store {last : Option SwapCall} {pc : Pc} (h : CallInv owner m last pc) {k : ℕ}
    {st : ControllerState} (hg : m.Grows ⟨m.stored ++ [st], m.puts, m.putReplies ++ [(k, .ok)]⟩)
    (hmine : st.owner = owner → (∃ n resent swap, pc = .put n m.stored.length st resent swap) ∧
      ∃ call, last = some call ∧ k ∈ call.copies) :
    CallInv owner ⟨m.stored ++ [st], m.puts, m.putReplies ++ [(k, .ok)]⟩ last pc := by
  -- a controller that does not wait for a `Put` is not the owner
  have hother : (∀ n version state resent swap, pc ≠ .put n version state resent swap) →
      st.owner ≠ owner := by
    intro hpc howner
    obtain ⟨⟨n, resent, swap, heq⟩, -⟩ := hmine howner
    exact hpc _ _ _ _ _ heq
  cases pc with
  | put n version state resent swap =>
      obtain ⟨call, hlast, hopen, hversion, hstate, hrest⟩ := h
      refine ⟨call, hlast, hopen.store hg fun howner => ?_, hversion, hstate, hrest⟩
      obtain ⟨⟨n', resent', swap', hpc⟩, call', hlast', hk⟩ := hmine howner
      cases hpc
      cases hlast.symm.trans hlast'
      exact ⟨hversion, hstate, hk⟩
  | confirm state swap =>
      obtain ⟨call, hlast, hopen, hlt, hstate⟩ := h
      refine ⟨call, hlast, hopen.store hg fun howner => absurd howner (hother (by simp)), ?_,
        hstate⟩
      rw [List.length_append]
      exact Nat.lt_add_right _ hlt
  | migrate r i | check r i job | call r i job n | remove r i =>
      exact Alone.append h (hother (by simp))
  | _ => trivial

omit [DecidableEq Ctl] in
theorem CallInv.moves {s : ShardSystem Ctl} {sck sck' : ShardCtrler} {last : Option SwapCall}
    (h : CallInv owner s.metadata last sck.pc) (hm : Moves .any owner s sck sck')
    (hpc : sck.pc.swaps = false) :
    CallInv owner s.metadata last sck'.pc ∧ sck'.pc.swaps = false := by
  cases hm with
  | call task hidle =>
      unfold ShardCtrler.ensureLeadership
      split <;> exact ⟨trivial, rfl⟩
  | stop => exact ⟨trivial, rfl⟩
  | lead task => exact ⟨trivial, rfl⟩
  | recovered task => cases task <;> exact ⟨trivial, rfl⟩
  | found r hfound howned => exact ⟨Alone.of_read howned.read, rfl⟩
  | skip r => exact ⟨trivial, rfl⟩
  | published r state version hpublished howned => exact ⟨Alone.of_read howned.read, rfl⟩
  | swapped call version state resent swap k heq | maybe call version state resent swap k err heq
  | confirmed state swap heq | rejected call version state resent task k err heq
  | unconfirmed state task heq =>
      rw [heq] at hpc
      cases hpc
  | stay r i heq | freeze r i clerks heq | create r i clerks heq | drop r i call data num k heq
  | frozen r i call data num k clerks heq | installed r i data call k heq | deleted r i call k heq
  | lost r i job call heq | keep r i heq | delete r i clerks heq =>
      rw [heq] at h
      exact ⟨h, rfl⟩

theorem CallInv.swapped (owner : GoString) (m : Metadata) (sck : ShardCtrler)
    (state : ControllerState) (swap : Swap) (result : Bool) (last : Option SwapCall) :
    CallInv owner m last (sck.swapped state swap result).pc ∧
      (sck.swapped state swap result).pc.swaps = false := by
  cases result with
  | true =>
      cases swap with
      | clear task => cases task <;> exact ⟨trivial, rfl⟩
      | _ => exact ⟨trivial, rfl⟩
  | false => cases swap <;> exact ⟨trivial, rfl⟩

end

/-! ### What holds of a call that has returned -/

structure SwapReturn.Inv (owner : GoString) (m : Metadata) (ret : SwapReturn Ctl) : Prop where
  sent : ret.call.Sent owner m
  stored : ret.stored <+: m.stored
  lt : ret.call.version < ret.stored.length
  confirmed : ret.result = true → ¬ ret.call.Late owner →
    ret.stored[ret.call.version]? = some ret.call.state ∧
      ∃ k ∈ ret.call.copies, (k, Err.ok) ∈ m.putReplies
  denied : ret.result = false → ¬ ret.call.Late owner →
    ret.stored[ret.call.version]? = some ret.call.state →
      ∃ r, ret.stored[ret.call.version + 1]? = some r ∧ r.owner ≠ owner
  first : ¬ ret.call.Late owner → ret.call.version = 0 → ∀ r, ret.stored[0]? = some r →
    r.owner = owner → r = ret.call.state
  late : ret.call.Late owner → ret.result = true →
    ret.stored.getLast? = some ret.call.state

section

variable {owner : GoString} {m m' : Metadata}

omit [DecidableEq Ctl] in
theorem SwapReturn.Inv.grows {ret : SwapReturn Ctl} (h : ret.Inv owner m) (hg : m.Grows m') :
    ret.Inv owner m' where
  sent := h.sent.grows hg
  stored := h.stored.trans hg.stored
  lt := h.lt
  confirmed hresult hlate := by
    obtain ⟨hstored, k, hk, hok⟩ := h.confirmed hresult hlate
    exact ⟨hstored, k, hk, hg.putReplies hok⟩
  denied := h.denied
  first := h.first
  late := h.late

omit [DecidableEq Ctl] in
/-- A call returns that it has been answered, or has read the last record. -/
theorem SwapCall.Open.returns {call : SwapCall} (h : call.Open owner m) (c : Ctl) {result : Bool}
    (hlt : call.version < m.stored.length)
    (htrue : result = true →
      (m.stored[call.version]? = some call.state ∧ ∃ k ∈ call.copies, (k, Err.ok) ∈ m.putReplies) ∨
        m.stored.getLast? = some call.state)
    (hfalse : result = false →
      (∀ k ∈ call.copies, (k, Err.ok) ∉ m.putReplies) ∨ m.stored.getLast? ≠ some call.state) :
    SwapReturn.Inv owner m ⟨c, call, result, m.stored⟩ where
  sent := h.toSent
  stored := List.prefix_rfl
  lt := hlt
  confirmed hresult hlate := by
    rcases htrue hresult with hstored | hlast
    · exact hstored
    · have hget : m.stored[m.stored.length - 1]? = some call.state := by
        rw [← List.getLast?_eq_getElem?]
        exact hlast
      obtain ⟨heq, -⟩ := h.own hlate _ _ hget (Nat.le_sub_one_of_lt hlt) h.named
      rw [heq] at hget
      exact ⟨hget, h.mine hlate hget⟩
  denied hresult hlate hget := by
    rcases hfalse hresult with hnone | hlast
    · obtain ⟨k, hk, hok⟩ := h.mine hlate hget
      exact absurd hok (hnone k hk)
    · -- the record is not the last, so there is one behind it
      have hbehind : call.version + 1 < m.stored.length := by
        by_contra hge
        have hlen : m.stored.length - 1 = call.version := by omega
        rw [List.getLast?_eq_getElem?, hlen] at hlast
        exact hlast hget
      refine ⟨_, List.getElem?_eq_getElem hbehind, fun howner => ?_⟩
      have hplace := (h.own hlate _ _ (List.getElem?_eq_getElem hbehind) (Nat.le_succ _) howner).1
      exact absurd hplace (Nat.lt_succ_self _).ne'
  first hlate hzero r hr howner := (h.own hlate 0 r hr hzero.le howner).2
  late hlate hresult := by
    rcases htrue hresult with ⟨-, k, hk, hok⟩ | hlast
    · exact absurd hok (h.late hlate k hk)
    · exact hlast

end

end RaftShardedKv
