import RaftShardedKv.Shard.SwapCalls

/-!
Controllers that have been taken over.

A controller that leads finds out when it reads the metadata, and it does
not run again. One that only wants to lead runs until `compareAndSwap`
tells it that its record is stored, and here `compareAndSwap` may say no
for a record that has been stored: the replies were lost, the record was
taken over, and what is read back is the record of another. The
controller then runs once more and takes the lead back. Where nobody
reads back too late, no controller that was taken over writes again: a
`Put` that is refused at once has not been stored.
-/

namespace RaftShardedKv

open Transition

variable {Ctl : Type}

/-- The record of a `compareAndSwap` that would make a controller lead
that does not. -/
def Swap.candidate (initialized : Bool) (st : ControllerState) : Swap → Option ControllerState
  | .init => if initialized then none else some st
  | .elect _ => some st
  | _ => none

namespace ShardCtrler

/-- The controller does not lead and may run for it. -/
def outside (sck : ShardCtrler) : Bool :=
  match sck.pc with
  | .idle => !sck.initialized
  | .elect _ => true
  | _ => false

/-- The record by which the controller runs, until `compareAndSwap`
returns. -/
def candidate (sck : ShardCtrler) : Option ControllerState :=
  match sck.pc with
  | .put _ _ st _ swap | .confirm st swap => swap.candidate sck.initialized st
  | _ => none

end ShardCtrler

/-- The owner lost the record and has it again. -/
def Regained (stored : List ControllerState) (owner : GoString) : Prop :=
  ∃ (u v w : ℕ) (x y z : ControllerState), u < v ∧ v < w ∧ stored[u]? = some x ∧
    stored[v]? = some y ∧ stored[w]? = some z ∧ x.owner = owner ∧ y.owner ≠ owner ∧ z.owner = owner

/-- The controller runs for the lead, its record has been stored, and so has
another since. -/
def Overtaken (s : ShardSystem Ctl) (c : Ctl) : Prop :=
  ∃ st ∈ (s.ctrlers c).candidate, st ∈ s.stored ∧ s.stored.getLast? ≠ some st

instance overtakenDecidable (s : ShardSystem Ctl) (c : Ctl) : Decidable (Overtaken s c) :=
  inferInstanceAs (Decidable (∃ _, _))

theorem ShardCtrler.not_outside {sck : ShardCtrler} {st : ControllerState}
    (h : sck.candidate = some st) : ¬ sck.outside = true := by
  unfold ShardCtrler.candidate at h
  split at h <;> simp_all [ShardCtrler.outside]

theorem Swap.candidate_eq {initialized : Bool} {st st' : ControllerState} {swap : Swap}
    (h : swap.candidate initialized st = some st') : st' = st := by
  unfold Swap.candidate at h
  split at h
  · split at h
    · cases h
    · exact (Option.some.inj h).symm
  · exact (Option.some.inj h).symm
  · cases h

theorem Swap.swapped_not_outside {sck : ShardCtrler} {state st : ControllerState} {swap : Swap}
    (h : swap.candidate sck.initialized state = some st) :
    ¬ (sck.swapped state swap true).outside = true := by
  cases swap with
  | init => simp [ShardCtrler.swapped, ShardCtrler.outside]
  | elect task => simp [ShardCtrler.swapped, ShardCtrler.outside]
  | publish r | clear task | plan => cases h

theorem ShardCtrler.swaps_of_candidate {sck : ShardCtrler} {st : ControllerState}
    (h : sck.candidate = some st) : sck.pc.swaps = true := by
  unfold ShardCtrler.candidate at h
  split at h <;> simp_all [Pc.swaps]

/-! ### What the records say about a controller -/

/-- Where a controller may be before it is initialized. -/
def Pc.early : Pc → Prop
  | .idle => True
  | .put _ _ _ _ swap | .confirm _ swap => swap = .init
  | _ => False

/-- What a controller that waits for its record relies on. -/
def SwapInv (id : GoString) (stored : List ControllerState) (version : ℕ) : Swap → Prop
  | .init => version = 0
  | .elect _ => ∀ (w : ℕ) r, stored[w]? = some r → r.owner = id → w = version
  | _ => ∃ m r, version = m + 1 ∧ stored[m]? = some r ∧ r.owner = id

structure Standing (id : GoString) (stored : List ControllerState) (sck : ShardCtrler) : Prop where
  early : sck.initialized = false → sck.pc.early
  outside : sck.outside = true → ∀ r ∈ stored, r.owner ≠ id
  candidate : ∀ st ∈ sck.candidate, ∀ r ∈ stored, r.owner = id → r = st
  waiting : ∀ call version st resent swap, sck.pc = .put call version st resent swap →
    SwapInv id stored version swap

section

variable {G : Configs} {id : GoString} {stored : List ControllerState} {s : ShardSystem Ctl}
  {sck sck' : ShardCtrler}

theorem Standing.of_initialized (hinit : sck.initialized = true)
    (hpc : (∀ task, sck.pc ≠ .elect task) ∧
      (∀ call version st resent swap, sck.pc ≠ .put call version st resent swap) ∧
      ∀ st swap, sck.pc ≠ .confirm st swap) : Standing id stored sck := by
  obtain ⟨helect, hput, hconfirm⟩ := hpc
  refine ⟨fun h => absurd (hinit.symm.trans h) (by decide), ?_, ?_, ?_⟩
  · intro h
    unfold ShardCtrler.outside at h
    split at h
    · simp [hinit] at h
    · rename_i task heq
      exact absurd heq (helect task)
    · cases h
  · intro st hst
    unfold ShardCtrler.candidate at hst
    split at hst
    · rename_i heq
      exact absurd heq (hput _ _ _ _ _)
    · rename_i heq
      exact absurd heq (hconfirm _ _)
    · cases hst
  · exact fun _ _ _ _ _ heq => absurd heq (hput _ _ _ _ _)

theorem Standing.of_nobody (hearly : sck.initialized = false → sck.pc.early)
    (hput : ∀ call version st resent swap, sck.pc ≠ .put call version st resent swap)
    (hnobody : ∀ r ∈ stored, r.owner ≠ id) : Standing id stored sck :=
  ⟨hearly, fun _ => hnobody, fun _ _ r hr howner => absurd howner (hnobody r hr),
    fun _ _ _ _ _ heq => absurd heq (hput _ _ _ _ _)⟩

theorem Standing.of_wait {call version : ℕ} {state : ControllerState} {resent : Bool} {swap : Swap}
    (hearly : sck.initialized = false → swap = .init)
    (hcandidate : ∀ st ∈ swap.candidate sck.initialized state, ∀ r ∈ stored, r.owner = id → r = st)
    (hswap : SwapInv id stored version swap) :
    Standing id stored { sck with pc := .put call version state resent swap } := by
  refine ⟨hearly, fun hout => ?_, hcandidate, ?_⟩
  · cases hout
  · rintro _ _ _ _ _ ⟨⟩
    exact hswap

theorem Standing.initialized (h : Standing id stored sck) (hpc : ¬ sck.pc.early) :
    sck.initialized = true := by
  by_contra hinit
  exact hpc (h.early (by simpa using hinit))

theorem Standing.gaveUp (h : Standing id stored sck) {st : ControllerState}
    (hst : sck.candidate = some st) (hnot : st ∉ stored) : ∀ r ∈ stored, r.owner ≠ id := by
  intro r hr howner
  exact hnot (h.candidate st hst r hr howner ▸ hr)

theorem Standing.stop (h : Standing id stored sck)
    (hgave : sck.initialized = false → ∀ st ∈ sck.candidate, st ∉ stored) (deposed : Bool) :
    Standing id stored { sck with deposed := deposed, pc := .idle } := by
  cases hinit : sck.initialized with
  | true => exact .of_initialized rfl (by simp)
  | false =>
      refine .of_nobody (fun _ => trivial) (by simp) ?_
      have hearly := h.early hinit
      cases hpc : sck.pc with
      | idle => exact h.outside (by simp [ShardCtrler.outside, hpc, hinit])
      | put call version st resent swap | confirm st swap =>
          rw [hpc] at hearly
          obtain rfl : swap = .init := hearly
          have hst : sck.candidate = some st := by
            simp [ShardCtrler.candidate, Swap.candidate, hpc, hinit]
          exact h.gaveUp hst (hgave hinit st hst)
      | _ => simp [hpc, Pc.early] at hearly

theorem Standing.elect (h : Standing id stored sck) {st : ControllerState} {task : Task}
    (hinit : sck.initialized = true) (hst : sck.candidate = some st) (hnot : st ∉ stored) :
    Standing id stored { sck with pc := .elect task } :=
  .of_nobody (fun h => absurd (hinit.symm.trans h) (by decide)) (by simp) (h.gaveUp hst hnot)

theorem Standing.swapped (h : Standing id stored sck) {state : ControllerState} {swap : Swap}
    (hpc : swap ≠ .init → ¬ sck.pc.early) : Standing id stored (sck.swapped state swap true) := by
  cases swap with
  | init => exact .of_initialized rfl (by simp [ShardCtrler.swapped])
  | clear task =>
      refine .of_initialized (h.initialized (hpc nofun)) ?_
      cases task <;> simp [ShardCtrler.swapped, ShardCtrler.recovered]
  | _ => exact .of_initialized (h.initialized (hpc nofun)) (by simp [ShardCtrler.swapped])

theorem Standing.moves (h : Standing id s.stored sck) (hm : Moves G id s sck sck')
    (hgave : sck'.outside = true → ∀ st ∈ sck.candidate, st ∉ s.stored) :
    Standing id s.stored sck' := by
  have hlater : ∀ pc : Pc, ¬ sck.pc.early → ((∀ task, pc ≠ .elect task) ∧
      (∀ call version st resent swap, pc ≠ .put call version st resent swap) ∧
      ∀ st swap, pc ≠ .confirm st swap) → Standing id s.stored { sck with pc := pc } :=
    fun pc hpc hpc' => .of_initialized (h.initialized hpc) hpc'
  cases hm with
  | call task hpc =>
      unfold ShardCtrler.ensureLeadership
      split
      · rename_i hinit
        exact .of_initialized hinit (by simp)
      · rename_i hinit
        refine .of_nobody (by simp) (by simp) (h.outside ?_)
        simpa [ShardCtrler.outside, hpc] using hinit
  | stop deposed => exact h.stop (fun hinit => hgave (by simp [ShardCtrler.outside, hinit])) deposed
  | recovered task state version hpc =>
      refine hlater _ (by simp [hpc, Pc.early]) ?_
      cases task <;> simp [ShardCtrler.recovered]
  | swapped call version state resent swap k hpc =>
      exact h.swapped fun hne => by simpa [hpc, Pc.early] using hne
  | confirmed state swap hpc =>
      exact h.swapped fun hne => by simpa [hpc, Pc.early] using hne
  | maybe call version state resent swap k err hpc =>
      refine ⟨fun hinit => ?_, fun hout => ?_, fun st hst => h.candidate st ?_,
        fun _ _ _ _ _ heq => ?_⟩
      · have hearly := h.early hinit
        rw [hpc] at hearly
        exact hearly
      · cases hout
      · simpa [ShardCtrler.candidate, hpc] using hst
      · cases heq
  | rejected call version state resent task k err hpc =>
      have hst : sck.candidate = some state := by
        simp [ShardCtrler.candidate, Swap.candidate, hpc]
      exact h.elect (h.initialized (by simp [hpc, Pc.early])) hst (hgave rfl state hst)
  | unconfirmed state task hpc =>
      have hst : sck.candidate = some state := by
        simp [ShardCtrler.candidate, Swap.candidate, hpc]
      exact h.elect (h.initialized (by simp [hpc, Pc.early])) hst (hgave rfl state hst)
  | lead task hpc | found r hpc | skip r hpc | stay r i hpc | freeze r i clerks hpc
  | create r i clerks hpc | frozen r i call data num k clerks hpc | drop r i call data num k hpc
  | installed r i data call k hpc | deleted r i call k hpc | lost r i job call hpc
  | published r state version hpc | keep r i hpc | delete r i clerks hpc =>
      exact hlater _ (by simp [hpc, Pc.early]) (by simp)

theorem Standing.append (h : Standing id stored sck) {st : ControllerState}
    (hmine : st.owner = id → ∃ call resent swap, sck.pc = .put call stored.length st resent swap) :
    Standing id (stored ++ [st]) sck := by
  refine ⟨h.early, ?_, ?_, ?_⟩
  · intro hout r hr
    rcases List.mem_append.mp hr with hr | hr
    · exact h.outside hout r hr
    · rintro howner
      obtain rfl := List.mem_singleton.mp hr
      obtain ⟨call, resent, swap, hpc⟩ := hmine howner
      simp [ShardCtrler.outside, hpc] at hout
  · intro st' hst' r hr howner
    rcases List.mem_append.mp hr with hr | hr
    · exact h.candidate st' hst' r hr howner
    · obtain rfl := List.mem_singleton.mp hr
      obtain ⟨call, resent, swap, hpc⟩ := hmine howner
      simp only [ShardCtrler.candidate, hpc] at hst'
      exact (Swap.candidate_eq hst').symm
  · intro call version st' resent swap hpc
    have hswap := h.waiting call version st' resent swap hpc
    cases swap with
    | init => exact hswap
    | elect task =>
        intro w r hw howner
        rcases Pool.concat_cases hw with hw | ⟨rfl, rfl⟩
        · exact hswap w r hw howner
        · obtain ⟨call', resent', swap', hpc'⟩ := hmine howner
          cases hpc.symm.trans hpc'
          rfl
    | publish r | clear task | plan =>
        obtain ⟨m, r', hm, hget, howner⟩ := hswap
        exact ⟨m, r', hm, Pool.append hget _, howner⟩

end

section

variable {G : Configs} {id : Ctl → GoString} {s s' : ShardSystem Ctl}

theorem Standing.sends (hinv : ControllerInv G id s) {c : Ctl}
    (h : Standing (id c) s.stored (s.ctrlers c)) {version : ℕ} {state : ControllerState}
    {resent : Bool} {swap : Swap}
    (hm : Sends G (id c) s (s.ctrlers c) version state resent swap) (call : ℕ) :
    Standing (id c) s.stored
      { s.ctrlers c with pc := .put call version state resent swap } := by
  have hpcs := hinv.pcs c
  cases hm with
  | init cfg hpc =>
      refine .of_wait (fun _ => rfl) (fun st hst => ?_) rfl
      cases hinit : (s.ctrlers c).initialized with
      | true => simp [Swap.candidate, hinit] at hst
      | false =>
          have hout : (s.ctrlers c).outside = true := by simp [ShardCtrler.outside, hpc, hinit]
          exact fun r hr howner => absurd howner (h.outside hout r hr)
  | elect task st v hpc =>
      have hout : (s.ctrlers c).outside = true := by simp [ShardCtrler.outside, hpc]
      have hinit := h.initialized (by simp [hpc, Pc.early])
      refine .of_wait (by simp [hinit])
        (fun _ _ r hr howner => absurd howner (h.outside hout r hr)) ?_
      exact fun w r hw howner => absurd howner (h.outside hout r (List.mem_of_getElem? hw))
  | publish r i hpc =>
      rw [hpc] at hpcs
      have hinit := h.initialized (by simp [hpc, Pc.early])
      obtain ⟨m, hm, hget⟩ := hpcs.1.read
      exact .of_wait (by simp [hinit]) nofun ⟨m, r.state, hm, hget, hpcs.1.owner⟩
  | clear r i hpc =>
      rw [hpc] at hpcs
      have hinit := h.initialized (by simp [hpc, Pc.early])
      obtain ⟨m, hm, hget⟩ := hpcs.1.read
      exact .of_wait (by simp [hinit]) nofun ⟨m, r.state, hm, hget, hpcs.1.owner⟩
  | plan next st v hpc howned =>
      have hinit := h.initialized (by simp [hpc, Pc.early])
      obtain ⟨-, -, m, hm, hget⟩ := readState_eq_some howned.read
      exact .of_wait (by simp [hinit]) nofun ⟨m, st, hm, hget, howned.owner⟩
  | again call' v st resent' swap hpc =>
      refine .of_wait (fun hinit => ?_) (fun st hst => h.candidate st ?_) (h.waiting _ _ _ _ _ hpc)
      · have hearly := h.early hinit
        rw [hpc] at hearly
        exact hearly
      · simpa [ShardCtrler.candidate, hpc] using hst

/-- What a controller relies on that has sent its `Put` once: no other in its
name may still succeed, and the record by which it runs is stored by this one,
if at all. -/
structure Sole (id : GoString) (m : Metadata) (sck : ShardCtrler) : Prop where
  live : ∀ call version st swap, sck.pc = .put call version st false swap →
    ∀ (k : ℕ) st', m.puts[k]? = some (m.stored.length, st') → st'.owner = id → k = call
  stored : ∀ call version st swap, sck.pc = .put call version st false swap →
    ∀ st' ∈ sck.candidate, st' ∈ m.stored → (call, Err.ok) ∈ m.putReplies

theorem Sole.of_not_put {owner : GoString} {m : Metadata} {sck : ShardCtrler}
    (h : ∀ call version st swap, sck.pc ≠ .put call version st false swap) : Sole owner m sck :=
  ⟨fun _ _ _ _ hpc => absurd hpc (h _ _ _ _), fun _ _ _ _ hpc => absurd hpc (h _ _ _ _)⟩

/-- A `Put` is sent for the first time, or once more. -/
theorem Sole.sends (hid : Function.Injective id) (hinv : ControllerInv G id s) {c : Ctl}
    (h : Standing (id c) s.stored (s.ctrlers c)) {version : ℕ} {state : ControllerState}
    {resent : Bool} {swap : Swap}
    (hm : Sends G (id c) s (s.ctrlers c) version state resent swap) :
    Sole (id c) ⟨s.stored, s.puts ++ [(version, state)], s.putReplies⟩
      { s.ctrlers c with pc := .put s.puts.length version state resent swap } := by
  have howner := (hinv.sends hm).2.1
  -- a controller that waits sends nothing but further copies
  have hfirst : resent = false → ∀ call v st resent' swap',
      (s.ctrlers c).pc ≠ .put call v st resent' swap' := by
    rintro rfl call v st resent' swap' hpc
    cases hm with
    | init _ hpc' | elect _ _ _ hpc' | publish _ _ hpc' | clear _ _ hpc' | plan _ _ _ hpc' =>
        cases hpc'.symm.trans hpc
  have hcandidate : resent = false → swap.candidate (s.ctrlers c).initialized state ≠ none →
      (s.ctrlers c).outside = true := by
    rintro rfl hst
    cases hm with
    | init cfg hpc =>
        cases hinit : (s.ctrlers c).initialized with
        | true => simp [Swap.candidate, hinit] at hst
        | false => simp [ShardCtrler.outside, hpc, hinit]
    | elect task st v hpc => simp [ShardCtrler.outside, hpc]
    | publish r i hpc | clear r i hpc | plan next st v hpc => exact absurd rfl hst
  constructor
  · rintro _ _ _ _ ⟨⟩ k st' hk howner'
    rcases Pool.concat_cases hk with hk | ⟨rfl, -⟩
    · obtain ⟨c', call, resent', swap', howner'', hpc⟩ := hinv.live k st' hk
      obtain rfl := hid (howner'.symm.trans howner'')
      exact absurd hpc (hfirst rfl _ _ _ _ _)
    · rfl
  · rintro _ _ _ _ ⟨⟩ st' hst' hmem
    have hout := hcandidate rfl (Option.ne_none_iff_exists'.mpr ⟨st', hst'⟩)
    rw [Swap.candidate_eq hst'] at hmem
    exact absurd howner (h.outside hout state hmem)

theorem Sole.append {owner : GoString} {m : Metadata} {sck : ShardCtrler} (h : Sole owner m sck)
    (version : ℕ) {state : ControllerState} (hne : state.owner ≠ owner) :
    Sole owner ⟨m.stored, m.puts ++ [(version, state)], m.putReplies⟩ sck where
  live call v st swap' hpc k st' hk howner := by
    rcases Pool.concat_cases hk with hk | ⟨-, heq⟩
    · exact h.live call v st swap' hpc k st' hk howner
    · obtain ⟨-, rfl⟩ := Prod.mk.inj heq
      exact absurd howner hne
  stored := h.stored

theorem Sole.executePut {owner : GoString} {sck : ShardCtrler} (h : Sole owner s.metadata sck)
    (hinv : ControllerInv G id s) (hpcs : PcInv G owner s.puts s.stored sck.pc) {k version : ℕ}
    {state : ControllerState} (hk : s.puts[k]? = some (version, state)) :
    Sole owner ⟨(putState s.stored version state).1, s.puts,
      s.putReplies ++ [(k, (putState s.stored version state).2)]⟩ sck := by
  rcases putState_cases state (hinv.puts k version state hk).le with ⟨rfl, heq⟩ | ⟨-, heq⟩
  · rw [heq]
    constructor
    · intro call v st swap hpc k' st' hk'
      -- what names a version to come has not been sent
      have hle := (hinv.puts k' _ st' hk').le
      simp at hle
    · intro call v st swap hpc st' hst' hmem
      rcases List.mem_append.mp hmem with hmem | hmem
      · exact List.mem_append_left _ (h.stored call v st swap hpc st' hst' hmem)
      · obtain rfl := List.mem_singleton.mp hmem
        have hst : st' = st := by
          simp only [ShardCtrler.candidate, hpc] at hst'
          exact Swap.candidate_eq hst'
        rw [hpc] at hpcs
        obtain rfl := h.live call v st swap hpc k st' hk (hst ▸ hpcs.2.1)
        exact List.mem_append_right _ (List.mem_singleton_self _)
  · rw [heq]
    exact ⟨h.live, fun call v st swap hpc st' hst' hmem =>
      List.mem_append_left _ (h.stored call v st swap hpc st' hst' hmem)⟩

variable [DecidableEq Ctl]

/-- No owner comes back. -/
structure LeaderInv (id : Ctl → GoString) (s : ShardSystem Ctl) : Prop where
  standing : ∀ c, Standing (id c) s.stored (s.ctrlers c)
  sole : ∀ c, Sole (id c) s.metadata (s.ctrlers c)
  once : ∀ owner, ¬ Regained s.stored owner

theorem ShardSystem.eq_of_setCtrler_ne {c c' : Ctl} {sck : ShardCtrler}
    (h : (s.setCtrler c' sck).ctrlers c ≠ s.ctrlers c) : c' = c := by
  by_contra hne
  exact h (Function.update_of_ne (Ne.symm hne) _ _)

/-- A controller that reads back is told so by its own step. -/
theorem ShardSystem.run_of_confirm {a : ShardAction Ctl} (hs : s.step id a = some s') {c : Ctl}
    {state : ControllerState} {swap : Swap} {result : Bool}
    (hpc : (s.ctrlers c).pc = .confirm state swap) (hret : s.swapResult a = some (c, result)) :
    a = .run c := by
  cases a with
  | run c' =>
      simp only [ShardSystem.swapResult] at hret
      split at hret
      · rw [(Prod.mk.inj (Option.some.inj hret)).1]
      · cases hret
  | putReply c' k =>
      obtain ⟨call, err, version, state', resent, swap', hk, hpc', -⟩ := ShardSystem.of_putReply hs
      simp only [ShardSystem.swapResult, hk, hpc', Option.bind_eq_bind, Option.bind_some] at hret
      split at hret <;> cases hret <;> cases hpc'.symm.trans hpc
  | _ => cases hret

/-- A controller whose record is stored gives it up only where it reads back that
another has been stored since. -/
theorem LeaderInv.overtaken (hinv : ControllerInv .any id s) (h : LeaderInv id s)
    {a : ShardAction Ctl} (hs : (shardSys .any id).step s a s') {c : Ctl} {st : ControllerState}
    (hst : (s.ctrlers c).candidate = some st) (hmem : st ∈ s.stored)
    (hout : (s'.ctrlers c).outside = true) : a = .run c ∧ Overtaken s c := by
  have hchanged : s'.ctrlers c ≠ s.ctrlers c := fun heq =>
    ShardCtrler.not_outside hst (heq ▸ hout)
  have hlead : ∀ {state swap}, swap.candidate (s.ctrlers c).initialized state = some st →
      ¬ ((s.setCtrler c ((s.ctrlers c).swapped state swap true)).ctrlers c).outside = true := by
    intro state swap hcandidate
    have hself : (s.setCtrler c ((s.ctrlers c).swapped state swap true)).ctrlers c =
        (s.ctrlers c).swapped state swap true := Function.update_self ..
    rw [hself]
    exact Swap.swapped_not_outside hcandidate
  have hswaps := ShardCtrler.swaps_of_candidate hst
  cases hret : s.swapResult a with
  | none =>
      exfalso
      cases SwapGoes.of_step hs hret with
      | move c' sck hpc =>
          obtain rfl := ShardSystem.eq_of_setCtrler_ne hchanged
          rw [hswaps] at hpc
          cases hpc
      | errMaybe c' k call version state swap hpc =>
          obtain rfl := ShardSystem.eq_of_setCtrler_ne hchanged
          simp [ShardSystem.setPc, ShardSystem.setCtrler, ShardCtrler.outside] at hout
      | sendPut c' version state resent swap =>
          obtain rfl := ShardSystem.eq_of_setCtrler_ne hchanged
          simp [ShardSystem.sendPut, ShardSystem.setPc, ShardSystem.setCtrler,
            ShardCtrler.outside] at hout
      | send c' r i job hpc =>
          obtain rfl := ShardSystem.eq_of_setCtrler_ne hchanged
          rw [hpc] at hswaps
          cases hswaps
      | executePut k version state hk => exact hchanged rfl
      | groups groups replies => exact hchanged rfl
  | some out =>
      obtain ⟨c', result⟩ := out
      have hends := SwapEnds.of_step hs.2 hret
      cases hends with
      | ok k call version state resent swap hpc =>
          obtain rfl := ShardSystem.eq_of_setCtrler_ne hchanged
          simp only [ShardCtrler.candidate, hpc] at hst
          exact absurd hout (hlead hst)
      | errVersion k call version state swap hpc hreply =>
          obtain rfl := ShardSystem.eq_of_setCtrler_ne hchanged
          -- the only copy would have been answered twice
          have hok := (h.sole c').stored call version state swap hpc st hst hmem
          cases List.inj_on_of_nodup_map hinv.once hok (List.mem_of_getElem? hreply) rfl
      | errNoKey k call version state resent swap hpc hreply =>
          rcases hinv.answers _ _ (List.mem_of_getElem? hreply) with heq | heq <;> cases heq
      | read state swap result hpc hresult =>
          obtain rfl := ShardSystem.eq_of_setCtrler_ne hchanged
          simp only [ShardCtrler.candidate, hpc] at hst
          cases result with
          | true => exact absurd hout (hlead hst)
          | false =>
              obtain rfl := Swap.candidate_eq hst
              rw [map_fst_readState] at hresult
              refine ⟨ShardSystem.run_of_confirm hs.2 hpc hret, st, ?_, hmem, of_decide_eq_false hresult.symm⟩
              simpa only [ShardCtrler.candidate, hpc, Option.mem_def] using hst

theorem LeaderInv.setCtrler (h : LeaderInv id s) {c : Ctl} {sck : ShardCtrler}
    (hsck : Standing (id c) s.stored sck) (hsole : Sole (id c) s.metadata sck) :
    LeaderInv id (s.setCtrler c sck) := by
  refine ⟨fun c' => ?_, fun c' => ?_, h.once⟩
  · change Standing (id c') s.stored (Function.update s.ctrlers c sck c')
    rcases eq_or_ne c' c with rfl | hne
    · rw [Function.update_self]
      exact hsck
    · rw [Function.update_of_ne hne]
      exact h.standing c'
  · change Sole (id c') s.metadata (Function.update s.ctrlers c sck c')
    rcases eq_or_ne c' c with rfl | hne
    · rw [Function.update_self]
      exact hsole
    · rw [Function.update_of_ne hne]
      exact h.sole c'

omit [DecidableEq Ctl] in
/-- The record that a controller waits for does not bring it back. -/
theorem LeaderInv.not_regained (h : LeaderInv id s) {c : Ctl} {call : ℕ} {st : ControllerState}
    {resent : Bool} {swap : Swap}
    (hpc : (s.ctrlers c).pc = .put call s.stored.length st resent swap) (howner : st.owner = id c)
    (owner : GoString) : ¬ Regained (s.stored ++ [st]) owner := by
  rintro ⟨u, v, w, x, y, z, huv, hvw, hx, hy, hz, hxo, hyo, hzo⟩
  have hlt : v < s.stored.length := by
    have hw := (List.getElem?_eq_some_iff.mp hz).1
    simp only [List.length_append, List.length_singleton] at hw
    omega
  rw [List.getElem?_append_left (by omega)] at hx
  rw [List.getElem?_append_left hlt] at hy
  rcases Pool.concat_cases hz with hz | ⟨rfl, rfl⟩
  · exact h.once owner ⟨u, v, w, x, y, z, huv, hvw, hx, hy, hz, hxo, hyo, hzo⟩
  · subst hzo
    have hswap := (h.standing c).waiting _ _ _ _ _ hpc
    have howns : ∀ m r, s.stored.length = m + 1 → s.stored[m]? = some r →
        r.owner = id c → False := by
      -- the record before it is the controller's own, and it was lost before that
      intro m r hm hr hr'
      rcases (show v ≤ m by omega).eq_or_lt with rfl | hvm
      · cases hy.symm.trans hr
        exact hyo (hr'.trans howner.symm)
      · exact h.once z.owner ⟨u, v, m, x, y, r, huv, hvm, hx, hy, hr, hxo, hyo,
          hr'.trans howner.symm⟩
    cases swap with
    | init =>
        have hzero : s.stored.length = 0 := hswap
        omega
    | elect task => exact absurd (hswap u x hx (hxo.trans howner)) (by omega)
    | publish r | clear task | plan =>
        obtain ⟨m, r', hm, hget, hr'⟩ := hswap
        exact howns m r' hm hget hr'

theorem LeaderInv.sendPut (hid : Function.Injective id) (hinv : ControllerInv G id s)
    (h : LeaderInv id s) {c : Ctl} {version : ℕ} {state : ControllerState} {resent : Bool}
    {swap : Swap} (hm : Sends G (id c) s (s.ctrlers c) version state resent swap) :
    LeaderInv id (s.sendPut c version state resent swap) := by
  have howner := (hinv.sends hm).2.1
  refine ⟨fun c' => ?_, fun c' => ?_, h.once⟩
  · change Standing (id c') s.stored (Function.update s.ctrlers c _ c')
    rcases eq_or_ne c' c with rfl | hne
    · rw [Function.update_self]
      exact (h.standing c').sends hinv hm s.puts.length
    · rw [Function.update_of_ne hne]
      exact h.standing c'
  · change Sole (id c') ⟨s.stored, s.puts ++ [(version, state)], s.putReplies⟩
      (Function.update s.ctrlers c _ c')
    rcases eq_or_ne c' c with rfl | hne
    · rw [Function.update_self]
      exact Sole.sends hid hinv (h.standing c') hm
    · rw [Function.update_of_ne hne]
      exact (h.sole c').append version fun heq => hne (hid (heq.symm.trans howner))

theorem LeaderInv.step (hid : Function.Injective id) (hinv : ControllerInv .any id s)
    (h : LeaderInv id s) {a : ShardAction Ctl} (hs : (shardSys .any id).step s a s')
    (hseen : ∀ c, a = .run c → ¬ Overtaken s c) : LeaderInv id s' := by
  cases ShardStep.of_step hs with
  | move c sck hm =>
      refine h.setCtrler ((h.standing c).moves hm fun hout st hst hmem => ?_)
        (.of_not_put fun _ _ _ _ hpc => ?_)
      · have hself : (s.setCtrler c sck).ctrlers c = sck := Function.update_self ..
        obtain ⟨heq, hovertaken⟩ := h.overtaken hinv hs hst hmem (hself.symm ▸ hout)
        exact hseen c heq hovertaken
      · have hwaits := hm.not_waits
        rw [hpc] at hwaits
        cases hwaits
  | sendPut c version state resent swap hm => exact h.sendPut hid hinv hm
  | send c r i job hpc =>
      have hinit := (h.standing c).initialized (by simp [hpc, Pc.early])
      have hcall : LeaderInv id (s.setPc c (s.ctrlers c) (.call r i job s.sent.length)) :=
        h.setCtrler (.of_initialized hinit (by simp)) (.of_not_put (by simp))
      exact ⟨hcall.standing, hcall.sole, hcall.once⟩
  | executePut k version state hk =>
      have hafter := hinv.puts k version state hk
      have hsole := fun c => (h.sole c).executePut hinv (hinv.pcs c) hk
      rcases putState_cases state hafter.le with ⟨rfl, heq⟩ | ⟨-, heq⟩
      · rw [heq] at hsole ⊢
        obtain ⟨c, call, resent, swap, howner, hpc⟩ := hinv.live k state hk
        refine ⟨fun c' => (h.standing c').append fun howner' => ?_, hsole,
          h.not_regained hpc howner⟩
        obtain rfl := hid (howner.symm.trans howner')
        exact ⟨call, resent, swap, hpc⟩
      · rw [heq] at hsole ⊢
        exact ⟨h.standing, hsole, h.once⟩
  | execute k gid req kv reply => exact ⟨h.standing, h.sole, h.once⟩
  | client gid req kv reply => exact ⟨h.standing, h.sole, h.once⟩

omit [DecidableEq Ctl] in
theorem LeaderInv.init (id : Ctl → GoString) : LeaderInv id (ShardSystem.init Ctl) := by
  refine ⟨fun c => .of_nobody (fun _ => trivial) (by simp [ShardSystem.init, ShardCtrler.make]) ?_,
    fun c => .of_not_put (by simp [ShardSystem.init, ShardCtrler.make]), ?_⟩
  · simp [ShardSystem.init]
  · rintro owner ⟨u, v, w, x, y, z, -, -, hx, -⟩
    simp [ShardSystem.init] at hx

end

variable [DecidableEq Ctl]

end RaftShardedKv
