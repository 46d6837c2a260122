import RaftShardedKv.Raft.Progress
import RaftShardedKv.Rsm.Wakeups

/-!
A call of `SubmitWithTimeout` at a live majority can always succeed.

The servers elect a leader and bring the operation of the call to its
place in the log as in `Raft.Progress`. The applier of the leader then
works through the messages before it. It never panics on one, it takes
snapshots when it likes to, and in the end it has woken the call.
-/

namespace RaftShardedKv

open Transition

variable {n : ℕ} {σ Req Rep : Type}

/-- What the servers of `Q` and their services do without anybody else,
when `shouldSnapshot` decides whether a service takes a snapshot. No call
is made, and none gives up. -/
def RsmAction.Among (shouldSnapshot : RsmSystem n σ Req Rep → Fin n → Bool)
    (Q : Finset (Fin n)) (s : RsmSystem n σ Req Rep) : RsmAction n Req → Prop
  | .raft a => a.Among Q s.raft
  | .receive i => i ∈ Q
  | .execute i => i ∈ Q
  | .compact i b => i ∈ Q ∧ b = shouldSnapshot s i
  | .notify i => i ∈ Q
  | .start id => id.server ∈ Q
  | .result id => id.server ∈ Q
  | .removeWaiter id => id.server ∈ Q
  | _ => False

variable [Labgob (Op n Req)]

/-- The cluster where only the servers of `Q` and their services act. -/
def attendSys (sm : StateMachine σ Req Rep)
    (shouldSnapshot : RsmSystem n σ Req Rep → Fin n → Bool) (Q : Finset (Fin n)) :
    Sys (RsmSystem n σ Req Rep) (RsmAction n Req) where
  init s := ∃ epoch, s = RsmSystem.init sm epoch
  step s a s' := a.Among shouldSnapshot Q s ∧ s.step sm a = some s'

section

variable {sm : StateMachine σ Req Rep} {shouldSnapshot : RsmSystem n σ Req Rep → Fin n → Bool}
  {Q : Finset (Fin n)} {s s' : RsmSystem n σ Req Rep} {epoch : Fin n → ℕ} {i q : Fin n}

omit [Labgob (Op n Req)] in
theorem Action.Among.internal {raft : System n (Op n Req)} {a : Action n (Op n Req)}
    (ha : a.Among Q raft) : a.internal = true := by
  cases a <;> first | rfl | exact ha.elim

theorem attend_raft (hs : (rsmSys sm epoch).Reachable s) {P : System n (Op n Req) → Prop}
    (h : (amongSys (Op n Req) Q).Can s.raft P) :
    (attendSys sm shouldSnapshot Q).Can s fun s' => (rsmSys sm epoch).Reachable s' ∧
      ∃ raft, s' = { s with raft := raft } ∧ P raft := by
  obtain ⟨raft, hstar, hP⟩ := h
  refine Sys.Can.reachable (fun _ _ _ hstep => hstep.2) hs
    ⟨{ s with raft := raft }, ?_, raft, rfl, hP⟩
  clear hP
  induction hstar with
  | refl => exact .refl
  | tail _ hnext ih =>
      obtain ⟨a, ha, hstep⟩ := hnext
      refine ih.tail ⟨.raft a, ha, ?_⟩
      simp only [RsmSystem.step, ha.internal, if_true, hstep, Option.bind_eq_bind,
        Option.bind_some]

/-! ### The applier -/

/-- The calls are as they were, but that some have been woken. -/
structure Kept (s s' : RsmSystem n σ Req Rep) : Prop where
  epoch : ∀ j, (s'.rsms j).epoch = (s.rsms j).epoch
  submission : ∀ id sub, s.submissions id = some sub →
    ∃ waiter, s'.submissions id = some { sub with waiter := waiter }

section

omit [Labgob (Op n Req)]

theorem Kept.refl (s : RsmSystem n σ Req Rep) : Kept s s :=
  ⟨fun _ => rfl, fun _ sub h => ⟨sub.waiter, h⟩⟩

theorem Kept.trans {s₁ s₂ s₃ : RsmSystem n σ Req Rep} (h : Kept s₁ s₂) (h' : Kept s₂ s₃) :
    Kept s₁ s₃ where
  epoch j := (h'.epoch j).trans (h.epoch j)
  submission id sub hsub := by
    obtain ⟨waiter, hsub₂⟩ := h.submission id sub hsub
    obtain ⟨waiter', hsub₃⟩ := h'.submission id _ hsub₂
    exact ⟨waiter', hsub₃⟩

theorem Kept.setRsm (rsm : Rsm n σ Req Rep) (hepoch : rsm.epoch = (s.rsms i).epoch) :
    Kept s (s.setRsm i rsm) where
  epoch j := by
    rcases eq_or_ne j i with rfl | hj
    · simpa [RsmSystem.setRsm] using hepoch
    · simp [RsmSystem.setRsm, hj]
  submission _ sub h := ⟨sub.waiter, h⟩

theorem Kept.withRaft (h : Kept s s') (raft : System n (Op n Req)) :
    Kept s { s' with raft := raft } := ⟨h.epoch, h.submission⟩

end

/-- The service of server `i` has gone on with the message it is at work
on. -/
structure Works (i : Fin n) (s s' : RsmSystem n σ Req Rep) : Prop extends Kept s s' where
  applies : Applies i s.raft s'.raft
  lastApplied : (s'.raft.rf i).lastApplied = (s.raft.rf i).lastApplied
  pending : (s'.raft.rf i).pendingSnapshot = (s.raft.rf i).pendingSnapshot
  applying : (s'.raft.procs i).applying = (s.raft.procs i).applying

section

omit [Labgob (Op n Req)]

theorem Works.of_raft_eq (h : Kept s s') (hraft : s'.raft = s.raft) : Works i s s' where
  toKept := h
  applies := hraft ▸ .refl i _
  lastApplied := by rw [hraft]
  pending := by rw [hraft]
  applying := by rw [hraft]

theorem Works.trans {s₁ s₂ s₃ : RsmSystem n σ Req Rep} (h : Works i s₁ s₂) (h' : Works i s₂ s₃) :
    Works i s₁ s₃ where
  toKept := h.toKept.trans h'.toKept
  applies := h.applies.trans h'.applies
  lastApplied := h'.lastApplied.trans h.lastApplied
  pending := h'.pending.trans h.pending
  applying := h'.applying.trans h.applying

theorem Works.drained {s₁ : RsmSystem n σ Req Rep} (h : Works i s s₁)
    (h' : Drained i s₁.raft s'.raft) : Drained i s.raft s'.raft where
  toApplies := h.applies.trans h'.toApplies
  lastApplied := h'.lastApplied.trans h.lastApplied
  pending := h'.pending.trans h.pending
  idle := h'.idle
  sent m hm := by
    rw [← h.applies.incarnation]
    exact h'.sent m (h.applying ▸ hm)

end

variable (sm) in
theorem notify_some {id : OpID n} {reply : Rep}
    (hpc : (s.rsms i).applier = .notifying id reply) :
    ∃ s', s.step sm (.notify i) = some s' ∧ Works i s s' ∧ (s'.rsms i).applier = .idle := by
  have hpass : Works i s (s.setRsm i { s.rsms i with applier := .idle }) :=
    .of_raft_eq (.setRsm { s.rsms i with applier := .idle } rfl) rfl
  have hidle : ((s.setRsm i { s.rsms i with applier := .idle }).rsms i).applier = .idle := by
    simp [RsmSystem.setRsm]
  simp only [RsmSystem.step, hpc]
  split
  · split
    · rename_i sub hsub
      split
      · refine ⟨_, rfl,
          hpass.trans (.of_raft_eq ⟨fun _ => rfl, fun id' sub' hsub' => ?_⟩ rfl), hidle⟩
        rcases eq_or_ne id' id with rfl | hne
        · obtain rfl : sub = sub' := Option.some.inj (hsub.symm.trans hsub')
          exact ⟨some reply, by simp [RsmSystem.setSubmission]⟩
        · refine ⟨sub'.waiter, ?_⟩
          dsimp only [RsmSystem.setSubmission]
          rw [Function.update_of_ne hne]
          exact hsub'
      · exact ⟨_, rfl, hpass, hidle⟩
    · exact ⟨_, rfl, hpass, hidle⟩
  · exact ⟨_, rfl, hpass, hidle⟩

/-- The service hands a snapshot to its server. -/
theorem snapshot_some {raft : System n (Op n Req)} (hraft : (raftSys n (Op n Req)).Reachable raft)
    (i : Fin n) (index : ℕ) (data : Bytes) :
    ∃ raft', raft.step (.snapshot i index data) = some raft' ∧ Applies i raft raft' ∧
      (raft'.rf i).lastApplied = (raft.rf i).lastApplied ∧
      (raft'.rf i).pendingSnapshot = (raft.rf i).pendingSnapshot ∧
      (raft'.procs i).applying = (raft.procs i).applying := by
  obtain ⟨rf, hrun, hcases⟩ := (holds_entries hraft i).takeSnapshot index data
  have hsame : rf.dead = (raft.rf i).dead ∧ rf.commitIndex = (raft.rf i).commitIndex ∧
      rf.lastApplied = (raft.rf i).lastApplied ∧
      rf.pendingSnapshot = (raft.rf i).pendingSnapshot := by
    rcases hcases with rfl | ⟨-, -, -, -, rfl⟩
    · exact ⟨rfl, rfl, rfl, rfl⟩
    · exact ⟨rfl, rfl, rfl, rfl⟩
  obtain ⟨hdead, hcommit, hlast, hpending⟩ := hsame
  obtain ⟨raft', hstep, hprocs, happlied⟩ : ∃ raft',
      raft.step (.snapshot i index data) = some raft' ∧
      raft'.procs = Function.update raft.procs i { raft.procs i with rf := rf } ∧
      raft'.applied = raft.applied := by
    simp only [System.step, hrun, Option.bind_eq_bind, Option.bind_some]
    split
    · exact ⟨_, rfl, rfl, rfl⟩
    · exact ⟨_, rfl, rfl, rfl⟩
  have hself : raft'.procs i = { raft.procs i with rf := rf } := by
    rw [hprocs, Function.update_self]
  have hrf : raft'.rf i = rf := by rw [System.rf, hself]
  refine ⟨raft', hstep, ⟨fun j hj => by rw [hprocs, Function.update_of_ne hj], ?_, ?_, ?_, ?_,
    committed_step hraft hstep⟩, ?_, ?_, ?_⟩
  · rw [hrf, hdead]
  · rw [hrf, hcommit]
  · rw [hself]
  · rw [happlied]
  · rw [hrf, hlast]
  · rw [hrf, hpending]
  · rw [hself]

variable (sm) in
theorem compact_some {index : ℕ} {id : OpID n} {reply : Rep}
    (hpc : (s.rsms i).applier = .executed index id reply)
    (hraft : (raftSys n (Op n Req)).Reachable s.raft) (b : Bool) :
    ∃ s', s.step sm (.compact i b) = some s' ∧ Works i s s' ∧
      (s'.rsms i).applier = .notifying id reply := by
  have hstep : ∀ raft, (if b then s.raft.step (.snapshot i index (sm.snapshot (s.rsms i).state))
      else some s.raft) = some raft → s.step sm (.compact i b) = some
        { s.setRsm i { s.rsms i with applier := .notifying id reply } with raft := raft } := by
    intro raft hr
    simp only [RsmSystem.step, hpc, hr, Option.bind_eq_bind, Option.bind_some]
  have hkept : Kept s (s.setRsm i { s.rsms i with applier := .notifying id reply }) :=
    .setRsm { s.rsms i with applier := .notifying id reply } rfl
  have hnext : ((s.setRsm i { s.rsms i with applier := .notifying id reply }).rsms i).applier =
      .notifying id reply := by
    simp [RsmSystem.setRsm]
  cases b with
  | false => exact ⟨_, hstep s.raft rfl, .of_raft_eq (hkept.withRaft _) rfl, hnext⟩
  | true =>
      obtain ⟨raft, hr, happlies, hlast, hpending, happlying⟩ :=
        snapshot_some hraft i index (sm.snapshot (s.rsms i).state)
      exact ⟨_, hstep raft hr, ⟨hkept.withRaft _, happlies, hlast, hpending, happlying⟩, hnext⟩

/-- The applier executes what it has received, which is an operation or a
snapshot. -/
theorem execute_some {m : ApplyMsg (Op n Req)} (hpc : (s.rsms i).applier = .received m)
    (hinv : ReplicaInv sm s) :
    ∃ s', s.step sm (.execute i) = some s' ∧ Works i s s' ∧ ((s'.rsms i).applier = .idle ∨
      ∃ index id reply, (s'.rsms i).applier = .executed index id reply) := by
  obtain ⟨rsm, hrun, hepoch, hnext⟩ : ∃ rsm, (s.rsms i).execute sm = some rsm ∧
      rsm.epoch = (s.rsms i).epoch ∧
      (rsm.applier = .idle ∨ ∃ index id reply, rsm.applier = .executed index id reply) := by
    have happlier := (hinv.replica i).applier
    rw [hpc] at happlier
    cases m with
    | command c index =>
        obtain ⟨-, -, op, rfl, -⟩ := happlier
        simp only [Rsm.execute, hpc]
        exact ⟨_, rfl, rfl, Or.inr ⟨_, _, _, rfl⟩⟩
    | snapshot m =>
        simp only [Rsm.execute, hpc]
        exact ⟨_, rfl, rfl, Or.inl rfl⟩
  refine ⟨s.setRsm i rsm, ?_, .of_raft_eq (.setRsm rsm hepoch) rfl, ?_⟩
  · simp only [RsmSystem.step, hrun, Option.bind_eq_bind, Option.bind_some]
  · simpa [RsmSystem.setRsm] using hnext

/-- The applier finishes the message it is at work on. -/
theorem settle (hi : i ∈ Q) (hs : (rsmSys sm epoch).Reachable s) :
    (attendSys sm shouldSnapshot Q).Can s fun s' => (rsmSys sm epoch).Reachable s' ∧
      Works i s s' ∧ (s'.rsms i).applier = .idle := by
  have hnotifying : ∀ s₁, (rsmSys sm epoch).Reachable s₁ → Works i s s₁ →
      (∃ id reply, (s₁.rsms i).applier = .notifying id reply) →
      (attendSys sm shouldSnapshot Q).Can s₁ fun s' => (rsmSys sm epoch).Reachable s' ∧
        Works i s s' ∧ (s'.rsms i).applier = .idle := by
    rintro s₁ hs₁ hworks ⟨id, reply, hpc⟩
    obtain ⟨s₂, hstep, hworks₂, hidle⟩ := notify_some sm hpc
    exact .step (a := .notify i) ⟨hi, hstep⟩ (.now ⟨hs₁.step hstep, hworks.trans hworks₂, hidle⟩)
  have hexecuted : ∀ s₁, (rsmSys sm epoch).Reachable s₁ → Works i s s₁ →
      (∃ index id reply, (s₁.rsms i).applier = .executed index id reply) →
      (attendSys sm shouldSnapshot Q).Can s₁ fun s' => (rsmSys sm epoch).Reachable s' ∧
        Works i s s' ∧ (s'.rsms i).applier = .idle := by
    rintro s₁ hs₁ hworks ⟨index, id, reply, hpc⟩
    obtain ⟨s₂, hstep, hworks₂, hpc₂⟩ :=
      compact_some sm hpc (ReplicaInv.reachable hs₁).raft (shouldSnapshot s₁ i)
    exact .step (a := .compact i (shouldSnapshot s₁ i)) ⟨⟨hi, rfl⟩, hstep⟩
      (hnotifying s₂ (hs₁.step hstep) (hworks.trans hworks₂) ⟨id, reply, hpc₂⟩)
  have hrefl : Works i s s := .of_raft_eq (.refl s) rfl
  cases hpc : (s.rsms i).applier with
  | idle => exact .now ⟨hs, hrefl, hpc⟩
  | received m =>
      obtain ⟨s₁, hstep, hworks, hnext⟩ := execute_some hpc (ReplicaInv.reachable hs)
      refine .step (a := .execute i) ⟨hi, hstep⟩ ?_
      rcases hnext with hidle | hpc₁
      · exact .now ⟨hs.step hstep, hworks, hidle⟩
      · exact hexecuted s₁ (hs.step hstep) hworks hpc₁
  | executed index id reply => exact hexecuted s hs hrefl ⟨index, id, reply, hpc⟩
  | notifying id reply => exact hnotifying s hs hrefl ⟨id, reply, hpc⟩

theorem absorb (hi : i ∈ Q) (hs : (rsmSys sm epoch).Reachable s)
    (hidle : (s.rsms i).applier = .idle) :
    (attendSys sm shouldSnapshot Q).Can s fun s' => (rsmSys sm epoch).Reachable s' ∧
      Kept s s' ∧ (s'.rsms i).applier = .idle ∧ Drained i s.raft s'.raft := by
  induction happlying : (s.raft.procs i).applying generalizing s with
  | nil => exact .now ⟨hs, .refl s, hidle, .refl i _, rfl, rfl, happlying, by simp [happlying]⟩
  | cons m rest ih =>
      obtain ⟨raft, hr, hhanded⟩ := send happlying (ReplicaInv.reachable hs).raft
      set s₁ : RsmSystem n σ Req Rep :=
        { s.setRsm i { s.rsms i with applier := .received m } with raft := raft } with hs₁
      have hstep : s.step sm (.receive i) = some s₁ := by
        simp only [RsmSystem.step, hidle, happlying, List.head?_cons, hr, Option.bind_eq_bind,
          Option.bind_some, hs₁]
      have hkept : Kept s s₁ :=
        (Kept.setRsm { s.rsms i with applier := .received m } rfl).withRaft raft
      refine .step (a := .receive i) ⟨hi, hstep⟩ ?_
      refine (settle hi (hs.step hstep)).andThen fun s₂ hnext => ?_
      obtain ⟨hreach, hworks, hidle₂⟩ := hnext
      refine (ih hreach hidle₂ (hworks.applying.trans hhanded.rest)).mono fun s₃ hnext => ?_
      obtain ⟨hreach₃, hkept₃, hidle₃, hdrained⟩ := hnext
      exact ⟨hreach₃, (hkept.trans hworks.toKept).trans hkept₃, hidle₃,
        hhanded.drained happlying (hworks.drained hdrained)⟩

theorem attended_rsm (hi : i ∈ Q) (s₀ : RsmSystem n σ Req Rep) :
    Attended (attendSys sm shouldSnapshot Q) RsmSystem.raft
      (fun s => (rsmSys sm epoch).Reachable s ∧ Kept s₀ s ∧ (s.rsms i).applier = .idle) i where
  reachable _ h := (ReplicaInv.reachable h.1).raft
  claim s raft h hr := by
    have hstep : s.step sm (.raft (.claim i)) = some { s with raft := raft } := by
      simp only [RsmSystem.step, Action.internal, if_true, hr, Option.bind_eq_bind,
        Option.bind_some]
    exact .step (a := .raft (.claim i)) ⟨hi, hstep⟩
      (.now ⟨⟨h.1.step hstep, h.2.1.withRaft raft, h.2.2⟩, rfl⟩)
  drain s h := by
    refine (absorb hi h.1 h.2.2).mono fun s' hnext => ?_
    obtain ⟨hreach, hkept, hidle, hdrained⟩ := hnext
    exact ⟨⟨hreach, h.2.1.trans hkept, hidle⟩, hdrained⟩

/-! ### The call -/

/-- The service of server `i` gets to an operation that is due, and has
woken its call then. -/
theorem Due.answered {id : OpID n} {sub : Submission Req Rep} {N : ℕ}
    (h : Due id.server N ⟨id.server, id.epoch, id.sequence, sub.req⟩ s.raft)
    (hi : id.server ∈ Q) (hs : (rsmSys sm epoch).Reachable s)
    (hepoch : id.epoch = (s.rsms id.server).epoch) (hsub : s.submissions id = some sub)
    (hwaits : sub.waits = true) :
    (attendSys sm shouldSnapshot Q).Can s fun s' => (rsmSys sm epoch).Reachable s' ∧
      ∃ reply, s'.submissions id = some { sub with waiter := some reply } := by
  refine (settle hi hs).andThen fun s₁ hnext => ?_
  obtain ⟨hs₁, hworks, hidle⟩ := hnext
  have hdue := h.applies hworks.applies (ReplicaInv.reachable hs₁).raft hworks.lastApplied
  refine (hdue.deliver (attended_rsm hi s₁) ⟨hs₁, .refl s₁, hidle⟩).mono fun s₂ hnext => ?_
  obtain ⟨⟨hs₂, hkept, hidle₂⟩, happlies, hmem⟩ := hnext
  refine ⟨hs₂, ?_⟩
  have hkept₂ := hworks.toKept.trans hkept
  obtain ⟨waiter, hsub₂⟩ := hkept₂.submission id sub hsub
  have hsent : s₂.Sent ⟨id.server, id.epoch, id.sequence, sub.req⟩ N := by
    refine ⟨hepoch.trans (hkept₂.epoch id.server).symm, ?_⟩
    rw [happlies.incarnation]
    exact hmem
  rcases Woken.reachable hs₂ _ N hsent with hanswered | hbusy
  · obtain ⟨reply, hreply⟩ := Option.ne_none_iff_exists'.mp (hanswered _ hsub₂ hwaits)
    dsimp only at hreply
    exact ⟨reply, hreply ▸ hsub₂⟩
  · dsimp only at hbusy
    rw [hidle₂] at hbusy
    exact hbusy.elim

theorem answered_returns {id : OpID n} {sub : Submission Req Rep} {reply : Rep} {term : ℕ}
    (hi : id.server ∈ Q) (hsub : s.submissions id = some sub) (hphase : sub.phase = .waiting term)
    (hwaiter : sub.waiter = some reply) :
    (attendSys sm shouldSnapshot Q).Can s fun s' =>
      s' = s.setSubmission id { sub with phase := .returned (.ok reply), waits := false } := by
  have hresult : s.step sm (.result id) =
      some (s.setSubmission id { sub with phase := .finished (.ok reply) }) := by
    simp only [RsmSystem.step, hsub, hphase, hwaiter, Option.bind_eq_bind, Option.bind_some]
  have hremove : (s.setSubmission id { sub with phase := .finished (.ok reply) }).step sm
      (.removeWaiter id) =
        some (s.setSubmission id { sub with phase := .returned (.ok reply), waits := false }) := by
    simp only [RsmSystem.step, RsmSystem.setSubmission, Function.update_self, Option.bind_eq_bind,
      Option.bind_some, Function.update_idem]
  exact .step (a := .result id) ⟨hi, hresult⟩
    (.step (a := .removeWaiter id) ⟨hi, hremove⟩ (.now rfl))

/-- A call at the leader succeeds. -/
theorem Leads.submitted {id : OpID n} {sub : Submission Req Rep} (h : Leads Q id.server s.raft)
    (hi : id.server ∈ Q) (hQ : n / 2 + 1 ≤ Q.card) (hs : (rsmSys sm epoch).Reachable s)
    (hepoch : id.epoch = (s.rsms id.server).epoch) (hsub : s.submissions id = some sub)
    (hphase : sub.phase = .registered) (hwaits : sub.waits = true) :
    (attendSys sm shouldSnapshot Q).Can s fun s' =>
      ∃ reply, s'.submissions id = some ⟨sub.req, sub.timeout, .returned (.ok reply), false,
        some reply⟩ := by
  set op : Op n Req := ⟨id.server, id.epoch, id.sequence, sub.req⟩ with hop
  obtain ⟨raft, hr, -, hspreads⟩ := h.start hi hQ op
  set term := (s.raft.rf id.server).currentTerm with hterm
  set s₁ : RsmSystem n σ Req Rep :=
    { s.setSubmission id { sub with phase := .waiting term } with raft := raft } with hs₁
  have hstep : s.step sm (.start id) = some s₁ := by
    simp only [RsmSystem.step, hsub, hphase, hepoch, ne_eq, not_true_eq_false, if_false,
      Option.bind_eq_bind, Option.bind_some]
    rw [← hepoch, ← hop, h.accepts hi op, Option.bind_some, hr]
    rfl
  refine .step (a := .start id) ⟨hi, hstep⟩ ?_
  refine (attend_raft (hs.step hstep) (hspreads.commit hQ hi)).andThen fun s₂ h₂ => ?_
  obtain ⟨hreach₂, raft₂, rfl, hspreads₂, hknown⟩ := h₂
  have hsub₁ : s₁.submissions id = some { sub with phase := .waiting term } := by
    simp [hs₁, RsmSystem.setSubmission]
  have hdue := hspreads₂.due hi rfl hknown id.server hi
  refine (Due.answered hdue hi hreach₂ hepoch hsub₁ hwaits).andThen fun s₃ h₃ => ?_
  obtain ⟨-, reply, hsub₃⟩ := h₃
  refine (answered_returns hi hsub₃ rfl rfl).mono fun s₄ h₄ => ⟨reply, ?_⟩
  rw [h₄]
  simp [RsmSystem.setSubmission]

/-- As in `attendSys`, but a call may come to its deadline. -/
def awaitSys (sm : StateMachine σ Req Rep)
    (shouldSnapshot : RsmSystem n σ Req Rep → Fin n → Bool) (Q : Finset (Fin n)) :
    Sys (RsmSystem n σ Req Rep) (RsmAction n Req) where
  init s := ∃ epoch, s = RsmSystem.init sm epoch
  step s a s' := (a.Among shouldSnapshot Q s ∨ ∃ id : OpID n, id.server ∈ Q ∧
    a = .giveUp id .deadline) ∧ s.step sm a = some s'

theorem attend_await {P : RsmSystem n σ Req Rep → Prop}
    (h : (attendSys sm shouldSnapshot Q).Can s P) : (awaitSys sm shouldSnapshot Q).Can s P := by
  refine h.wider fun _ _ _ hstep => ?_
  exact ⟨Or.inl hstep.1, hstep.2⟩

/-- A call at another server than the leader fails. That server may take
itself for a leader still, and then the call waits for its deadline. -/
theorem Leads.refused {id : OpID n} {sub : Submission Req Rep} (h : Leads Q q s.raft)
    (hi : id.server ∈ Q) (hne : id.server ≠ q) (hepoch : id.epoch = (s.rsms id.server).epoch)
    (hsub : s.submissions id = some sub) (hphase : sub.phase = .registered)
    (htimeout : sub.timeout = true) (hwaiter : sub.waiter = none) :
    (awaitSys sm shouldSnapshot Q).Can s fun s' => Leads Q q s'.raft ∧
      s'.submissions id = some { sub with phase := .returned .errWrongLeader, waits := false } := by
  set op : Op n Req := ⟨id.server, id.epoch, id.sequence, sub.req⟩ with hop
  obtain ⟨raft, ⟨_, _, term, ok⟩, hstart, hr, hleads⟩ := h.start_other hne op
  set s₁ : RsmSystem n σ Req Rep := { s.setSubmission id { sub with
    phase := if ok then .waiting term else .finished .errWrongLeader } with raft := raft } with hs₁
  have hstep : s.step sm (.start id) = some s₁ := by
    simp only [RsmSystem.step, hsub, hphase, hepoch, ne_eq, not_true_eq_false, if_false,
      Option.bind_eq_bind, Option.bind_some]
    rw [← hepoch, ← hop, hstart, Option.bind_some, hr]
    rfl
  have hremove : ∀ s₂ : RsmSystem n σ Req Rep, s₂.raft = raft →
      s₂.submissions id = some { sub with phase := .finished .errWrongLeader } →
      (awaitSys sm shouldSnapshot Q).Can s₂ fun s' => Leads Q q s'.raft ∧ s'.submissions id =
        some { sub with phase := .returned .errWrongLeader, waits := false } := by
    intro s₂ hraft₂ hsub₂
    have hstep₂ : s₂.step sm (.removeWaiter id) = some (s₂.setSubmission id
        { sub with phase := .returned .errWrongLeader, waits := false }) := by
      simp only [RsmSystem.step, hsub₂, Option.bind_eq_bind, Option.bind_some]
    refine .step (a := .removeWaiter id) ⟨Or.inl hi, hstep₂⟩ (.now ⟨?_, ?_⟩)
    · rw [RsmSystem.setSubmission, hraft₂]
      exact hleads
    · simp [RsmSystem.setSubmission]
  refine .step (a := .start id) ⟨Or.inl hi, hstep⟩ ?_
  cases ok with
  | false => exact hremove s₁ rfl (by simp [hs₁, RsmSystem.setSubmission])
  | true =>
      have hsub₁ : s₁.submissions id = some { sub with phase := .waiting term } := by
        simp [hs₁, RsmSystem.setSubmission]
      have hstep₁ : s₁.step sm (.giveUp id .deadline) = some (s₁.setSubmission id
          { sub with phase := .finished .errWrongLeader }) := by
        simp [RsmSystem.step, hsub₁, RsmSystem.mayGiveUp, htimeout, hwaiter]
      exact .step (a := .giveUp id .deadline) ⟨Or.inr ⟨id, hi, rfl⟩, hstep₁⟩
        (hremove _ rfl (by simp [RsmSystem.setSubmission]))

/-- **A call can always succeed.** From every reachable state, the servers of
any majority that runs can get to where a call of `SubmitWithTimeout` that
is then made to one of them returns with a reply, without help of the
others, without a crash and without losing a message, and whenever their
services decide to take snapshots. -/
theorem submit_progress (hs : (rsmSys sm epoch).Reachable s) (hQ : n / 2 + 1 ≤ Q.card)
    (hlive : ∀ i ∈ Q, (s.raft.rf i).dead = false)
    (shouldSnapshot : RsmSystem n σ Req Rep → Fin n → Bool) (req : Req) (timeout : Bool) :
    ∃ q ∈ Q, ∃ s₁ s₂ s₃ sequence reply, (attendSys sm shouldSnapshot Q).Star s s₁ ∧
      s₁.step sm (.submit q req timeout) = some s₂ ∧
      s₁.submissions ⟨q, (s.rsms q).epoch, sequence⟩ = none ∧
      (attendSys sm shouldSnapshot Q).Star s₂ s₃ ∧
      s₃.submissions ⟨q, (s.rsms q).epoch, sequence⟩ =
        some ⟨req, timeout, .returned (.ok reply), false, some reply⟩ := by
  have halive : Alive Q s.raft := ⟨(ReplicaInv.reachable hs).raft, hlive⟩
  have helect : (attendSys sm shouldSnapshot Q).Can s fun s' => (rsmSys sm epoch).Reachable s' ∧
      ∃ raft, s' = { s with raft := raft } ∧ ∃ q ∈ Q, Leads Q q raft :=
    attend_raft hs (halive.elect hQ)
  obtain ⟨_, hstar₁, hs₁, raft, rfl, q, hq, hleads⟩ := helect
  set id : OpID n := ⟨q, (s.rsms q).epoch, (s.rsms q).nextSequence + 1⟩ with hid
  set s₂ : RsmSystem n σ Req Rep := ({ s with raft := raft }.setRsm q { s.rsms q with
    nextSequence := (s.rsms q).nextSequence + 1 }).setSubmission id
      ⟨req, timeout, .registered, true, none⟩ with hs₂
  have hstep : ({ s with raft := raft } : RsmSystem n σ Req Rep).step sm (.submit q req timeout) =
      some s₂ := rfl
  have hepoch : id.epoch = (s₂.rsms id.server).epoch := by
    simp [hs₂, hid, RsmSystem.setSubmission, RsmSystem.setRsm]
  have hsub : s₂.submissions id = some ⟨req, timeout, .registered, true, none⟩ := by
    simp [hs₂, RsmSystem.setSubmission]
  have hreturns : (attendSys sm shouldSnapshot Q).Can s₂ fun s' => ∃ reply, s'.submissions id =
      some ⟨req, timeout, .returned (.ok reply), false, some reply⟩ :=
    Leads.submitted hleads hq hQ (hs₁.step hstep) hepoch hsub rfl rfl
  obtain ⟨s₃, hstar₃, reply, hsub₃⟩ := hreturns
  exact ⟨q, hq, _, s₂, s₃, _, reply, hstar₁, hstep, (SubmitInv.reachable hs₁).fresh q, hstar₃,
    hsub₃⟩

end

/-- Three servers; server 0 leads term 1 with the vote of server 1, takes a
call, brings the operation to nobody, and stops. -/
def leaderStopped : List (RsmAction 3 Bool) :=
  [.raft (.startElection 0), .raft (.deliver 0), .raft (.deliver 0), .submit 0 true false,
    .start ⟨0, 0, 1⟩, .raft (.kill 0)]

theorem submit_progress_leaderStopped :
    let sm := register [1]
    let s := play (RsmSystem.step sm) (RsmSystem.init sm fun _ => 0) leaderStopped
    (s.raft.rf 0).dead = true ∧
      s.submissions ⟨0, 0, 1⟩ = some ⟨true, false, .waiting 1, true, none⟩ ∧
      ∃ q ∈ ({1, 2} : Finset (Fin 3)), ∃ s₁ s₂ s₃ sequence reply,
        (attendSys sm (fun _ _ => true) {1, 2}).Star s s₁ ∧
        s₁.step sm (.submit q false false) = some s₂ ∧
        s₁.submissions ⟨q, (s.rsms q).epoch, sequence⟩ = none ∧
        (attendSys sm (fun _ _ => true) {1, 2}).Star s₂ s₃ ∧
        s₃.submissions ⟨q, (s.rsms q).epoch, sequence⟩ =
          some ⟨false, false, .returned (.ok reply), false, some reply⟩ := by
  intro sm s
  have hs : (rsmSys sm fun _ => 0).Reachable s :=
    reachable_play (RsmSystem.init sm fun _ => 0) (RsmSystem.step sm) leaderStopped
  exact ⟨by decide +kernel, by decide +kernel,
    submit_progress hs (by decide) (by decide +kernel) (fun _ _ => true) false false⟩

end RaftShardedKv
