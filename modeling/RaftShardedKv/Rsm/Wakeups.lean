import RaftShardedKv.Raft.ApplyStream
import RaftShardedKv.Rsm.Linearizable

/-!
A call that waits does not miss its reply.

`SubmitWithTimeout` registers its channel before it calls `Start`, so when
the applier gets to the operation the channel is there, unless the call
has returned. What the applier of a server has been sent since the server
was started is therefore answered, but for the message it is at work on.
-/

namespace RaftShardedKv

open Transition

variable {n : ℕ} {σ Req Rep : Type}

/-- The applier is at work on the message with `op`. -/
def Applier.AtWork (op : Op n Req) (index : ℕ) : Applier n Req Rep → Prop
  | .idle => False
  | .received m => m = .command (some op) index
  | .executed _ id _ => id = op.id
  | .notifying id _ => id = op.id

/-- The call of `id` has its reply, if it waits for one. -/
def RsmSystem.Answered (s : RsmSystem n σ Req Rep) (id : OpID n) : Prop :=
  ∀ sub, s.submissions id = some sub → sub.waits = true → sub.waiter ≠ none

/-- The server has been sent `op` since it was started. -/
def RsmSystem.Sent (s : RsmSystem n σ Req Rep) (op : Op n Req) (index : ℕ) : Prop :=
  op.epoch = (s.rsms op.server).epoch ∧
    (op.server, (s.raft.procs op.server).incarnation, .command (some op) index) ∈ s.raft.applied

/-- No wake-up is lost. -/
def Woken (s : RsmSystem n σ Req Rep) : Prop :=
  ∀ op index, s.Sent op index →
    s.Answered op.id ∨ (s.rsms op.server).applier.AtWork op index

section

variable {sm : StateMachine σ Req Rep} {s s' : RsmSystem n σ Req Rep} [Labgob (Op n Req)]

theorem RsmSystem.Sent.operation {op : Op n Req} {index : ℕ} (h : s.Sent op index)
    (hraft : (raftSys n (Op n Req)).Reachable s.raft) :
    s.raft.operations[index - 1]? = some op := by
  obtain ⟨A, hA, hrel⟩ := exists_rel hraft
  obtain ⟨-, e, he, hcommand⟩ := hrel.records.applied _ h.2
  exact (getElem?_operations hraft).mpr ⟨e, he, hcommand⟩

theorem RsmSystem.Sent.submitted {op : Op n Req} {index : ℕ} (h : s.Sent op index)
    (hraft : (raftSys n (Op n Req)).Reachable s.raft) (hsub : SubmitInv s) :
    s.submissions op.id ≠ none := by
  obtain ⟨T, hstarted⟩ := operation_started hraft (h.operation hraft)
  obtain ⟨sub, hsome, -⟩ := hsub.started _ _ _ hstarted
  rw [hsome]
  simp

section

omit [Labgob (Op n Req)]

theorem RsmSystem.Sent.of_silent {raft : System n (Op n Req)} {op : Op n Req} {index : ℕ}
    (h : ({ s with raft := raft } : RsmSystem n σ Req Rep).Sent op index)
    (hsilent : Silent s.raft raft) : s.Sent op index := by
  obtain ⟨hepoch, hmem⟩ := h
  refine ⟨hepoch, ?_⟩
  dsimp only at hmem
  rwa [hsilent.applied, hsilent.incarnation] at hmem

theorem Woken.setSubmission (h : Woken s) {id : OpID n} {sub sub' : Submission Req Rep}
    (hsub : s.submissions id = some sub)
    (hkept : sub'.waits = true → sub.waits = true ∧ (sub'.waiter = none → sub.waiter = none)) :
    Woken (s.setSubmission id sub') := by
  intro op index hsent
  refine (h op index hsent).imp (fun hanswered t ht hwaits => ?_) fun hwork => hwork
  rcases eq_or_ne op.id id with heq | hne
  · obtain rfl : sub' = t := by simpa [RsmSystem.setSubmission, heq] using ht
    obtain ⟨hwaited, hnone⟩ := hkept hwaits
    exact fun hlost => hanswered sub (heq ▸ hsub) hwaited (hnone hlost)
  · exact hanswered t (by simpa [RsmSystem.setSubmission, hne] using ht) hwaits

theorem Woken.setRsm (h : Woken s) {i : Fin n} {rsm : Rsm n σ Req Rep}
    (hepoch : rsm.epoch = (s.rsms i).epoch)
    (hwork : ∀ op index, (s.rsms i).applier.AtWork op index → op.server = i →
      op.epoch = (s.rsms i).epoch → s.Answered op.id ∨ rsm.applier.AtWork op index) :
    Woken (s.setRsm i rsm) := by
  intro op index hsent
  obtain ⟨hcurrent, hmem⟩ := hsent
  rcases eq_or_ne op.server i with heq | hne
  · have hsame : (s.setRsm i rsm).rsms op.server = rsm := by simp [RsmSystem.setRsm, heq]
    rw [hsame, hepoch, ← heq] at hcurrent
    rw [hsame]
    rcases h op index ⟨hcurrent, hmem⟩ with hanswered | hbusy
    · exact Or.inl hanswered
    · exact hwork op index (heq ▸ hbusy) heq (heq ▸ hcurrent)
  · have hsame : (s.setRsm i rsm).rsms op.server = s.rsms op.server := by
      simp [RsmSystem.setRsm, hne]
    rw [hsame] at hcurrent ⊢
    exact h op index ⟨hcurrent, hmem⟩

end

theorem Woken.restarted (h : Woken s) {i : Fin n} {epoch : ℕ} {a : Action n (Op n Req)}
    {raft : System n (Op n Req)} (ha : a.Restarts s.raft i) (hr : s.raft.step a = some raft)
    (hraft : (raftSys n (Op n Req)).Reachable s.raft)
    (hs : s.restarted sm i epoch raft = some s') : Woken s' := by
  unfold RsmSystem.restarted at hs
  split at hs
  · cases hs
  cases hs
  obtain ⟨hmade, -⟩ := Remade.restart ha hr
  rintro op index ⟨hcurrent, hmem⟩
  dsimp only at hcurrent hmem ⊢
  rcases eq_or_ne op.server i with heq | hne
  · -- the new process has sent nothing yet
    rw [hmade.applied, heq, hmade.fresh] at hmem
    have hle := sent_le_incarnation hraft _ hmem
    exact absurd hle (by simp [Proc.fresh])
  · rw [Function.update_of_ne hne] at hcurrent ⊢
    rw [hmade.applied, hmade.other _ hne] at hmem
    exact h op index ⟨hcurrent, hmem⟩

theorem Woken.receive (h : Woken s) {i : Fin n} {m : ApplyMsg (Op n Req)}
    {rest : List (ApplyMsg (Op n Req))} {raft : System n (Op n Req)}
    (hidle : (s.rsms i).applier = .idle) (happlying : (s.raft.procs i).applying = m :: rest)
    (hr : s.raft.step (.send i) = some raft) :
    Woken { s.setRsm i { s.rsms i with applier := .received m } with raft := raft } := by
  simp only [System.step, happlying, Option.some.injEq] at hr
  subst hr
  rintro op index ⟨hcurrent, hmem⟩
  dsimp only [RsmSystem.setRsm, System.setProc] at hcurrent hmem ⊢
  rcases eq_or_ne op.server i with heq | hne
  · subst heq
    simp only [Function.update_self] at hcurrent hmem ⊢
    rcases List.mem_append.mp hmem with hold | hnew
    · refine Or.inl ((h op index ⟨hcurrent, hold⟩).resolve_right ?_)
      rw [hidle]
      exact id
    · simp only [List.mem_singleton, Prod.mk.injEq, true_and] at hnew
      exact Or.inr hnew.symm
  · simp only [Function.update_of_ne hne] at hcurrent hmem ⊢
    rcases List.mem_append.mp hmem with hold | hnew
    · exact h op index ⟨hcurrent, hold⟩
    · simp only [List.mem_singleton, Prod.mk.injEq] at hnew
      exact absurd hnew.1 hne

omit [Labgob (Op n Req)] in
theorem Woken.idle (h : Woken s) {i : Fin n} {id : OpID n} {reply : Rep}
    (hpc : (s.rsms i).applier = .notifying id reply)
    (hanswered : id.server = i → id.epoch = (s.rsms i).epoch → s.Answered id) :
    Woken (s.setRsm i { s.rsms i with applier := .idle }) := by
  refine h.setRsm rfl fun op index hbusy hserver hepoch => Or.inl ?_
  rw [hpc] at hbusy
  obtain rfl : id = op.id := hbusy
  exact hanswered hserver hepoch

theorem Woken.notify (h : Woken s) {i : Fin n} (hs : s.step sm (.notify i) = some s') :
    Woken s' := by
  simp only [RsmSystem.step] at hs
  split at hs
  · rename_i id reply hpc
    split at hs
    · split at hs
      · rename_i sub hsub
        split at hs
        · cases hs
          have hset : Woken (s.setSubmission id { sub with waiter := some reply }) :=
            h.setSubmission hsub fun hwaits => ⟨hwaits, by simp⟩
          refine hset.idle hpc fun _ _ t ht _ => ?_
          obtain rfl : { sub with waiter := some reply } = t := by
            simpa [RsmSystem.setSubmission] using ht
          simp
        · rename_i hfull
          cases hs
          refine h.idle hpc fun _ _ t ht hwaits hnone => hfull ?_
          obtain rfl : sub = t := Option.some.inj (hsub.symm.trans ht)
          simp [hwaits, hnone]
      · rename_i hnone
        cases hs
        refine h.idle hpc fun _ _ t ht => ?_
        rw [hnone] at ht
        cases ht
    · rename_i hforeign
      cases hs
      exact h.idle hpc fun hserver hepoch => absurd ⟨hserver, hepoch⟩ hforeign
  · cases hs

omit [Labgob (Op n Req)] in
theorem SubmitInv.fresh (h : SubmitInv s) (i : Fin n) :
    s.submissions ⟨i, (s.rsms i).epoch, (s.rsms i).nextSequence + 1⟩ = none :=
  Option.map_eq_none_iff.mp (h.requests_next i)

theorem Woken.submit (h : Woken s) (hraft : (raftSys n (Op n Req)).Reachable s.raft)
    (hsub : SubmitInv s) (i : Fin n) (req : Req) (timeout : Bool) :
    Woken ((s.setRsm i { s.rsms i with
      nextSequence := (s.rsms i).nextSequence + 1 }).setSubmission
      ⟨i, (s.rsms i).epoch, (s.rsms i).nextSequence + 1⟩
      ⟨req, timeout, .registered, true, none⟩) := by
  have hset : Woken (s.setRsm i { s.rsms i with
      nextSequence := (s.rsms i).nextSequence + 1 }) :=
    h.setRsm rfl fun op index hbusy _ _ => Or.inr hbusy
  rintro op index ⟨hcurrent, hmem⟩
  have hepoch : op.epoch = (s.rsms op.server).epoch := by
    rcases eq_or_ne op.server i with heq | hne
    · simpa [RsmSystem.setSubmission, RsmSystem.setRsm, heq] using hcurrent
    · simpa [RsmSystem.setSubmission, RsmSystem.setRsm, hne] using hcurrent
  have hne : op.id ≠ ⟨i, (s.rsms i).epoch, (s.rsms i).nextSequence + 1⟩ := by
    intro heq
    have hsubmitted := RsmSystem.Sent.submitted ⟨hepoch, hmem⟩ hraft hsub
    rw [heq] at hsubmitted
    exact hsubmitted (hsub.fresh i)
  refine (hset op index ⟨hcurrent, hmem⟩).imp (fun hanswered t ht => ?_) fun hbusy => hbusy
  exact hanswered t (by simpa [RsmSystem.setSubmission, hne] using ht)

theorem Woken.step (h : Woken s) (hinv : ReplicaInv sm s) (hsub : SubmitInv s)
    {a : RsmAction n Req} (hs : s.step sm a = some s') : Woken s' := by
  have hmoved : ∀ raft : System n (Op n Req), Silent s.raft raft → Woken { s with raft := raft } :=
    fun raft hsilent op index hsent => h op index (hsent.of_silent hsilent)
  cases a with
  | raft a =>
      obtain ⟨raft, hr, hs⟩ := Option.bind_eq_some_iff.mp hs
      split at hr
      · rename_i ha
        cases hs
        refine hmoved raft ?_
        cases Effect.of_step hr with
        | silent hsilent _ => exact hsilent
        | _ => cases ha
      · cases hr
  | restart i epoch =>
      obtain ⟨raft, hr, hs⟩ := Option.bind_eq_some_iff.mp hs
      exact h.restarted (Or.inl rfl) hr hinv.raft hs
  | crashDuring k epoch =>
      obtain ⟨c, hk, hs⟩ := Option.bind_eq_some_iff.mp hs
      obtain ⟨raft, hr, hs⟩ := Option.bind_eq_some_iff.mp hs
      exact h.restarted (Or.inr ⟨k, c, rfl, hk, rfl⟩) hr hinv.raft hs
  | receive i =>
      simp only [RsmSystem.step] at hs
      split at hs
      · rename_i hidle
        obtain ⟨m, hm, hs⟩ := Option.bind_eq_some_iff.mp hs
        obtain ⟨raft, hr, hs⟩ := Option.bind_eq_some_iff.mp hs
        obtain ⟨rest, happlying⟩ := List.head?_eq_some_iff.mp hm
        cases hs
        exact h.receive hidle happlying hr
      · cases hs
  | execute i =>
      obtain ⟨rsm, hrsm, hs⟩ := Option.bind_eq_some_iff.mp hs
      cases hs
      unfold Rsm.execute at hrsm
      split at hrsm
      · rename_i m hpc
        cases hrsm
        refine h.setRsm rfl fun op index hbusy _ _ => ?_
        rw [hpc] at hbusy
        cases hbusy
      · rename_i op' index' hpc
        cases hrsm
        refine h.setRsm rfl fun op index hbusy _ _ => Or.inr ?_
        rw [hpc] at hbusy
        cases hbusy
        rfl
      · cases hrsm
  | compact i shouldSnapshot =>
      simp only [RsmSystem.step] at hs
      split at hs
      · rename_i index' id reply hpc
        obtain ⟨raft, hr, hs⟩ := Option.bind_eq_some_iff.mp hs
        cases hs
        have hsilent : Silent s.raft raft := by
          cases shouldSnapshot
          · cases hr
            exact ⟨rfl, fun _ => rfl, fun _ => rfl⟩
          · rw [if_pos rfl] at hr
            cases Effect.of_step hr with
            | silent hsilent _ => exact hsilent
            | snapshot hsilent _ => exact hsilent
        refine Woken.setRsm (hmoved raft hsilent) rfl fun op index hbusy _ _ => Or.inr ?_
        dsimp only at hbusy
        rw [hpc] at hbusy
        exact hbusy
      · cases hs
  | notify i => exact h.notify hs
  | submit i req timeout =>
      cases hs
      exact h.submit hinv.raft hsub i req timeout
  | start id =>
      obtain ⟨sub, hsome, hs⟩ := Option.bind_eq_some_iff.mp hs
      split at hs
      · split at hs
        · cases hs
          exact h.setSubmission hsome fun hwaits => ⟨hwaits, fun h => h⟩
        · obtain ⟨⟨_, _, term, isLeader⟩, -, hs⟩ := Option.bind_eq_some_iff.mp hs
          obtain ⟨raft, hr, hs⟩ := Option.bind_eq_some_iff.mp hs
          cases hs
          have hsilent : Silent s.raft raft := by
            cases Effect.of_step hr with
            | silent hsilent _ => exact hsilent
            | start _ hsilent _ => exact hsilent
          exact Woken.setSubmission (hmoved raft hsilent) hsome fun hwaits => ⟨hwaits, fun h => h⟩
      · cases hs
  | result id =>
      obtain ⟨sub, hsome, hs⟩ := Option.bind_eq_some_iff.mp hs
      split at hs
      · cases hs
        exact h.setSubmission hsome fun hwaits => ⟨hwaits, fun h => h⟩
      · cases hs
  | giveUp id reason =>
      obtain ⟨sub, hsome, hs⟩ := Option.bind_eq_some_iff.mp hs
      split at hs
      · split at hs <;> cases hs
        exact h.setSubmission hsome fun hwaits => ⟨hwaits, fun h => h⟩
      · cases hs
  | removeWaiter id =>
      obtain ⟨sub, hsome, hs⟩ := Option.bind_eq_some_iff.mp hs
      split at hs
      · cases hs
        exact h.setSubmission hsome fun hwaits => by cases hwaits
      · cases hs

theorem Woken.reachable {epoch : Fin n → ℕ} (hs : (rsmSys sm epoch).Reachable s) : Woken s := by
  refine hs.invariant (fun _ hi => ?_) fun _ _ _ hr ih hstep =>
    ih.step (ReplicaInv.reachable hr) (SubmitInv.reachable hr) hstep
  subst hi
  intro op index hsent
  cases hsent.2

/-- **No wake-up is lost.** When the applier of a server has gone through
the message with an operation of this start of the server, the call that
submitted it and still waits has its reply in its channel; and that is the
reply of the fold of the committed operations before it. -/
theorem wakeup_not_lost {epoch : Fin n → ℕ} (hs : (rsmSys sm epoch).Reachable s) {op : Op n Req}
    {index : ℕ} (hsent : s.Sent op index) (hidle : (s.rsms op.server).applier = .idle)
    {sub : Submission Req Rep} (hsub : s.submissions op.id = some sub) (hwaits : sub.waits = true) :
    ∃ reply, sub.waiter = some reply ∧ (sm.Lawful →
      reply = (sm.doOp (sm.run (s.raft.operations.take (index - 1))) op.req).2) := by
  have hraft := (ReplicaInv.reachable hs).raft
  rcases Woken.reachable hs op index hsent with hanswered | hbusy
  · obtain ⟨reply, hreply⟩ := Option.ne_none_iff_exists'.mp (hanswered sub hsub hwaits)
    refine ⟨reply, hreply, fun hsm => ?_⟩
    obtain ⟨k, op', hop', hid, hvalue⟩ :=
      (replies_reachable hsm hs).call op.id sub reply hsub (Or.inl hreply)
    have hop := hsent.operation hraft
    obtain rfl := committed_once hs hop' hop hid
    obtain rfl : op' = op := Option.some.inj (hop'.symm.trans hop)
    exact hvalue
  · rw [hidle] at hbusy
    exact hbusy.elim

end

/-- One server sets the register, and its applier has woken the call. -/
def setAndWake : List (RsmAction 1 Bool) :=
  [.raft (.startElection 0), .submit 0 true false, .start ⟨0, 0, 1⟩, .raft (.claim 0), .receive 0,
    .execute 0, .compact 0 true, .notify 0]

theorem wakeup_not_lost_register :
    let sm := register [1]
    let s := play (RsmSystem.step sm) (RsmSystem.init sm fun _ => 0) setAndWake
    s.Sent ⟨0, 0, 1, true⟩ 1 ∧ ∃ sub reply, s.submissions ⟨0, 0, 1⟩ = some sub ∧
      sub.waits = true ∧ sub.waiter = some reply ∧
      reply = (sm.doOp (sm.run (s.raft.operations.take 0)) true).2 := by
  intro sm s
  have hsent : s.Sent ⟨0, 0, 1, true⟩ 1 := ⟨by decide +kernel, by decide +kernel⟩
  have hsub : s.submissions ⟨0, 0, 1⟩ = some ⟨true, false, .waiting 1, true, some false⟩ := by
    decide +kernel
  have hs : (rsmSys sm fun _ => 0).Reachable s :=
    reachable_play (RsmSystem.init sm fun _ => 0) (RsmSystem.step sm) setAndWake
  have hidle : (s.rsms 0).applier = .idle := by decide +kernel
  clear_value s
  obtain ⟨reply, hwaiter, hvalue⟩ := wakeup_not_lost hs hsent hidle hsub rfl
  exact ⟨hsent, _, reply, hsub, rfl, hwaiter, hvalue ⟨by decide, by decide⟩⟩

end RaftShardedKv
