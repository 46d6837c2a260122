import RaftShardedKv.Rsm.Replica

/-!
Calls of `SubmitWithTimeout` that return `OK` are linearizable: the
operation has one place in the committed log, the reply is the one for
that place, and the order of places respects the order of calls in time.

That an operation has one place rests on its identity: an identity is
drawn once and handed to `Start` once, and every operation in a log was
handed to `Start`. That a later call comes later in the log then needs no
more than that the committed log only grows: an operation at an earlier
place would have been there, and so would have been started, before its
call was made.
-/

namespace RaftShardedKv

open Transition

variable {n : ℕ} {σ Req Rep : Type} {sm : StateMachine σ Req Rep} [Labgob (Op n Req)]

/-- What holds of the calls. -/
structure SubmitInv (s : RsmSystem n σ Req Rep) : Prop where
  current : ∀ i, (i, (s.rsms i).epoch) ∈ s.epochs
  issued : ∀ id sub, s.submissions id = some sub → (id.server, id.epoch) ∈ s.epochs ∧
    (id.epoch = (s.rsms id.server).epoch → id.sequence ≤ (s.rsms id.server).nextSequence)
  started : ∀ T k op, (T, k, op) ∈ s.raft.started →
    ∃ sub, s.submissions op.id = some sub ∧ sub.req = op.req ∧ sub.phase ≠ .registered
  once : (s.raft.started.map fun x => x.2.2.id).Nodup

theorem RsmStep.operations {s s' : RsmSystem n σ Req Rep} (h : ReplicaInv sm s)
    (hs : RsmStep sm s s') : s.raft.operations <+: s'.raft.operations := by
  cases hs with
  | raft a raft ha hr => exact operations_step h.raft hr
  | restart i epoch a raft ha hr hfresh => exact operations_step h.raft hr
  | receive i m rest raft hidle happlying hr => exact operations_step h.raft hr
  | compact i index id reply raft hpc hr =>
      rcases hr with rfl | hr
      · exact List.prefix_rfl
      · exact operations_step h.raft hr
  | start id sub phase raft hsub hphase hr hnew hresult => exact operations_step h.raft hr
  | _ => exact List.prefix_rfl

section

variable {s s' : RsmSystem n σ Req Rep}

section

omit [Labgob (Op n Req)]

theorem SubmitInv.setSubmission (h : SubmitInv s) {id : OpID n} {sub sub' : Submission Req Rep}
    (hsub : s.submissions id = some sub) (hreq : sub'.req = sub.req)
    (hphase : sub'.phase ≠ .registered ∨ sub'.phase = sub.phase) :
    SubmitInv (s.setSubmission id sub') where
  current := h.current
  issued id' t ht := by
    rcases eq_or_ne id' id with rfl | hne
    · exact h.issued id' sub hsub
    · exact h.issued id' t (by simpa [RsmSystem.setSubmission, hne] using ht)
  started T k op hop := by
    obtain ⟨t, ht, hr, hp⟩ := h.started T k op hop
    rcases eq_or_ne op.id id with heq | hne
    · obtain rfl : sub = t := Option.some.inj (hsub.symm.trans (heq ▸ ht))
      refine ⟨sub', by simp [RsmSystem.setSubmission, heq], hreq.trans hr, ?_⟩
      rcases hphase with hphase | hphase
      · exact hphase
      · rw [hphase]; exact hp
    · exact ⟨t, by simpa [RsmSystem.setSubmission, hne] using ht, hr, hp⟩
  once := h.once

theorem SubmitInv.setRsm (h : SubmitInv s) {i : Fin n} {rsm : Rsm n σ Req Rep}
    (hepoch : rsm.epoch = (s.rsms i).epoch)
    (hnext : (s.rsms i).nextSequence ≤ rsm.nextSequence) : SubmitInv (s.setRsm i rsm) where
  current j := by
    rcases eq_or_ne j i with rfl | hj
    · simpa [RsmSystem.setRsm, hepoch] using h.current j
    · simpa [RsmSystem.setRsm, hj] using h.current j
  issued id sub hsub := by
    obtain ⟨hdrawn, hle⟩ := h.issued id sub hsub
    refine ⟨hdrawn, ?_⟩
    rcases eq_or_ne id.server i with hi | hi
    · simp only [RsmSystem.setRsm, hi, Function.update_self]
      intro heq
      rw [hi] at hle
      exact (hle (heq.trans hepoch)).trans hnext
    · simpa [RsmSystem.setRsm, hi] using hle
  started := h.started
  once := h.once

theorem SubmitInv.raft_step (h : SubmitInv s) {raft : System n (Op n Req)}
    (hstarted : raft.started = s.raft.started) : SubmitInv { s with raft := raft } where
  current := h.current
  issued := h.issued
  started T k op hop := h.started T k op (hstarted ▸ hop)
  once := by
    show (raft.started.map _).Nodup
    rw [hstarted]
    exact h.once

theorem SubmitInv.restart (h : SubmitInv s) {i : Fin n} {epoch : ℕ}
    {raft : System n (Op n Req)} {rsm : Rsm n σ Req Rep} (hrsm : rsm.epoch = epoch)
    (hfresh : (i, epoch) ∉ s.epochs) (hstarted : raft.started = s.raft.started) :
    SubmitInv { s with
      raft := raft
      rsms := Function.update s.rsms i rsm
      epochs := (i, epoch) :: s.epochs } := by
  have hraft := h.raft_step hstarted
  refine ⟨fun j => ?_, fun id sub hsub => ?_, hraft.started, hraft.once⟩
  · rcases eq_or_ne j i with rfl | hj
    · simp [hrsm]
    · simpa [hj] using h.current j
  · obtain ⟨hdrawn, hle⟩ := h.issued id sub hsub
    refine ⟨List.mem_cons_of_mem _ hdrawn, ?_⟩
    rcases eq_or_ne id.server i with hi | hi
    · simp only [hi, Function.update_self]
      intro heq
      -- a call of the new epoch would have drawn it before
      rw [hi, heq, hrsm] at hdrawn
      exact absurd hdrawn hfresh
    · simpa [hi] using hle

theorem SubmitInv.submit (h : SubmitInv s) (i : Fin n) (req : Req) (timeout : Bool) :
    SubmitInv ((s.setRsm i { s.rsms i with
      nextSequence := (s.rsms i).nextSequence + 1 }).setSubmission
      ⟨i, (s.rsms i).epoch, (s.rsms i).nextSequence + 1⟩
      ⟨req, timeout, .registered, true, none⟩) := by
  have hset : SubmitInv (s.setRsm i { s.rsms i with
      nextSequence := (s.rsms i).nextSequence + 1 }) := h.setRsm rfl (Nat.le_succ _)
  have hnew : s.submissions ⟨i, (s.rsms i).epoch, (s.rsms i).nextSequence + 1⟩ = none := by
    cases hsub : s.submissions ⟨i, (s.rsms i).epoch, (s.rsms i).nextSequence + 1⟩ with
    | none => rfl
    | some sub =>
        have hle := (h.issued _ sub hsub).2 rfl
        simp at hle
  refine ⟨hset.current, fun id sub hsub => ?_, fun T k op hop => ?_, hset.once⟩
  · by_cases hid : id = ⟨i, (s.rsms i).epoch, (s.rsms i).nextSequence + 1⟩
    · subst hid
      refine ⟨h.current i, ?_⟩
      simp [RsmSystem.setSubmission, RsmSystem.setRsm]
    · exact hset.issued id sub (by simpa [RsmSystem.setSubmission, hid] using hsub)
  · obtain ⟨sub, hsub, hrest⟩ := hset.started T k op hop
    refine ⟨sub, ?_, hrest⟩
    have hid : op.id ≠ ⟨i, (s.rsms i).epoch, (s.rsms i).nextSequence + 1⟩ := by
      intro heq
      rw [heq] at hsub
      exact absurd (hnew.symm.trans hsub) (by simp)
    simpa [RsmSystem.setSubmission, hid] using hsub

/-- An operation is handed to `Start`, which has not seen it before. -/
theorem SubmitInv.start (h : SubmitInv s) {id : OpID n} {sub : Submission Req Rep}
    {phase : Phase Rep} {raft : System n (Op n Req)} (hsub : s.submissions id = some sub)
    (hphase : sub.phase = .registered)
    (hstarted : raft.started = s.raft.started ∨ ∃ T k, raft.started =
      (T, k, ⟨id.server, id.epoch, id.sequence, sub.req⟩) :: s.raft.started)
    (hnew : phase ≠ .registered) :
    SubmitInv { s.setSubmission id { sub with phase := phase } with raft := raft } := by
  have hset : SubmitInv (s.setSubmission id { sub with phase := phase }) :=
    h.setSubmission hsub rfl (Or.inl hnew)
  rcases hstarted with hsame | ⟨T, k, hcons⟩
  · exact hset.raft_step hsame
  refine ⟨hset.current, hset.issued, fun T' k' op hop => ?_, ?_⟩
  · change (T', k', op) ∈ raft.started at hop
    rw [hcons] at hop
    rcases List.mem_cons.mp hop with heq | hold
    · cases heq
      exact ⟨{ sub with phase := phase }, by simp [RsmSystem.setSubmission, Op.id], rfl, hnew⟩
    · exact hset.started T' k' op hold
  · show (raft.started.map _).Nodup
    rw [hcons, List.map_cons, List.nodup_cons]
    refine ⟨fun hmem => ?_, h.once⟩
    obtain ⟨⟨T', k', op⟩, hop, hid⟩ := List.mem_map.mp hmem
    obtain ⟨t, ht, -, hp⟩ := h.started T' k' op hop
    have hidop : op.id = id := hid
    rw [hidop] at ht
    obtain rfl : sub = t := Option.some.inj (hsub.symm.trans ht)
    exact hp hphase

end

theorem SubmitInv.step (h : SubmitInv s) (hs : RsmStep sm s s') : SubmitInv s' := by
  cases hs with
  | raft a raft ha hr => exact h.raft_step (Action.internal_unrecorded ha hr).started
  | restart i epoch a raft ha hr hfresh =>
      exact h.restart rfl hfresh (Remade.restart ha hr).2.started
  | receive i m rest raft hidle happlying hr =>
      refine SubmitInv.raft_step (s := s.setRsm i { s.rsms i with applier := .received m }) ?_
        (Unrecorded.send happlying hr).started
      exact h.setRsm rfl le_rfl
  | install i m hm => exact h.setRsm rfl le_rfl
  | doOp i op index hm => exact h.setRsm rfl le_rfl
  | compact i index id reply raft hpc hr =>
      refine SubmitInv.raft_step (s := s.setRsm i { s.rsms i with applier := .notifying id reply })
        ?_ ?_
      · exact h.setRsm rfl le_rfl
      · rcases hr with rfl | hr
        · rfl
        · cases Effect.of_step hr with
          | silent _ hrecord => exact hrecord.started
          | snapshot _ hrecord => exact hrecord.started
  | wake i id reply sub hpc hsub =>
      have hset : SubmitInv (s.setRsm i { s.rsms i with applier := .idle }) :=
        h.setRsm rfl le_rfl
      exact hset.setSubmission hsub rfl (Or.inr rfl)
  | pass i id reply hpc => exact h.setRsm rfl le_rfl
  | submit i req timeout => exact h.submit i req timeout
  | start id sub phase raft hsub hphase hr hnew hresult =>
      refine h.start hsub hphase ?_ hnew
      cases Effect.of_step hr with
      | silent _ hrecord => exact Or.inl hrecord.started
      | start _ _ hrecord => exact Or.inr ⟨_, _, hrecord.started⟩
  | advance id sub phase waits hsub hnew hresult =>
      exact h.setSubmission hsub rfl (Or.inl hnew)

theorem SubmitInv.init (epoch : Fin n → ℕ) : SubmitInv (RsmSystem.init sm epoch) where
  current i := List.mem_map.mpr ⟨i, List.mem_finRange i, rfl⟩
  issued id sub hsub := by cases hsub
  started T k op hop := by cases hop
  once := List.nodup_nil

theorem SubmitInv.reachable {epoch : Fin n → ℕ} (hs : (rsmSys sm epoch).Reachable s) :
    SubmitInv s :=
  hs.invariant (fun _ hi => hi ▸ .init epoch) fun _ _ _ _ ih hstep => ih.step (.of_step hstep)

end

/-! ### Where replies come from -/

/-- A replica is about to execute `op`, right after the operations before
`index`, and `DoOp` will return `reply`. -/
def RsmSystem.Executes (sm : StateMachine σ Req Rep) (s : RsmSystem n σ Req Rep) (index : ℕ)
    (op : Op n Req) (reply : Rep) : Prop :=
  ∃ i, (s.rsms i).applier = .received (.command (some op) index) ∧
    (s.rsms i).applied = index - 1 ∧ reply = (sm.doOp (s.rsms i).state op.req).2

/-- The reply that the applier has for a call. -/
def Applier.reply : Applier n Req Rep → Option (OpID n × Rep)
  | .executed _ id reply | .notifying id reply => some (id, reply)
  | _ => none

/-- `P` holds of the replies on their way to a call and of those there. -/
structure Replies (P : OpID n → Rep → Prop) (s : RsmSystem n σ Req Rep) : Prop where
  applier : ∀ i id reply, (s.rsms i).applier.reply = some (id, reply) → P id reply
  call : ∀ id sub reply, s.submissions id = some sub →
    sub.waiter = some reply ∨ sub.phase.result = some reply → P id reply

section

variable {P Q : OpID n → Rep → Prop} {s s' : RsmSystem n σ Req Rep}

section

omit [Labgob (Op n Req)]

theorem Replies.mono (h : Replies P s) (hPQ : ∀ id reply, P id reply → Q id reply) : Replies Q s :=
  ⟨fun i id reply hr => hPQ _ _ (h.applier i id reply hr),
    fun id sub reply hsub hr => hPQ _ _ (h.call id sub reply hsub hr)⟩

theorem Replies.setRsm (h : Replies P s) {i : Fin n} {rsm : Rsm n σ Req Rep}
    (hrsm : ∀ id reply, rsm.applier.reply = some (id, reply) → P id reply) :
    Replies P (s.setRsm i rsm) := by
  refine ⟨fun j id reply hr => ?_, h.call⟩
  rcases eq_or_ne j i with rfl | hj
  · exact hrsm id reply (by simpa [RsmSystem.setRsm] using hr)
  · exact h.applier j id reply (by simpa [RsmSystem.setRsm, hj] using hr)

theorem Replies.setSubmission (h : Replies P s) {id : OpID n} {sub : Submission Req Rep}
    (hsub : ∀ reply, sub.waiter = some reply ∨ sub.phase.result = some reply → P id reply) :
    Replies P (s.setSubmission id sub) := by
  refine ⟨h.applier, fun id' t reply ht hr => ?_⟩
  rcases eq_or_ne id' id with rfl | hne
  · obtain rfl : sub = t := by simpa [RsmSystem.setSubmission] using ht
    exact hsub reply hr
  · exact h.call id' t reply (by simpa [RsmSystem.setSubmission, hne] using ht) hr

theorem Replies.of_raft (h : Replies P s) (raft : System n (Op n Req)) :
    Replies P { s with raft := raft } :=
  ⟨h.applier, h.call⟩

end

/-- Only `DoOp` makes a reply. -/
theorem Replies.step (h : Replies P s) (hs : RsmStep sm s s')
    (hmade : ∀ i op index, (s.rsms i).applier = .received (.command (some op) index) →
      P op.id (sm.doOp (s.rsms i).state op.req).2) : Replies P s' := by
  cases hs with
  | raft a raft ha hr => exact h.of_raft raft
  | restart i epoch a raft ha hr hfresh =>
      have hset : Replies P (s.setRsm i (.make sm epoch (raft.rf i).persister.snapshot
        (raft.procs i).consumed)) := h.setRsm fun _ _ hr => by cases hr
      exact ⟨hset.applier, hset.call⟩
  | receive i m rest raft hidle happlying hr =>
      exact Replies.of_raft (h.setRsm fun _ _ hr => by cases hr) raft
  | install i m hm => exact h.setRsm fun _ _ hr => by cases hr
  | doOp i op index hm =>
      refine h.setRsm fun id reply hr => ?_
      cases hr
      exact hmade i op index hm
  | compact i index id reply raft hpc hr =>
      refine Replies.of_raft (h.setRsm fun id' reply' hr => ?_) raft
      exact h.applier i id' reply' (by rw [hpc]; exact hr)
  | wake i id reply sub hpc hsub =>
      have hidle : Replies P (s.setRsm i { s.rsms i with applier := .idle }) :=
        h.setRsm fun _ _ hr => by cases hr
      refine hidle.setSubmission fun reply' hr => ?_
      rcases hr with hr | hr
      · cases hr
        exact h.applier i id reply (by rw [hpc]; rfl)
      · exact h.call id sub reply' hsub (Or.inr hr)
  | pass i id reply hpc => exact h.setRsm fun _ _ hr => by cases hr
  | submit i req timeout =>
      have hset : Replies P (s.setRsm i { s.rsms i with
          nextSequence := (s.rsms i).nextSequence + 1 }) :=
        h.setRsm fun id reply hr => h.applier i id reply hr
      refine hset.setSubmission ?_
      rintro reply (hr | hr) <;> cases hr
  | start id sub phase raft hsub hphase hr hnew hresult =>
      refine Replies.of_raft (h.setSubmission fun reply hr => h.call id sub reply hsub ?_) raft
      rcases hr with hr | hr
      · exact Or.inl hr
      · rw [hresult] at hr
        cases hr
  | advance id sub phase waits hsub hnew hresult =>
      refine h.setSubmission fun reply hr => h.call id sub reply hsub ?_
      rcases hr with hr | hr
      · exact Or.inl hr
      · exact (hresult reply hr).symm

end

/-- `DoOp` has returned this reply before moment `k`. -/
def Made {epoch : Fin n → ℕ} (r : (rsmSys sm epoch).Run) (k : ℕ) (id : OpID n) (reply : Rep) :
    Prop :=
  ∃ m < k, ∃ index op, op.id = id ∧ (r.state m).Executes sm index op reply

theorem replies_run {epoch : Fin n → ℕ} (r : (rsmSys sm epoch).Run) (k : ℕ) :
    Replies (Made r k) (r.state k) := by
  induction k with
  | zero =>
      rw [r.start]
      refine ⟨fun _ _ _ hr => ?_, fun _ _ _ hsub => ?_⟩
      · cases hr
      · cases hsub
  | succ k ih =>
      have hearlier : Replies (Made r (k + 1)) (r.state k) :=
        ih.mono fun id reply ⟨m, hm, hmade⟩ => ⟨m, hm.trans (Nat.lt_succ_self k), hmade⟩
      rcases r.next k with heq | ⟨a, hstep⟩
      · rw [heq]
        exact hearlier
      · refine hearlier.step (.of_step hstep) fun i op index hm => ?_
        have happlier := ((ReplicaInv.reachable (r.reachable k)).replica i).applier
        rw [hm] at happlier
        obtain ⟨-, rfl, -⟩ := happlier
        exact ⟨k, Nat.lt_succ_self k, _, op, rfl, i, hm, rfl, rfl⟩

/-- An operation about to be executed is committed there, and in a lawful
state machine its reply is the one after the operations before it. -/
theorem RsmSystem.Executes.committed {s : RsmSystem n σ Req Rep} (h : ReplicaInv sm s)
    {index : ℕ} {op : Op n Req} {reply : Rep} (he : s.Executes sm index op reply) :
    1 ≤ index ∧ s.raft.operations[index - 1]? = some op ∧ (sm.Lawful →
      reply = (sm.doOp (sm.run (s.raft.operations.take (index - 1))) op.req).2) := by
  obtain ⟨i, hm, happlied, rfl⟩ := he
  have happlier := (h.replica i).applier
  rw [hm] at happlier
  obtain ⟨-, rfl, op', hop, hget⟩ := happlier
  cases hop
  refine ⟨Nat.le_add_left 1 _, hget, fun hsm => ?_⟩
  rw [(h.replica i).state hsm]
  rfl

/-! ### Linearizability -/

def System.CommittedAt {C : Type} (s : System n C) (index : ℕ) (op : C) : Prop :=
  1 ≤ index ∧ s.operations[index - 1]? = some op

theorem operations_run {epoch : Fin n → ℕ} (r : (rsmSys sm epoch).Run) {j k : ℕ} (hjk : j ≤ k) :
    (r.state j).raft.operations <+: (r.state k).raft.operations :=
  (r.star hjk).preserves (P := fun s => (r.state j).raft.operations <+: s.raft.operations)
    (r.reachable j) (fun _ _ _ hr hP hstep =>
      hP.trans ((RsmStep.of_step hstep).operations (.reachable hr))) List.prefix_rfl

theorem committed_once {epoch : Fin n → ℕ} {s : RsmSystem n σ Req Rep}
    (hs : (rsmSys sm epoch).Reachable s) {j k : ℕ} {op op' : Op n Req}
    (hj : s.raft.operations[j]? = some op) (hk : s.raft.operations[k]? = some op')
    (hid : op.id = op'.id) : j = k := by
  have hraft := (ReplicaInv.reachable hs).raft
  obtain ⟨T, hT⟩ := operation_started hraft hj
  obtain ⟨T', hT'⟩ := operation_started hraft hk
  have heq := List.inj_on_of_nodup_map (SubmitInv.reachable hs).once hT hT' hid
  cases heq
  rfl

def RsmSystem.requests (s : RsmSystem n σ Req Rep) (id : OpID n) : Option Req :=
  (s.submissions id).map Submission.req

omit [Labgob (Op n Req)] in
theorem RsmSystem.requests_set {s : RsmSystem n σ Req Rep} {id : OpID n}
    {sub sub' : Submission Req Rep} (hsub : s.submissions id = some sub)
    (hreq : sub'.req = sub.req) : (s.setSubmission id sub').requests = s.requests := by
  ext1 id'
  unfold RsmSystem.requests RsmSystem.setSubmission
  dsimp only
  rcases eq_or_ne id' id with rfl | hne
  · rw [Function.update_self, hsub, Option.map_some, Option.map_some, hreq]
  · rw [Function.update_of_ne hne]

/-- Only `SubmitWithTimeout` makes a call. -/
theorem RsmSystem.requests_step {s s' : RsmSystem n σ Req Rep} {a : RsmAction n Req}
    (hs : s.step sm a = some s') (ha : ∀ i req timeout, a ≠ .submit i req timeout) :
    s'.requests = s.requests := by
  have hrestarted : ∀ {i epoch raft}, s.restarted sm i epoch raft = some s' →
      s'.requests = s.requests := by
    intro i epoch raft hs
    unfold RsmSystem.restarted at hs
    split at hs <;> cases hs
    rfl
  cases a with
  | raft a =>
      obtain ⟨raft, hr, hs⟩ := Option.bind_eq_some_iff.mp hs
      cases hs
      rfl
  | restart i epoch =>
      obtain ⟨raft, hr, hs⟩ := Option.bind_eq_some_iff.mp hs
      exact hrestarted hs
  | crashDuring k epoch =>
      obtain ⟨c, hk, hs⟩ := Option.bind_eq_some_iff.mp hs
      obtain ⟨raft, hr, hs⟩ := Option.bind_eq_some_iff.mp hs
      exact hrestarted hs
  | receive i =>
      simp only [RsmSystem.step] at hs
      split at hs
      · obtain ⟨m, hm, hs⟩ := Option.bind_eq_some_iff.mp hs
        obtain ⟨raft, hr, hs⟩ := Option.bind_eq_some_iff.mp hs
        cases hs
        rfl
      · cases hs
  | execute i =>
      obtain ⟨rsm, hrsm, hs⟩ := Option.bind_eq_some_iff.mp hs
      cases hs
      rfl
  | compact i shouldSnapshot =>
      simp only [RsmSystem.step] at hs
      split at hs
      · obtain ⟨raft, hr, hs⟩ := Option.bind_eq_some_iff.mp hs
        cases hs
        rfl
      · cases hs
  | notify i =>
      simp only [RsmSystem.step] at hs
      split at hs
      · split at hs
        · split at hs
          · rename_i sub hsub
            split at hs <;> cases hs
            · exact requests_set hsub rfl
            · rfl
          · cases hs
            rfl
        · cases hs
          rfl
      · cases hs
  | submit i req timeout => exact absurd rfl (ha i req timeout)
  | start id =>
      obtain ⟨sub, hsub, hs⟩ := Option.bind_eq_some_iff.mp hs
      split at hs
      · split at hs
        · cases hs
          exact requests_set hsub rfl
        · obtain ⟨out, -, hs⟩ := Option.bind_eq_some_iff.mp hs
          obtain ⟨raft, hr, hs⟩ := Option.bind_eq_some_iff.mp hs
          cases hs
          exact requests_set hsub rfl
      · cases hs
  | result id =>
      obtain ⟨sub, hsub, hs⟩ := Option.bind_eq_some_iff.mp hs
      split at hs <;> cases hs
      exact requests_set hsub rfl
  | giveUp id reason =>
      obtain ⟨sub, hsub, hs⟩ := Option.bind_eq_some_iff.mp hs
      split at hs
      · split at hs <;> cases hs
        exact requests_set hsub rfl
      · cases hs
  | removeWaiter id =>
      obtain ⟨sub, hsub, hs⟩ := Option.bind_eq_some_iff.mp hs
      split at hs <;> cases hs
      exact requests_set hsub rfl

omit [Labgob (Op n Req)] in
theorem SubmitInv.requests_next {s : RsmSystem n σ Req Rep} (h : SubmitInv s) (i : Fin n) :
    s.requests ⟨i, (s.rsms i).epoch, (s.rsms i).nextSequence + 1⟩ = none := by
  cases hsub : s.submissions ⟨i, (s.rsms i).epoch, (s.rsms i).nextSequence + 1⟩ with
  | none => rw [RsmSystem.requests, hsub, Option.map_none]
  | some sub =>
      have hle := (h.issued _ sub hsub).2 rfl
      exact absurd hle (Nat.not_succ_le_self _)

theorem operation_submitted {epoch : Fin n → ℕ} {s : RsmSystem n σ Req Rep}
    (hs : (rsmSys sm epoch).Reachable s) {k : ℕ} {op : Op n Req}
    (hk : s.raft.operations[k]? = some op) : s.requests op.id = some op.req := by
  obtain ⟨T, hT⟩ := operation_started (ReplicaInv.reachable hs).raft hk
  obtain ⟨sub, hsub, hreq, -⟩ := (SubmitInv.reachable hs).started T _ op hT
  rw [RsmSystem.requests, hsub, Option.map_some, hreq]

/-- The reply of the fold to the operation with this identity. -/
def Answer (sm : StateMachine σ Req Rep) (ops : List (Op n Req)) (id : OpID n) (reply : Rep) :
    Prop :=
  ∃ k op, ops[k]? = some op ∧ op.id = id ∧ reply = (sm.doOp (sm.run (ops.take k)) op.req).2

omit [Labgob (Op n Req)] in
theorem Answer.mono {ops ops' : List (Op n Req)} {id : OpID n} {reply : Rep}
    (h : Answer sm ops id reply) (hops : ops <+: ops') : Answer sm ops' id reply := by
  obtain ⟨k, op, hop, hid, hreply⟩ := h
  refine ⟨k, op, getElem?_of_initial hops hop, hid, ?_⟩
  rw [take_of_initial hops (List.getElem?_eq_some_iff.mp hop).1.le]
  exact hreply

theorem replies_reachable (hsm : sm.Lawful) {epoch : Fin n → ℕ} {s : RsmSystem n σ Req Rep}
    (hs : (rsmSys sm epoch).Reachable s) : Replies (Answer sm s.raft.operations) s := by
  refine hs.invariant (I := fun s => Replies (Answer sm s.raft.operations) s) (fun s hi => ?_)
    fun s a s' hr ih hstep => ?_
  · rw [hi]
    refine ⟨fun _ _ _ hreply => ?_, fun _ _ _ hsub => ?_⟩
    · cases hreply
    · cases hsub
  · have hinv := ReplicaInv.reachable hr
    have hgrow := (RsmStep.of_step hstep).operations hinv
    refine (ih.mono fun _ _ h => h.mono hgrow).step (.of_step hstep) fun i op index hm => ?_
    have happlier := (hinv.replica i).applier
    rw [hm] at happlier
    obtain ⟨-, -, op', hop, hget⟩ := happlier
    cases hop
    refine Answer.mono ⟨_, op, hget, rfl, ?_⟩ hgrow
    rw [(hinv.replica i).state hsm]

/-- **Submissions are linearizable.** A call that has returned `OK` has
its operation at one index of the committed log, now and at all times;
the reply is what `DoOp` returned on a replica right after the operations
before it, and so the reply of the fold; and an operation whose call had
not been made by then is only ever delivered at a greater index. -/
theorem submit_linearizable {epoch : Fin n → ℕ} (r : (rsmSys sm epoch).Run) {k : ℕ} {id : OpID n}
    {sub : Submission Req Rep} {reply : Rep} (hsub : (r.state k).submissions id = some sub)
    (hreturned : sub.phase = .returned (.ok reply)) :
    ∃ index op, op.id = id ∧ op.req = sub.req ∧ (r.state k).raft.CommittedAt index op ∧
      (∀ m index' op', op'.id = id → (r.state m).raft.CommittedAt index' op' → index' = index) ∧
      (∃ m < k, (r.state m).Executes sm index op reply) ∧
      (sm.Lawful → reply =
        (sm.doOp (sm.run ((r.state k).raft.operations.take (index - 1))) sub.req).2) ∧
      ∀ id', (r.state k).submissions id' = none → ∀ m i incarnation index' op', op'.id = id' →
        (i, incarnation, .command (some op') index') ∈ (r.state m).raft.applied →
          index < index' := by
  have hsubmit := SubmitInv.reachable (r.reachable k)
  have hraft := (ReplicaInv.reachable (r.reachable k)).raft
  obtain ⟨m, hm, index, op, hid, hexecutes⟩ := (replies_run r k).call id sub reply hsub
    (Or.inr (by rw [hreturned]; rfl))
  have hgrow := operations_run r hm.le
  obtain ⟨hpos, hget, hreply⟩ := hexecutes.committed (.reachable (r.reachable m))
  have hop := getElem?_of_initial hgrow hget
  have hreq : op.req = sub.req := by
    obtain ⟨T, hT⟩ := operation_started hraft hop
    obtain ⟨t, ht, hreq, -⟩ := hsubmit.started T _ op hT
    rw [hid] at ht
    obtain rfl : sub = t := Option.some.inj (hsub.symm.trans ht)
    exact hreq.symm
  refine ⟨index, op, hid, hreq, ⟨hpos, hop⟩, ?_, ⟨m, hm, hexecutes⟩, ?_, ?_⟩
  · rintro m' index' op' hid' ⟨hpos', hop'⟩
    have hat := getElem?_of_initial (operations_run r (le_max_left k m')) hop
    have hat' := getElem?_of_initial (operations_run r (le_max_right k m')) hop'
    have heq := committed_once (r.reachable _) hat hat' (hid.trans hid'.symm)
    omega
  · intro hsm
    rw [← hreq, take_of_initial hgrow (List.getElem?_eq_some_iff.mp hget).1.le]
    exact hreply hsm
  · intro id' hnone m' i incarnation index' op' hid' happlied
    have hraft' := (ReplicaInv.reachable (r.reachable m')).raft
    obtain ⟨A, hA, hrel⟩ := exists_rel hraft'
    obtain ⟨hpos', e, he, hcommand⟩ := hrel.records.applied _ happlied
    have hop' := (getElem?_operations hraft').mpr ⟨e, he, hcommand⟩
    by_contra hle
    -- the operation is then in the log as it was at `k`, so its call was made
    have hearly : (r.state k).raft.operations[index' - 1]? = some op' := by
      have hat := getElem?_of_initial (operations_run r (le_max_right k m')) hop'
      obtain ⟨rest, hrest⟩ := operations_run r (le_max_left k m')
      rw [← hrest, List.getElem?_append_left] at hat
      · exact hat
      · have hlt := (List.getElem?_eq_some_iff.mp hop).1
        omega
    obtain ⟨T, hT⟩ := operation_started hraft hearly
    obtain ⟨t, ht, -⟩ := hsubmit.started T _ op' hT
    rw [hid', hnone] at ht
    cases ht

/-- One server sets the register twice and answers both calls. -/
def setTwice : List (RsmAction 1 Bool) :=
  [.raft (.startElection 0), .submit 0 true false, .start ⟨0, 0, 1⟩, .raft (.claim 0), .receive 0,
    .execute 0, .compact 0 true, .notify 0, .result ⟨0, 0, 1⟩, .removeWaiter ⟨0, 0, 1⟩,
    .submit 0 false true, .start ⟨0, 0, 2⟩, .raft (.claim 0), .receive 0, .execute 0,
    .compact 0 false, .notify 0, .result ⟨0, 0, 2⟩, .removeWaiter ⟨0, 0, 2⟩]

/-- The first call returns the value at the start, the second the one
that the first has set; the second is at a greater index. -/
theorem submit_linearizable_setTwice :
    let r := Sys.Run.play (RsmSystem.init (register [1]) fun _ => 0)
      (RsmSystem.step (register [1])) setTwice
    (r.state 10).submissions ⟨0, 0, 2⟩ = none ∧
    (∃ index op, op.id = ⟨0, 0, 1⟩ ∧ (r.state 10).raft.CommittedAt index op ∧
      ∀ i incarnation index' op', op'.id = ⟨0, 0, 2⟩ →
        (i, incarnation, .command (some op') index') ∈ (r.state 19).raft.applied →
          index < index') ∧
    ∃ index op, op.id = ⟨0, 0, 2⟩ ∧ (r.state 19).raft.CommittedAt index op ∧
      true = ((register [1]).doOp
        ((register [1]).run ((r.state 19).raft.operations.take (index - 1))) false).2 := by
  intro r
  have hnone : (r.state 10).submissions ⟨0, 0, 2⟩ = none := by decide +kernel
  have hfirst : (r.state 10).submissions ⟨0, 0, 1⟩ =
      some ⟨true, false, .returned (.ok false), false, some false⟩ := by decide +kernel
  have hsecond : (r.state 19).submissions ⟨0, 0, 2⟩ =
      some ⟨false, true, .returned (.ok true), false, some true⟩ := by decide +kernel
  refine ⟨hnone, ?_, ?_⟩
  · obtain ⟨index, op, hid, -, hat, -, -, -, hlater⟩ := submit_linearizable r hfirst rfl
    exact ⟨index, op, hid, hat, fun i incarnation index' op' hid' happlied =>
      hlater _ hnone 19 i incarnation index' op' hid' happlied⟩
  · obtain ⟨index, op, hid, -, hat, -, -, hvalue, -⟩ := submit_linearizable r hsecond rfl
    exact ⟨index, op, hid, hat, hvalue ⟨by decide, by decide⟩⟩

end RaftShardedKv
