import RaftShardedKv.Rsm.System

/-!
Replicas: the state of a server's state machine is the fold of the
committed operations up to the last one its applier has executed.

Two things are needed of the state machine for this. `Restore` has to
undo `Snapshot`; and a snapshot must not be empty, since neither the
applier nor `MakeRSM` restores an empty one. The facts about positions in
the log hold without them.
-/

namespace RaftShardedKv

open Transition

variable {n : ℕ} {σ Req Rep : Type}

/-- What the replicas rely on. -/
structure StateMachine.Lawful (sm : StateMachine σ Req Rep) : Prop where
  restore_snapshot : ∀ st st', sm.restore st' (sm.snapshot st) = st
  snapshot_ne : ∀ st, sm.snapshot st ≠ []

def StateMachine.run (sm : StateMachine σ Req Rep) (ops : List (Op n Req)) : σ :=
  ops.foldl (fun st op => (sm.doOp st op.req).1) sm.initial

theorem StateMachine.run_take_succ (sm : StateMachine σ Req Rep) {ops : List (Op n Req)} {k : ℕ}
    {op : Op n Req} (h : ops[k]? = some op) :
    sm.run (ops.take (k + 1)) = (sm.doOp (sm.run (ops.take k)) op.req).1 := by
  rw [List.take_add_one, h, StateMachine.run, List.foldl_append]
  rfl

theorem StateMachine.Lawful.restored {sm : StateMachine σ Req Rep} (h : sm.Lawful) (st st' : σ) :
    (if 0 < (sm.snapshot st).length then sm.restore st' (sm.snapshot st) else st') = st := by
  rw [if_pos (List.length_pos_iff.mpr (h.snapshot_ne st)), h.restore_snapshot]

/-! ### One step -/

/-- The reply that a call has come to. -/
def Phase.result : Phase Rep → Option Rep
  | .finished (.ok reply) => some reply
  | .returned (.ok reply) => some reply
  | _ => none

section

variable (sm : StateMachine σ Req Rep) [Labgob (Op n Req)]

/-- What a step can do. -/
inductive RsmStep (s : RsmSystem n σ Req Rep) : RsmSystem n σ Req Rep → Prop
  | raft (a : Action n (Op n Req)) (raft : System n (Op n Req)) (ha : a.internal = true)
      (hr : s.raft.step a = some raft) : RsmStep s { s with raft := raft }
  | restart (i : Fin n) (epoch : ℕ) (a : Action n (Op n Req)) (raft : System n (Op n Req))
      (ha : a.Restarts s.raft i) (hr : s.raft.step a = some raft)
      (hfresh : (i, epoch) ∉ s.epochs) :
      RsmStep s { s with
        raft := raft
        rsms := Function.update s.rsms i
          (.make sm epoch (raft.rf i).persister.snapshot (raft.procs i).consumed)
        epochs := (i, epoch) :: s.epochs }
  | receive (i : Fin n) (m : ApplyMsg (Op n Req)) (rest : List (ApplyMsg (Op n Req)))
      (raft : System n (Op n Req)) (hidle : (s.rsms i).applier = .idle)
      (happlying : (s.raft.procs i).applying = m :: rest)
      (hr : s.raft.step (.send i) = some raft) :
      RsmStep s { s.setRsm i { s.rsms i with applier := .received m } with raft := raft }
  | install (i : Fin n) (m : SnapshotMsg) (h : (s.rsms i).applier = .received (.snapshot m)) :
      RsmStep s (s.setRsm i { s.rsms i with
        state := if 0 < m.snapshot.length then sm.restore (s.rsms i).state m.snapshot
          else (s.rsms i).state
        applied := m.snapshotIndex
        applier := .idle })
  | doOp (i : Fin n) (op : Op n Req) (index : ℕ)
      (h : (s.rsms i).applier = .received (.command (some op) index)) :
      RsmStep s (s.setRsm i { s.rsms i with
        state := (sm.doOp (s.rsms i).state op.req).1
        applied := index
        applier := .executed index op.id (sm.doOp (s.rsms i).state op.req).2 })
  | compact (i : Fin n) (index : ℕ) (id : OpID n) (reply : Rep) (raft : System n (Op n Req))
      (h : (s.rsms i).applier = .executed index id reply)
      (hr : raft = s.raft ∨
        s.raft.step (.snapshot i index (sm.snapshot (s.rsms i).state)) = some raft) :
      RsmStep s { s.setRsm i { s.rsms i with applier := .notifying id reply } with raft := raft }
  | wake (i : Fin n) (id : OpID n) (reply : Rep) (sub : Submission Req Rep)
      (h : (s.rsms i).applier = .notifying id reply) (hsub : s.submissions id = some sub) :
      RsmStep s ((s.setRsm i { s.rsms i with applier := .idle }).setSubmission id
        { sub with waiter := some reply })
  | pass (i : Fin n) (id : OpID n) (reply : Rep)
      (h : (s.rsms i).applier = .notifying id reply) :
      RsmStep s (s.setRsm i { s.rsms i with applier := .idle })
  | submit (i : Fin n) (req : Req) (timeout : Bool) :
      RsmStep s ((s.setRsm i { s.rsms i with
        nextSequence := (s.rsms i).nextSequence + 1 }).setSubmission
        ⟨i, (s.rsms i).epoch, (s.rsms i).nextSequence + 1⟩ ⟨req, timeout, .registered, true, none⟩)
  | start (id : OpID n) (sub : Submission Req Rep) (phase : Phase Rep)
      (raft : System n (Op n Req)) (hsub : s.submissions id = some sub)
      (hphase : sub.phase = .registered)
      (hr : s.raft.step (.start id.server ⟨id.server, id.epoch, id.sequence, sub.req⟩) = some raft)
      (hnew : phase ≠ .registered) (hresult : phase.result = none) :
      RsmStep s { s.setSubmission id { sub with phase := phase } with raft := raft }
  | advance (id : OpID n) (sub : Submission Req Rep) (phase : Phase Rep) (waits : Bool)
      (hsub : s.submissions id = some sub) (hnew : phase ≠ .registered)
      (hresult : ∀ r, phase.result = some r → sub.phase.result = some r ∨ sub.waiter = some r) :
      RsmStep s (s.setSubmission id { sub with phase := phase, waits := waits })

variable {sm} {s s' : RsmSystem n σ Req Rep}

theorem RsmStep.restarted {i : Fin n} {epoch : ℕ} {a : Action n (Op n Req)}
    {raft : System n (Op n Req)} (ha : a.Restarts s.raft i) (hr : s.raft.step a = some raft)
    (hs : s.restarted sm i epoch raft = some s') : RsmStep sm s s' := by
  unfold RsmSystem.restarted at hs
  split at hs
  · cases hs
  · rename_i hfresh
    cases hs
    exact .restart i epoch a raft ha hr hfresh

theorem RsmStep.of_start {id : OpID n} (hs : s.step sm (.start id) = some s') :
    RsmStep sm s s' := by
  obtain ⟨sub, hsub, hs⟩ := Option.bind_eq_some_iff.mp hs
  split at hs
  · rename_i hphase
    split at hs
    · cases hs
      exact .advance id sub _ sub.waits hsub (by simp) (by simp [Phase.result])
    · obtain ⟨⟨_, _, term, isLeader⟩, -, hs⟩ := Option.bind_eq_some_iff.mp hs
      obtain ⟨raft, hr, hs⟩ := Option.bind_eq_some_iff.mp hs
      cases hs
      refine .start id sub _ raft hsub hphase hr ?_ ?_
      · cases isLeader <;> simp
      · cases isLeader <;> rfl
  · cases hs

theorem RsmStep.of_step {a : RsmAction n Req} (hs : s.step sm a = some s') : RsmStep sm s s' := by
  cases a with
  | raft a =>
      obtain ⟨raft, hr, hs⟩ := Option.bind_eq_some_iff.mp hs
      split at hr
      · rename_i ha
        cases hs
        exact .raft a raft ha hr
      · cases hr
  | restart i epoch =>
      obtain ⟨raft, hr, hs⟩ := Option.bind_eq_some_iff.mp hs
      exact .restarted (Or.inl rfl) hr hs
  | crashDuring k epoch =>
      obtain ⟨c, hk, hs⟩ := Option.bind_eq_some_iff.mp hs
      obtain ⟨raft, hr, hs⟩ := Option.bind_eq_some_iff.mp hs
      exact .restarted (Or.inr ⟨k, c, rfl, hk, rfl⟩) hr hs
  | receive i =>
      simp only [RsmSystem.step] at hs
      split at hs
      · rename_i hidle
        obtain ⟨m, hm, hs⟩ := Option.bind_eq_some_iff.mp hs
        obtain ⟨raft, hr, hs⟩ := Option.bind_eq_some_iff.mp hs
        obtain ⟨rest, happlying⟩ := List.head?_eq_some_iff.mp hm
        cases hs
        exact .receive i m rest raft hidle happlying hr
      · cases hs
  | execute i =>
      obtain ⟨rsm, hrsm, hs⟩ := Option.bind_eq_some_iff.mp hs
      cases hs
      unfold Rsm.execute at hrsm
      split at hrsm
      · rename_i m h
        cases hrsm
        exact .install i m h
      · rename_i op index h
        cases hrsm
        exact .doOp i op index h
      · cases hrsm
  | compact i shouldSnapshot =>
      simp only [RsmSystem.step] at hs
      split at hs
      · rename_i index id reply h
        obtain ⟨raft, hr, hs⟩ := Option.bind_eq_some_iff.mp hs
        cases hs
        refine .compact i index id reply raft h ?_
        cases shouldSnapshot
        · exact Or.inl (Option.some.inj hr).symm
        · exact Or.inr hr
      · cases hs
  | notify i =>
      simp only [RsmSystem.step] at hs
      split at hs
      · rename_i id reply h
        split at hs
        · split at hs
          · rename_i sub hsub
            split at hs <;> cases hs
            · exact .wake i id reply sub h hsub
            · exact .pass i id reply h
          · cases hs
            exact .pass i id reply h
        · cases hs
          exact .pass i id reply h
      · cases hs
  | submit i req timeout =>
      cases hs
      exact .submit i req timeout
  | start id => exact .of_start hs
  | result id =>
      obtain ⟨sub, hsub, hs⟩ := Option.bind_eq_some_iff.mp hs
      split at hs
      · rename_i term reply hphase hwaiter
        cases hs
        exact .advance id sub _ sub.waits hsub (by simp) fun r hr =>
          Or.inr (by rw [hwaiter, ← hr]; rfl)
      · cases hs
  | giveUp id reason =>
      obtain ⟨sub, hsub, hs⟩ := Option.bind_eq_some_iff.mp hs
      split at hs
      · split at hs <;> cases hs
        exact .advance id sub _ sub.waits hsub (by simp) (by simp [Phase.result])
      · cases hs
  | removeWaiter id =>
      obtain ⟨sub, hsub, hs⟩ := Option.bind_eq_some_iff.mp hs
      split at hs
      · rename_i outcome hphase
        cases hs
        refine .advance id sub _ false hsub (by simp) fun r hr => Or.inl ?_
        rw [hphase]
        cases outcome with
        | ok reply => exact hr
        | errWrongLeader => cases hr
      · cases hs

end

/-! ### The invariant -/

section

variable (sm : StateMachine σ Req Rep) (ops : List (Op n Req))

/-- A message for a replica that has executed `ops` up to `applied`. -/
def Heard (applied : ℕ) : ApplyMsg (Op n Req) → Prop
  | .command c index => index = applied + 1 ∧ ∃ op, c = some op ∧ ops[applied]? = some op
  | .snapshot m => applied < m.snapshotIndex ∧ m.snapshotIndex ≤ ops.length ∧
      (sm.Lawful → m.snapshot = sm.snapshot (sm.run (ops.take m.snapshotIndex)))

/-- A replica whose server has delivered everything up to `consumed`. -/
structure Replica (consumed : ℕ) (rsm : Rsm n σ Req Rep) : Prop where
  applied_le : rsm.applied ≤ ops.length
  state : sm.Lawful → rsm.state = sm.run (ops.take rsm.applied)
  applier : match rsm.applier with
    | .idle => consumed = rsm.applied
    | .received m => consumed = m.index ∧ Heard sm ops rsm.applied m
    | .executed index _ _ => consumed = rsm.applied ∧ index = rsm.applied
    | .notifying _ _ => consumed = rsm.applied

end

section mono

variable {sm : StateMachine σ Req Rep} {ops ops' : List (Op n Req)} (h : ops <+: ops')

include h

theorem getElem?_of_initial {k : ℕ} {op : Op n Req} (hk : ops[k]? = some op) :
    ops'[k]? = some op := by
  obtain ⟨rest, rfl⟩ := h
  rw [List.getElem?_append_left (List.getElem?_eq_some_iff.mp hk).1, hk]

theorem take_of_initial {k : ℕ} (hk : k ≤ ops.length) : ops'.take k = ops.take k := by
  obtain ⟨rest, rfl⟩ := h
  exact List.take_append_of_le_length hk

theorem Heard.mono {applied : ℕ} {m : ApplyMsg (Op n Req)} (hm : Heard sm ops applied m) :
    Heard sm ops' applied m := by
  cases m with
  | command c index =>
      obtain ⟨hindex, op, hc, hop⟩ := hm
      exact ⟨hindex, op, hc, getElem?_of_initial h hop⟩
  | snapshot m =>
      obtain ⟨hlt, hle, hdata⟩ := hm
      refine ⟨hlt, hle.trans h.length_le, fun hsm => ?_⟩
      rw [take_of_initial h hle]
      exact hdata hsm

theorem Replica.mono {consumed : ℕ} {rsm : Rsm n σ Req Rep}
    (hr : Replica sm ops consumed rsm) : Replica sm ops' consumed rsm := by
  refine ⟨hr.applied_le.trans h.length_le, fun hsm => ?_, ?_⟩
  · rw [take_of_initial h hr.applied_le]
    exact hr.state hsm
  · have happlier := hr.applier
    cases hpc : rsm.applier with
    | idle =>
        rw [hpc] at happlier
        exact happlier
    | received m =>
        rw [hpc] at happlier
        exact ⟨happlier.1, happlier.2.mono h⟩
    | executed index id reply =>
        rw [hpc] at happlier
        exact happlier
    | notifying id reply =>
        rw [hpc] at happlier
        exact happlier

end mono

section

variable {sm : StateMachine σ Req Rep} [Labgob (Op n Req)]

/-- Every snapshot taken encodes the operations up to its index. -/
def Encoded (sm : StateMachine σ Req Rep) (raft : System n (Op n Req)) : Prop :=
  sm.Lawful → ∀ t ∈ raft.taken, t.data = sm.snapshot (sm.run (raft.operations.take t.index))

structure ReplicaInv (sm : StateMachine σ Req Rep) (s : RsmSystem n σ Req Rep) : Prop where
  raft : (raftSys n (Op n Req)).Reachable s.raft
  replica : ∀ i, Replica sm s.raft.operations (s.raft.consumed i) (s.rsms i)
  encoded : Encoded sm s.raft

section

variable {raft raft' : System n (Op n Req)} {a : Action n (Op n Req)}
  (hraft : (raftSys n (Op n Req)).Reachable raft) (hencoded : Encoded sm raft)

include hraft hencoded

theorem Encoded.heard {i : Fin n} {m : ApplyMsg (Op n Req)} {rest : List (ApplyMsg (Op n Req))}
    (happlying : (raft.procs i).applying = m :: rest) :
    Heard sm raft.operations (raft.consumed i) m := by
  obtain ⟨hnext, hstands⟩ := message_next hraft happlying
  cases m with
  | command c index =>
      obtain ⟨hpos, e, he, rfl⟩ := hstands
      obtain rfl : index = raft.consumed i + 1 := hnext
      obtain ⟨op, hop, -⟩ := committed_started hraft he
      exact ⟨rfl, op, hop, (getElem?_operations hraft).mpr ⟨e, he, hop⟩⟩
  | snapshot m =>
      obtain ⟨P, hP⟩ := hstands
      exact ⟨hnext, taken_le hraft hP, fun hsm => hencoded hsm _ hP⟩

theorem Encoded.make (i : Fin n) (epoch : ℕ) :
    Replica sm raft.operations (raft.rf i).lastIncludedIndex
      (.make sm epoch (raft.rf i).persister.snapshot (raft.rf i).lastIncludedIndex) := by
  rcases persisted_snapshot hraft i with ⟨hzero, hnil⟩ | ⟨P, hP⟩
  · rw [hzero, hnil]
    exact ⟨Nat.zero_le _, fun _ => rfl, rfl⟩
  · refine ⟨taken_le hraft hP, fun hsm => ?_, rfl⟩
    have hdata := hencoded hsm _ hP
    dsimp only at hdata
    simp only [Rsm.make]
    rw [hdata, hsm.restored]

theorem Encoded.grow (hstep : raft.step a = some raft') (hsm : sm.Lawful) {t : Taken (Op n Req)}
    (ht : t ∈ raft.taken) : t.data = sm.snapshot (sm.run (raft'.operations.take t.index)) := by
  rw [take_of_initial (operations_step hraft hstep) (taken_le hraft ht)]
  exact hencoded hsm t ht

end

theorem Action.internal_unrecorded {C : Type} [Labgob C] {raft raft' : System n C}
    {a : Action n C} (ha : a.internal = true) (hr : raft.step a = some raft') :
    Unrecorded raft raft' raft.consumed := by
  cases Effect.of_step hr with
  | silent _ hrecord => exact hrecord
  | _ => cases ha

section

variable {s s' : RsmSystem n σ Req Rep}

theorem ReplicaInv.setRsm (h : ReplicaInv sm s) {i : Fin n} {rsm : Rsm n σ Req Rep}
    (hrsm : Replica sm s.raft.operations (s.raft.consumed i) rsm) :
    ReplicaInv sm (s.setRsm i rsm) where
  raft := h.raft
  replica j := by
    rcases eq_or_ne j i with rfl | hj
    · simpa [RsmSystem.setRsm] using hrsm
    · simpa [RsmSystem.setRsm, hj] using h.replica j
  encoded := h.encoded

theorem ReplicaInv.raft_step (h : ReplicaInv sm s) {a : Action n (Op n Req)}
    {raft : System n (Op n Req)} (hr : s.raft.step a = some raft)
    (hconsumed : raft.consumed = s.raft.consumed) (hencoded : Encoded sm raft) :
    ReplicaInv sm { s with raft := raft } where
  raft := h.raft.step hr
  replica j := by
    show Replica sm raft.operations (raft.consumed j) (s.rsms j)
    rw [hconsumed]
    exact (h.replica j).mono (operations_step h.raft hr)
  encoded := hencoded

theorem ReplicaInv.restart (h : ReplicaInv sm s) {i : Fin n} {epoch : ℕ}
    {a : Action n (Op n Req)} {raft : System n (Op n Req)} (ha : a.Restarts s.raft i)
    (hr : s.raft.step a = some raft) :
    ReplicaInv sm { s with
      raft := raft
      rsms := Function.update s.rsms i
        (.make sm epoch (raft.rf i).persister.snapshot (raft.procs i).consumed)
      epochs := (i, epoch) :: s.epochs } := by
  obtain ⟨-, hsame⟩ := Remade.restart ha hr
  have hmade : (raft.procs i).consumed = (raft.rf i).lastIncludedIndex := by
    have hi := congrFun hsame.consumed i
    rwa [Function.update_self] at hi
  have hraft := h.raft.step hr
  have hencoded : Encoded sm raft := by
    intro hsm t ht
    rw [hsame.taken] at ht
    exact h.encoded.grow h.raft hr hsm ht
  refine ⟨hraft, fun j => ?_, hencoded⟩
  show Replica sm raft.operations (raft.consumed j) (Function.update s.rsms i _ j)
  rw [hsame.consumed]
  rcases eq_or_ne j i with rfl | hj
  · rw [Function.update_self, Function.update_self, hmade]
    exact hencoded.make hraft j epoch
  · rw [Function.update_of_ne hj, Function.update_of_ne hj]
    exact (h.replica j).mono (operations_step h.raft hr)

theorem ReplicaInv.receive (h : ReplicaInv sm s) {i : Fin n} {m : ApplyMsg (Op n Req)}
    {rest : List (ApplyMsg (Op n Req))} {raft : System n (Op n Req)}
    (hidle : (s.rsms i).applier = .idle) (happlying : (s.raft.procs i).applying = m :: rest)
    (hr : s.raft.step (.send i) = some raft) :
    ReplicaInv sm { s.setRsm i { s.rsms i with applier := .received m } with raft := raft } := by
  have hsame := Unrecorded.send happlying hr
  have hgrow := operations_step h.raft hr
  refine ⟨h.raft.step hr, fun j => ?_, fun hsm t ht => ?_⟩
  · show Replica sm raft.operations (raft.consumed j) (Function.update s.rsms i _ j)
    rw [hsame.consumed]
    rcases eq_or_ne j i with rfl | hj
    · rw [Function.update_self, Function.update_self]
      have hold := h.replica j
      have hconsumed := hold.applier
      rw [hidle] at hconsumed
      have hheard := h.encoded.heard h.raft happlying
      rw [hconsumed] at hheard
      have hnew := hold.mono hgrow
      exact ⟨hnew.applied_le, hnew.state, rfl, hheard.mono hgrow⟩
    · rw [Function.update_of_ne hj, Function.update_of_ne hj]
      exact (h.replica j).mono hgrow
  · change t ∈ raft.taken at ht
    rw [hsame.taken] at ht
    exact h.encoded.grow h.raft hr hsm ht

omit [Labgob (Op n Req)] in
theorem Replica.install {ops : List (Op n Req)} {consumed : ℕ} {rsm : Rsm n σ Req Rep}
    (h : Replica sm ops consumed rsm) {m : SnapshotMsg}
    (hm : rsm.applier = .received (.snapshot m)) :
    Replica sm ops consumed { rsm with
      state := if 0 < m.snapshot.length then sm.restore rsm.state m.snapshot else rsm.state
      applied := m.snapshotIndex
      applier := .idle } := by
  have happlier := h.applier
  rw [hm] at happlier
  obtain ⟨hconsumed, -, hle, hdata⟩ := happlier
  refine ⟨hle, fun hsm => ?_, hconsumed⟩
  simp only [hdata hsm, hsm.restored]

omit [Labgob (Op n Req)] in
theorem Replica.doOp {ops : List (Op n Req)} {consumed : ℕ} {rsm : Rsm n σ Req Rep}
    (h : Replica sm ops consumed rsm) {op : Op n Req} {index : ℕ}
    (hm : rsm.applier = .received (.command (some op) index)) :
    Replica sm ops consumed { rsm with
      state := (sm.doOp rsm.state op.req).1
      applied := index
      applier := .executed index op.id (sm.doOp rsm.state op.req).2 } := by
  have happlier := h.applier
  rw [hm] at happlier
  obtain ⟨hconsumed, rfl, op', hop', hget⟩ := happlier
  obtain rfl : op = op' := Option.some.inj hop'
  refine ⟨(List.getElem?_eq_some_iff.mp hget).1, fun hsm => ?_, hconsumed, rfl⟩
  simp only [sm.run_take_succ hget, h.state hsm]

/-- A snapshot that the applier hands to its server is one of what the
replica has executed. -/
theorem ReplicaInv.compact (h : ReplicaInv sm s) {i : Fin n} {index : ℕ} {id : OpID n}
    {reply : Rep} {raft : System n (Op n Req)}
    (hpc : (s.rsms i).applier = .executed index id reply)
    (hr : s.raft.step (.snapshot i index (sm.snapshot (s.rsms i).state)) = some raft) :
    ReplicaInv sm { s with raft := raft } := by
  have hold : ∀ hsm : sm.Lawful, ∀ t ∈ s.raft.taken,
      t.data = sm.snapshot (sm.run (raft.operations.take t.index)) :=
    fun hsm t ht => h.encoded.grow h.raft hr hsm ht
  cases Effect.of_step hr with
  | silent _ hrecord =>
      refine h.raft_step hr hrecord.consumed fun hsm t ht => ?_
      rw [hrecord.taken] at ht
      exact hold hsm t ht
  | snapshot _ hrecord =>
      refine h.raft_step hr hrecord.consumed fun hsm t ht => ?_
      rw [hrecord.taken] at ht
      rcases List.mem_cons.mp ht with rfl | ht
      · have hreplica := (h.replica i).mono (operations_step h.raft hr)
        have happlier := hreplica.applier
        rw [hpc] at happlier
        show sm.snapshot (s.rsms i).state = _
        rw [hreplica.state hsm, happlier.2]
      · exact hold hsm t ht

theorem ReplicaInv.setSubmission (h : ReplicaInv sm s) (id : OpID n) (sub : Submission Req Rep) :
    ReplicaInv sm (s.setSubmission id sub) :=
  ⟨h.raft, h.replica, h.encoded⟩

theorem ReplicaInv.step (h : ReplicaInv sm s) (hs : RsmStep sm s s') : ReplicaInv sm s' := by
  cases hs with
  | raft a raft ha hr =>
      have hsame := Action.internal_unrecorded ha hr
      refine h.raft_step hr hsame.consumed fun hsm t ht => ?_
      rw [hsame.taken] at ht
      exact h.encoded.grow h.raft hr hsm ht
  | restart i epoch a raft ha hr hfresh => exact h.restart ha hr
  | receive i m rest raft hidle happlying hr => exact h.receive hidle happlying hr
  | install i m hm => exact h.setRsm ((h.replica i).install hm)
  | doOp i op index hm => exact h.setRsm ((h.replica i).doOp hm)
  | compact i index id reply raft hpc hr =>
      have hraft : ReplicaInv sm { s with raft := raft } := by
        rcases hr with rfl | hr
        · exact h
        · exact h.compact hpc hr
      have hreplica := hraft.replica i
      have happlier := hreplica.applier
      rw [hpc] at happlier
      exact hraft.setRsm ⟨hreplica.applied_le, hreplica.state, happlier.1⟩
  | wake i id reply sub hpc hsub =>
      have happlier := (h.replica i).applier
      rw [hpc] at happlier
      refine ReplicaInv.setSubmission (h.setRsm ?_) _ _
      exact ⟨(h.replica i).applied_le, (h.replica i).state, happlier⟩
  | pass i id reply hpc =>
      have happlier := (h.replica i).applier
      rw [hpc] at happlier
      exact h.setRsm ⟨(h.replica i).applied_le, (h.replica i).state, happlier⟩
  | submit i req timeout =>
      have hreplica := h.replica i
      refine ReplicaInv.setSubmission (h.setRsm ?_) _ _
      exact ⟨hreplica.applied_le, hreplica.state, hreplica.applier⟩
  | start id sub phase raft hsub hphase hr hnew hresult =>
      cases Effect.of_step hr with
      | silent _ hrecord | start _ _ hrecord =>
          refine (h.raft_step hr hrecord.consumed fun hsm t ht => ?_).setSubmission _ _
          rw [hrecord.taken] at ht
          exact h.encoded.grow h.raft hr hsm ht
  | advance id sub phase waits hsub hnew hresult => exact h.setSubmission _ _

theorem ReplicaInv.init (epoch : Fin n → ℕ) : ReplicaInv sm (RsmSystem.init sm epoch) where
  raft := .init rfl
  replica i := ⟨Nat.zero_le _, fun _ => rfl, rfl⟩
  encoded hsm t ht := by cases ht

theorem ReplicaInv.reachable {epoch : Fin n → ℕ} (hs : (rsmSys sm epoch).Reachable s) :
    ReplicaInv sm s :=
  hs.invariant (fun _ hi => hi ▸ .init epoch) fun _ _ _ _ ih hstep => ih.step (.of_step hstep)

end

end

/-- **The state of a replica is the fold of the committed operations** up
to the last message its applier has executed, which is the last message
it has received unless it is at work on one; and a stored snapshot
encodes the fold up to its index. -/
theorem replica_state [Labgob (Op n Req)] {sm : StateMachine σ Req Rep} (hsm : sm.Lawful)
    {epoch : Fin n → ℕ} {s : RsmSystem n σ Req Rep} (hs : (rsmSys sm epoch).Reachable s) :
    s.raft.operations.map some = s.raft.committed.map LogEntry.command ∧
    ∀ i, (s.rsms i).applied ≤ s.raft.operations.length ∧
      (s.rsms i).state = sm.run (s.raft.operations.take (s.rsms i).applied) ∧
      ((s.rsms i).applier = .idle → (s.rsms i).applied = s.raft.consumed i) ∧
      let stored := (s.raft.rf i).persister
      let index := (stored.raftstate.getD (RaftState.initial n (Op n Req))).lastIncludedIndex
      (index = 0 ∧ stored.snapshot = [] ∨ index ≤ s.raft.operations.length ∧
        stored.snapshot = sm.snapshot (sm.run (s.raft.operations.take index))) := by
  have h := ReplicaInv.reachable hs
  refine ⟨map_operations h.raft, fun i => ?_⟩
  have hreplica := h.replica i
  refine ⟨hreplica.applied_le, hreplica.state hsm, fun hidle => ?_, ?_⟩
  · have happlier := hreplica.applier
    rw [hidle] at happlier
    exact happlier.symm
  · obtain ⟨A, hA, hrel⟩ := exists_rel h.raft
    have hindex : ((s.raft.rf i).persister.raftstate.getD
        (RaftState.initial n (Op n Req))).lastIncludedIndex = (s.raft.rf i).lastIncludedIndex := by
      rw [(hrel.server i).synced.state]
      rfl
    dsimp only
    rw [hindex]
    exact (persisted_snapshot h.raft i).imp_right fun ⟨P, hP⟩ =>
      ⟨taken_le h.raft hP, h.encoded hsm _ hP⟩

/-! ### Two small state machines -/

def unary (k : ℕ) : Bytes := List.replicate k 1 ++ [0]

def readUnary : Bytes → Option (ℕ × Bytes)
  | [] => none
  | b :: bs => if b = 0 then some (0, bs) else (readUnary bs).map fun (k, rest) => (k + 1, rest)

theorem readUnary_unary (k : ℕ) (rest : Bytes) : readUnary (unary k ++ rest) = some (k, rest) := by
  induction k with
  | zero => rfl
  | succ k ih =>
      rw [unary, List.replicate_succ, List.cons_append, List.cons_append, readUnary,
        if_neg (by decide)]
      rw [unary] at ih
      rw [ih]
      rfl

/-- An encoding of operations that set a Boolean. -/
instance : Labgob (Op n Bool) where
  encodeLogEntry e := unary e.term ++ match e.command with
    | none => []
    | some op => unary op.server ++ (unary op.epoch ++ (unary op.sequence ++
        [if op.req then 1 else 0]))
  decodeLogEntry data := do
    let (term, data) ← readUnary data
    if data = [] then some ⟨term, none⟩
    else do
      let (server, data) ← readUnary data
      let (epoch, data) ← readUnary data
      let (sequence, data) ← readUnary data
      if h : server < n then some ⟨term, some ⟨⟨server, h⟩, epoch, sequence, data = [1]⟩⟩ else none
  decode_encode e := by
    obtain ⟨term, command⟩ := e
    rcases command with _ | ⟨server, epoch, sequence, req⟩
    · simp only [readUnary_unary, Option.bind_eq_bind, Option.bind_some, if_true]
    · have hne : ∀ k rest, unary k ++ rest ≠ [] := by simp [unary]
      simp only [readUnary_unary, Option.bind_eq_bind, Option.bind_some, if_neg (hne _ _),
        server.isLt, dite_true, Fin.eta]
      cases req <;> rfl

/-- A register: an operation sets it and returns the old value. The
snapshot of `true` is `code`. -/
def register (code : Bytes) : StateMachine Bool Bool Bool where
  initial := false
  doOp st b := (b, st)
  snapshot st := if st then code else [0]
  restore _ data := data = code

/-- One server sets the register, takes a snapshot and is started again. -/
def setAndRestart : List (RsmAction 1 Bool) :=
  [.raft (.startElection 0), .submit 0 true false, .start ⟨0, 0, 1⟩, .raft (.claim 0), .receive 0,
    .execute 0, .compact 0 true, .notify 0, .restart 0 1]

theorem replica_state_register :
    let sm := register [1]
    let s := play (RsmSystem.step sm) (RsmSystem.init sm fun _ => 0) setAndRestart
    (s.rsms 0).applied = 1 ∧ (s.rsms 0).epoch = 1 ∧
      (s.rsms 0).state = sm.run (s.raft.operations.take 1) := by
  have hlawful : (register [1]).Lawful := ⟨by decide, by decide⟩
  have hstate := (replica_state hlawful (reachable_play (RsmSystem.init (register [1]) fun _ => 0)
    (RsmSystem.step (register [1])) setAndRestart)).2 0
  have happlied : ((play (RsmSystem.step (register [1])) (RsmSystem.init (register [1]) fun _ => 0)
      setAndRestart).rsms 0).applied = 1 := by decide +kernel
  refine ⟨happlied, by decide +kernel, ?_⟩
  rw [hstate.2.1, happlied]

/-- With an empty snapshot `Restore` still undoes `Snapshot`, but after a
restart it is not called, and the replica has lost the operation. -/
theorem replica_state_empty_snapshot :
    let sm := register []
    let s := play (RsmSystem.step sm) (RsmSystem.init sm fun _ => 0) setAndRestart
    (∀ st st', sm.restore st' (sm.snapshot st) = st) ∧
      (rsmSys sm fun _ => 0).Reachable s ∧ (s.rsms 0).applied = 1 ∧
      (s.rsms 0).state ≠ sm.run (s.raft.operations.take 1) :=
  ⟨by decide, reachable_play _ _ _, by decide +kernel, by decide +kernel⟩

end RaftShardedKv
