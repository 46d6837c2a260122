import RaftShardedKv.Raft.Simulation

/-!
What one step of the cluster can do to one server. `LocalStep` lists the
states a critical section can end in; `Rel.local_step` says that a server
whose process lives on through a step makes one of these. Facts about
single variables of a server, such as which ones only grow, are then read
off the list.
-/

namespace RaftShardedKv

open TermLog Consensus Transition

variable {n : ℕ} {C : Type} [Labgob C]

/-- The outcomes of a critical section of `rf`, which holds `L`. -/
inductive LocalStep (rf : Raft n C) (L : List (LogEntry C)) : Raft n C → Prop
  | same : LocalStep rf L rf
  | follow (t : ℕ) : LocalStep rf L (rf.follow t)
  | enter (t : ℕ) : LocalStep rf L (rf.enter t)
  | vote (t : ℕ) (c : Fin n) : LocalStep rf L ((rf.enter t).voteFor c)
  | stand : LocalStep rf L rf.stand
  | standAlone : LocalStep rf L rf.stand.becomeLeaderLocked
  | lead (hcand : rf.state = .candidate) : LocalStep rf L rf.becomeLeaderLocked
  | merge (t leaderCommit lastNewIndex : ℕ) (L' : List (LogEntry C)) :
      LocalStep rf L ((rf.adoptLog t L').followCommit leaderCommit lastNewIndex)
  | heard (t leaderCommit lastNewIndex : ℕ) :
      LocalStep rf L ((rf.follow t).followCommit leaderCommit lastNewIndex)
  | install (L' : List (LogEntry C)) (args : InstallSnapshotArgs n)
      (h : rf.commitIndex < args.lastIncludedIndex) : LocalStep rf L (rf.install L' args)
  | append (command : C) : LocalStep rf L (rf.appended L command)
  | appendAlone (command : C) : LocalStep rf L (rf.appended L command).advanceCommitIndexLocked
  | fold (index : ℕ) (data : Bytes) (hbase : rf.lastIncludedIndex < index)
      (happlied : index ≤ rf.lastApplied) : LocalStep rf L (rf.fold L index data)
  | progress (peer : Fin n) (index : ℕ) (hindex : index ≤ L.length) :
      LocalStep rf L (rf.progress peer index)
  | progressAdvance (peer : Fin n) (index : ℕ) (hindex : index ≤ L.length) :
      LocalStep rf L (rf.progress peer index).advanceCommitIndexLocked
  | backOff (peer : Fin n) (reply : AppendEntriesReply) :
      LocalStep rf L { rf with
        nextIndex := Function.update rf.nextIndex peer (rf.backOff peer reply) }
  | kill : LocalStep rf L rf.kill

omit [Labgob C] in
/-- The loop of `advanceCommitIndexLocked` changes nothing but the commit
index, and only upwards. -/
theorem Raft.advance_eq (rf : Raft n C) :
    ∃ c, rf.commitIndex ≤ c ∧ rf.advanceCommitIndexLocked = { rf with commitIndex := c } := by
  have hloop : ∀ k, ∃ c, rf.commitIndex ≤ c ∧ rf.advanceFrom k = { rf with commitIndex := c } := by
    intro k
    induction k with
    | zero => exact ⟨rf.commitIndex, le_rfl, rfl⟩
    | succ k ih =>
        rw [Raft.advanceFrom]
        split_ifs with hlt
        · exact ⟨k + 1, hlt.le, rfl⟩
        · exact ih
        · exact ⟨rf.commitIndex, le_rfl, rfl⟩
  unfold Raft.advanceCommitIndexLocked
  split
  · exact ⟨rf.commitIndex, le_rfl, rfl⟩
  · exact hloop _

/-- Within the life of a process the commit index only grows. -/
theorem LocalStep.commit_le {rf rf' : Raft n C} {L : List (LogEntry C)}
    (h : LocalStep rf L rf') : rf.commitIndex ≤ rf'.commitIndex := by
  have henter : ∀ t, (rf.enter t).commitIndex = rf.commitIndex := by
    intro t
    unfold Raft.enter
    split <;> simp
  cases h with
  | follow t => simp
  | enter t => rw [henter]
  | vote t c => exact (henter t).ge
  | merge t leaderCommit lastNewIndex L' =>
      rw [Raft.followCommit_eq]
      simp [Raft.adoptLog, Raft.saved, Raft.withLog, Raft.replaceLogs, Raft.rebuildEncodedLogs]
  | heard t leaderCommit lastNewIndex =>
      rw [Raft.followCommit_eq]
      simp
  | install L' args hlt => exact hlt.le
  | appendAlone command =>
      obtain ⟨c, hc, heq⟩ := (rf.appended L command).advance_eq
      rw [heq]
      exact hc
  | progressAdvance peer index hindex =>
      obtain ⟨c, hc, heq⟩ := (rf.progress peer index).advance_eq
      rw [heq]
      exact hc
  | kill =>
      unfold Raft.kill
      split <;> exact le_rfl
  | _ => exact le_rfl

/-- What a step can do to a process that holds `L`. -/
inductive ProcStep (i : Fin n) (p : Proc n C) (L : List (LogEntry C)) : Proc n C → Prop
  | act (rf : Raft n C) (votes : ℕ → ℕ) (h : LocalStep p.rf L rf) :
      ProcStep i p L { p with rf := rf, votes := votes }
  | claimSnapshot (m : SnapshotMsg) (hidle : p.applying = [])
      (hpending : p.rf.pendingSnapshot = some m) :
      ProcStep i p L { p with
        rf := { p.rf with pendingSnapshot := none }
        applying := [.snapshot m] }
  | claimCommands (hidle : p.applying = []) (hpending : p.rf.pendingSnapshot = none)
      (hlt : p.rf.lastApplied < p.rf.commitIndex) :
      ProcStep i p L { p with
        rf := { p.rf with lastApplied := p.rf.commitIndex }
        applying := Raft.commandsOf L (p.rf.lastApplied + 1) p.rf.commitIndex }
  | send (m : ApplyMsg C) (rest : List (ApplyMsg C)) (happlying : p.applying = m :: rest) :
      ProcStep i p L { p with applying := rest, consumed := m.index }
  | restart (rf : Raft n C) (hrf : rf = p.rf ∨ ∃ t, rf = p.rf.follow t) :
      ProcStep i p L (.fresh (rf.remade i) (p.incarnation + 1))

section

variable {s s' : System n C} {A : Abstract n C}

theorem ProcStep.of_local {i : Fin n} {rf : Raft n C} {votes : ℕ → ℕ}
    (hs : s'.procs = Function.update s.procs i { s.procs i with rf := rf, votes := votes })
    (hstep : LocalStep (s.rf i) (A.log i) rf) (j : Fin n) :
    s'.procs j = s.procs j ∨ ProcStep j (s.procs j) (A.log j) (s'.procs j) := by
  rw [hs]
  rcases eq_or_ne j i with rfl | hj
  · rw [Function.update_self]
    exact Or.inr (.act rf votes hstep)
  · exact Or.inl (Function.update_of_ne hj _ _)

omit [Labgob C] in
theorem System.setVotes_procs (s : System n C) (i : Fin n) (rf : Raft n C) (term votes : ℕ) :
    ((s.setRf i rf).setVotes i term votes).procs = Function.update s.procs i { s.procs i with
      rf := rf, votes := Function.update (s.procs i).votes term votes } := by
  simp [System.setRf, System.setRfFrom, System.setVotes, System.setProc]

/-- The critical section at the receiver of a call. -/
theorem Rel.deliver_request_local (h : Rel s A) {k : ℕ} {c : Call n C}
    (hk : s.net[k]? = some c) (hreq : c.rpc.requestTerm ≠ none)
    (hs : s.deliver k c = some s') (j : Fin n) :
    s'.procs j = s.procs j ∨ ProcStep j (s.procs j) (A.log j) (s'.procs j) := by
  have hc := h.call c (List.mem_of_getElem? hk)
  have hserver := h.server c.dst
  obtain ⟨src, incarnation, dst, rpc⟩ := c
  cases rpc with
  | requestVote args reply =>
      cases reply with
      | some r => exact absurd rfl hreq
      | none =>
          obtain ⟨rf, reply, hrun, hcases⟩ := hserver.holds.requestVote args
          simp only [System.deliver, hrun, Option.bind_eq_bind, Option.bind_some,
            Option.some.injEq] at hs
          subst hs
          refine ProcStep.of_local (i := dst) rfl ?_ j
          rcases hcases with ⟨-, rfl, -⟩ | ⟨-, -, rfl, -⟩ | ⟨-, -, -, -, rfl, -⟩
          · exact .same
          · exact .enter _
          · exact .vote _ _
  | appendEntries args reply | heartbeat args reply =>
      cases reply with
      | some r => exact absurd rfl hreq
      | none =>
          obtain ⟨rf, reply, hrun, hcases⟩ := hserver.holds.appendEntries args
          simp only [System.deliver, hrun, Option.bind_eq_bind, Option.bind_some,
            Option.some.injEq] at hs
          subst hs
          refine ProcStep.of_local (i := dst) rfl ?_ j
          rcases hcases with ⟨-, rfl, -⟩ | ⟨-, -, rfl, -⟩ |
            ⟨-, -, -, -, -, -, rf₁, rfl, rfl | ⟨-, rfl⟩⟩
          · exact .same
          · exact .follow _
          · exact .merge _ _ _ _
          · exact .heard _ _ _
  | installSnapshot args P reply =>
      cases reply with
      | some r => exact absurd rfl hreq
      | none =>
          obtain ⟨-, -, hlen, hterm, -⟩ := hc.1
          obtain ⟨rf, reply, hrun, hcases⟩ := hserver.holds.installSnapshot
            (hserver.base_le.trans hserver.applied_le) args hlen hterm
          simp only [System.deliver, hrun, Option.bind_eq_bind, Option.bind_some,
            Option.some.injEq] at hs
          subst hs
          refine ProcStep.of_local (i := dst) rfl ?_ j
          rcases hcases with ⟨-, rfl, -⟩ | ⟨-, -, rfl, -⟩ | ⟨-, -, -, rfl⟩ | ⟨-, -, hlt, rfl⟩
          · exact .same
          · exact .same
          · exact .follow _
          · exact .install _ _ hlt

theorem EntriesRel.le_length {src : Fin n} {rf : Raft n C} {args : AppendEntriesArgs n C}
    (h : EntriesRel A src args) (hA : (abstractSys n C).Reachable A) (hserver : ServerRel A src rf)
    (hlead : rf.state = .leader) (hterm : rf.currentTerm = args.term) :
    args.prevLogIndex + args.entries.length ≤ (A.log src).length := by
  obtain ⟨-, P, hP, hprev, -, hdrop, -⟩ := h
  have hlength := congrArg List.length hdrop
  rw [List.length_drop] at hlength
  rw [(hserver.leader_log hA hlead).2, hterm]
  have := hP.length_le
  omega

theorem SnapshotRel.le_length {src : Fin n} {rf : Raft n C} {args : InstallSnapshotArgs n}
    {P : List (LogEntry C)} (h : SnapshotRel A src args P) (hA : (abstractSys n C).Reachable A)
    (hserver : ServerRel A src rf) (hlead : rf.state = .leader)
    (hterm : rf.currentTerm = args.term) : args.lastIncludedIndex ≤ (A.log src).length := by
  obtain ⟨-, hP, hlength, -⟩ := h
  rw [(hserver.leader_log hA hlead).2, hterm, ← hlength]
  exact hP.length_le

/-- The critical section at the caller when a reply has come. -/
theorem Rel.deliver_reply_local (h : Rel s A) (hA : (abstractSys n C).Reachable A) {k : ℕ}
    {c : Call n C} (hk : s.net[k]? = some c) (hreply : c.rpc.requestTerm = none)
    (hs : s.deliver k c = some s') (j : Fin n) :
    s'.procs j = s.procs j ∨ ProcStep j (s.procs j) (A.log j) (s'.procs j) := by
  have hc := h.call c (List.mem_of_getElem? hk)
  have hserver := h.server c.src
  obtain ⟨src, incarnation, dst, rpc⟩ := c
  cases rpc with
  | requestVote args reply =>
      cases reply with
      | none => simp [Rpc.requestTerm] at hreply
      | some reply =>
          obtain ⟨rf, votes, hrun, hcases⟩ := hserver.holds.requestVoteReply args.term
            ((s.procs src).votes args.term) reply
          simp only [System.deliver, hrun, Option.bind_eq_bind, Option.bind_some,
            Option.some.injEq] at hs
          subst hs
          refine ProcStep.of_local (s.setVotes_procs src rf args.term votes) ?_ j
          rcases hcases with ⟨rfl, -⟩ | ⟨-, rfl, -⟩ | ⟨hcand, -, -, -, ⟨-, rfl⟩ | ⟨-, rfl⟩⟩
          · exact .same
          · exact .follow _
          · exact .lead hcand
          · exact .same
  | appendEntries args reply =>
      cases reply with
      | none => simp [Rpc.requestTerm] at hreply
      | some reply =>
          obtain ⟨rf, hrun, hcases⟩ := hserver.holds.appendEntriesReply dst args reply
          simp only [System.deliver, hrun, Option.bind_eq_bind, Option.bind_some,
            Option.some.injEq] at hs
          subst hs
          refine ProcStep.of_local (i := src) rfl ?_ j
          rcases hcases with rfl | ⟨-, rfl⟩ | ⟨-, hlead, hterm, rfl | rfl⟩ | ⟨-, -, -, -, rfl⟩
          · exact .same
          · exact .follow _
          · exact .progress _ _ (hc.1.le_length hA hserver hlead hterm)
          · exact .progressAdvance _ _ (hc.1.le_length hA hserver hlead hterm)
          · exact .backOff _ _
  | heartbeat args reply =>
      cases reply with
      | none => simp [Rpc.requestTerm] at hreply
      | some reply =>
          obtain ⟨rf, hrun, hcases⟩ := hserver.holds.heartbeatReply reply
          simp only [System.deliver, hrun, Option.bind_eq_bind, Option.bind_some,
            Option.some.injEq] at hs
          subst hs
          refine ProcStep.of_local (i := src) rfl ?_ j
          rcases hcases with rfl | ⟨-, rfl⟩
          · exact .same
          · exact .follow _
  | installSnapshot args P reply =>
      cases reply with
      | none => simp [Rpc.requestTerm] at hreply
      | some reply =>
          obtain ⟨rf, hrun, hcases⟩ := hserver.holds.installSnapshotReply dst args reply
          simp only [System.deliver, hrun, Option.bind_eq_bind, Option.bind_some,
            Option.some.injEq] at hs
          subst hs
          refine ProcStep.of_local (i := src) rfl ?_ j
          rcases hcases with rfl | ⟨-, rfl⟩ | ⟨-, -, hlead, hterm, rfl⟩
          · exact .same
          · exact .follow _
          · exact .progress _ _ (hc.1.le_length hA hserver hlead hterm)

theorem Rel.claim_local (h : Rel s A) (hA : (abstractSys n C).Reachable A) {i : Fin n}
    (hs : s.step (.claim i) = some s') (j : Fin n) :
    s'.procs j = s.procs j ∨ ProcStep j (s.procs j) (A.log j) (s'.procs j) := by
  simp only [System.step] at hs
  split at hs
  · rename_i hready
    obtain ⟨rf, messages, hrun, hm, -, hcases⟩ := (h.server i).applierClaim hA hready.1
    simp only [hrun, Option.bind_eq_bind, Option.bind_some, Option.some.injEq, h.setRf_eq hm] at hs
    rw [System.become_setProc _ _ _ _ (by rfl)] at hs
    subst hs
    rcases eq_or_ne j i with rfl | hj
    · rw [System.become_procs_self]
      rcases hcases with ⟨message, hpending, rfl, rfl⟩ | ⟨hnone, hlt, rfl, rfl⟩
      · exact Or.inr (.claimSnapshot message hready.2 hpending)
      · exact Or.inr (.claimCommands hready.2 hnone hlt)
    · exact Or.inl (System.become_procs_ne _ _ _ _ hj)
  · cases hs

theorem Rel.reboot_local (h : Rel s A) {i : Fin n}
    (hs : s.reboot i = some s') (j : Fin n) :
    s'.procs j = if j = i then .fresh ((s.rf i).remade i) ((s.procs i).incarnation + 1)
      else s.procs j := by
  simp only [System.reboot, (h.server i).holds.make (h.server i).synced i, Option.bind_eq_bind,
    Option.bind_some, Option.some.injEq, h.setRf_eq (h.server i).remade] at hs
  rw [System.become_setProc _ _ _ _ (by rfl)] at hs
  subst hs
  split
  · rename_i hj
    subst hj
    simp
  · rename_i hj
    exact System.become_procs_ne _ _ _ _ hj

/-- **What a step does to each process.** -/
theorem Rel.proc_step (h : Rel s A) (hA : (abstractSys n C).Reachable A) {a : Action n C}
    (hs : s.step a = some s') (j : Fin n) :
    s'.procs j = s.procs j ∨ ProcStep j (s.procs j) (A.log j) (s'.procs j) := by
  cases a with
  | startElection i =>
      simp only [System.step] at hs
      split at hs
      · cases hs
      rw [(h.server i).holds.startElection] at hs
      simp only [Option.bind_eq_bind, Option.bind_some] at hs
      by_cases hone : n / 2 + 1 ≤ 1
      · simp only [if_pos hone, Option.some.injEq] at hs
        subst hs
        exact ProcStep.of_local (s.setVotes_procs i _ _ _) .standAlone j
      · simp only [if_neg hone, Option.some.injEq] at hs
        subst hs
        exact ProcStep.of_local (s.setVotes_procs i _ _ _) .stand j
  | start i command =>
      simp only [System.step, (h.server i).holds.start command, Option.bind_eq_bind,
        Option.bind_some] at hs
      by_cases hno : (s.rf i).dead = true ∨ (s.rf i).state ≠ .leader
      · simp only [if_pos hno, Option.some.injEq] at hs
        subst hs
        exact ProcStep.of_local (i := i) rfl .same j
      · simp only [if_neg hno, Option.some.injEq] at hs
        subst hs
        refine ProcStep.of_local (i := i) rfl ?_ j
        split
        · exact .appendAlone command
        · exact .append command
  | snapshot i index data =>
      obtain ⟨rf, hrun, hcases⟩ := (h.server i).holds.takeSnapshot index data
      simp only [System.step, hrun, Option.bind_eq_bind, Option.bind_some] at hs
      have hlocal : LocalStep (s.rf i) (A.log i) rf := by
        rcases hcases with rfl | ⟨-, hbase, happlied, -, rfl⟩
        · exact .same
        · exact .fold index data hbase happlied
      split at hs <;> cases hs <;> exact ProcStep.of_local (i := i) rfl hlocal j
  | replicate i peer =>
      simp only [System.step] at hs
      split at hs
      · cases hs
      obtain ⟨request, hrun, -⟩ := (h.server i).holds.replicationRequest peer
      simp only [hrun, Option.bind_eq_bind, Option.bind_some] at hs
      split at hs <;> cases hs <;> exact Or.inl rfl
  | heartbeat i peer =>
      simp only [System.step] at hs
      split at hs
      · cases hs
      simp only [(h.server i).holds.heartbeatRequest, Option.bind_eq_bind, Option.bind_some] at hs
      split at hs <;> cases hs
      exact Or.inl rfl
  | deliver k =>
      simp only [System.step, Option.bind_eq_bind] at hs
      obtain ⟨c, hk, hs⟩ := Option.bind_eq_some_iff.mp hs
      split at hs
      · cases hs
      · by_cases hreq : c.rpc.requestTerm = none
        · exact h.deliver_reply_local hA hk hreq hs j
        · exact h.deliver_request_local hk hreq hs j
  | drop k =>
      simp only [System.step] at hs
      split at hs <;> cases hs
      exact Or.inl rfl
  | claim i => exact h.claim_local hA hs j
  | send i =>
      simp only [System.step] at hs
      split at hs
      · cases hs
      · rename_i message rest happlying
        cases hs
        rcases eq_or_ne j i with rfl | hj
        · right
          simp only [System.setProc, Function.update_self]
          exact .send message rest happlying
        · exact Or.inl (by simp [System.setProc, hj])
  | kill i =>
      simp only [System.step, Option.some.injEq] at hs
      subst hs
      exact ProcStep.of_local (i := i) rfl .kill j
  | restart i =>
      rw [h.reboot_local hs j]
      split
      · rename_i hj
        subst hj
        exact Or.inr (.restart _ (Or.inl rfl))
      · exact Or.inl rfl
  | crashDuring k =>
      simp only [System.step, Option.bind_eq_bind] at hs
      obtain ⟨c, -, hs⟩ := Option.bind_eq_some_iff.mp hs
      obtain ⟨term, -, hs⟩ := Option.bind_eq_some_iff.mp hs
      split at hs
      · cases hs
      · rename_i hlive
        push Not at hlive
        have hm := (h.server c.dst).follow hA hlive.2
        have hclosed := h.close hA k hm (.follow _ _)
        simp only [(h.server c.dst).holds.becomeFollowerLocked, Option.bind_some] at hs
        rw [hclosed.reboot_local hs j]
        split
        · rename_i hj
          subst hj
          right
          simp only [System.close, System.setRf, System.setRfFrom, System.rf,
            Function.update_self]
          exact .restart _ (Or.inr ⟨term, rfl⟩)
        · rename_i hj
          exact Or.inl (by simp [System.close, System.setRf, System.setRfFrom, hj])

theorem Rel.commit_le (h : Rel s A) (hA : (abstractSys n C).Reachable A) {a : Action n C}
    (hs : s.step a = some s') {j : Fin n}
    (hlife : (s'.procs j).incarnation = (s.procs j).incarnation) :
    (s.rf j).commitIndex ≤ (s'.rf j).commitIndex := by
  rcases h.proc_step hA hs j with hsame | hstep
  · rw [System.rf, System.rf, hsame]
  · unfold System.rf
    generalize s'.procs j = p' at hstep hlife ⊢
    cases hstep with
    | act rf votes hlocal => exact hlocal.commit_le
    | restart rf hrf => simp [Proc.fresh] at hlife
    | _ => exact le_rfl

end

end RaftShardedKv
