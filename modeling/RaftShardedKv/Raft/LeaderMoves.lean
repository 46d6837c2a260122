import RaftShardedKv.Raft.Moves

/-!
The moves of a server on its own account: leading, taking in replies,
serving its own state machine, stopping and starting again. And the
requests it builds, each of which says something true about the history.
-/

namespace RaftShardedKv

open TermLog Consensus Transition

variable {n : ℕ} {C : Type} [Labgob C]

variable {A : Abstract n C} {i : Fin n} {rf : Raft n C}
  (hA : (abstractSys n C).Reachable A) (h : ServerRel A i rf)

include hA h

/-! ### Leading -/

theorem ServerRel.leader_log (hlead : rf.state = .leader) :
    A.leader rf.currentTerm = some i ∧ A.log i = A.lead rf.currentTerm := by
  have hinv := Inv.reachable hA
  have hrole : A.role i = .leader := h.role.trans hlead
  rw [← h.term]
  exact ⟨hinv.election.leader_role hrole, hinv.logs.leader_log hrole⟩

/-- The count of `matchIndex` is a quorum of confirmations, so the entry
that `advanceCommitIndexLocked` finds is committed. -/
theorem ServerRel.committed {N : ℕ} (hlead : rf.state = .leader) (hpos : 1 ≤ N)
    (hN : N ≤ (A.log i).length) (hterm : termAt (A.log i) N = rf.currentTerm)
    (hcount : n / 2 + 1 ≤ rf.replicated N) : Committed A rf.currentTerm N := by
  obtain ⟨hleader, hlog⟩ := h.leader_log hA hlead
  refine ⟨by rw [hleader]; simp, hpos, hlog ▸ hN, hlog ▸ hterm, ?_⟩
  refine ⟨Finset.univ.filter fun peer => N ≤ rf.matchIndex peer, ?_, ?_⟩
  · rw [Fintype.card_fin]
    exact hcount
  · intro v hv
    exact (Finset.mem_filter.mp hv).2.trans (h.matched hlead v)

theorem ServerRel.advance :
    ∃ A', Move A i (A.log i) rf.advanceCommitIndexLocked A' ∧
      Quiet rf rf.advanceCommitIndexLocked := by
  rcases h.holds.advanceCommitIndexLocked (h.base_le.trans h.applied_le) with
    hsame | ⟨N, hlead, hlt, hN, hterm, hcount, heq⟩
  · rw [hsame]
    exact ⟨A, h.stay, .refl _⟩
  · have hcommitted := h.committed hA hlead (by omega) hN hterm hcount
    obtain ⟨-, hlog⟩ := h.leader_log hA hlead
    have hstep : Step A (A.setCommit i N) := by
      refine .commit i N hN (Or.inr ⟨rf.currentTerm, N, h.term.ge, hcommitted, ?_⟩)
      rw [hlog]
    rw [heq]
    refine ⟨A.setCommit i N, ⟨.single (a := ()) hstep, .setCommit .., ?_, rfl,
        fun _ _ _ he _ => Or.inl he⟩,
      ⟨fun hc => ⟨hc, rfl⟩, rfl, rfl, fun _ hm => hm⟩⟩
    exact
      { me := h.me
        term := h.term
        role := h.role
        vote := h.vote
        commit := by simp [Cluster.setCommit]
        holds := ⟨h.holds.base_le, h.holds.base_term, h.holds.logs, h.holds.encoded⟩
        synced := ⟨h.synced.state, h.synced.snapshot⟩
        base_le := h.base_le
        applied_le := h.applied_le.trans hlt.le
        pending_le := h.pending_le
        matched := h.matched }

/-- What a leader that holds `L` writes for a command. -/
def Raft.NewEntry (rf : Raft n C) (L : List (LogEntry C)) (command : C) (T k : ℕ)
    (e : LogEntry C) : Prop :=
  T = rf.currentTerm ∧ k = L.length ∧ e = ⟨rf.currentTerm, some command⟩

theorem ServerRel.appended (hlead : rf.state = .leader) (command : C) :
    Writes (rf.NewEntry (A.log i) command) A i (A.log i) (rf.appended (A.log i) command)
        (A.append i ⟨rf.currentTerm, some command⟩) ∧
      Quiet rf (rf.appended (A.log i) command) := by
  have hstep : Step A (A.append i ⟨rf.currentTerm, some command⟩) :=
    .append i _ (h.role.trans hlead) h.term.symm
  have hlog : (A.append i ⟨rf.currentTerm, some command⟩).log i =
      A.log i ++ [⟨rf.currentTerm, some command⟩] := by
    simp [Cluster.append]
  refine ⟨⟨.single (a := ()) hstep, .append .., ?_, ?_, ?_⟩,
    ⟨fun hc => ⟨hc, rfl⟩, rfl, rfl, fun _ hm => hm⟩⟩
  · exact
      { me := h.me
        term := h.term
        role := h.role
        vote := h.vote
        commit := h.commit
        holds := by rw [hlog]; exact h.holds.appended command
        synced := ⟨rfl, rfl⟩
        base_le := h.base_le
        applied_le := h.applied_le
        pending_le := h.pending_le
        matched := by
          intro _ p
          show Function.update rf.matchIndex rf.me ((A.log i).length + 1) p ≤
            set2 A.acked (A.term i) i ((A.log i).length + 1) rf.currentTerm p
          rw [h.me, h.term]
          rcases eq_or_ne p i with rfl | hp
          · rw [Function.update_self, set2_self]
          · rw [Function.update_of_ne hp, set2_of_ne _ _ _ _ _ _ (fun hc => hp hc.2)]
            exact h.matched hlead p }
  · rw [hlog]
    exact (List.take_append_of_le_length h.holds.base_le).symm
  · intro T k e he hT
    rcases eq_or_ne T (A.term i) with rfl | hne
    · have hled := (h.leader_log hA hlead).2
      have hnew : (A.lead (A.term i) ++ [⟨rf.currentTerm, some command⟩])[k]? = some e := by
        simpa [Cluster.append] using he
      rcases Nat.lt_or_ge k (A.lead (A.term i)).length with hlt | hge
      · exact Or.inl (by rwa [List.getElem?_append_left hlt] at hnew)
      · rw [List.getElem?_append_right hge] at hnew
        obtain ⟨hk, rfl⟩ := List.getElem?_eq_some_iff.mp hnew
        rw [List.length_singleton] at hk
        exact Or.inr ⟨h.term, by rw [hled, ← h.term]; omega, by simp⟩
    · exact Or.inl (by simpa [Cluster.append, hne] using he)

theorem ServerRel.start (command : C) :
    ∃ rf' index ok A', rf.start command = some (rf', index, rf.currentTerm, ok) ∧
      Writes (fun T k e => index = some (k + 1) ∧ rf.NewEntry (A.log i) command T k e)
        A i (A.log i) rf' A' ∧ Quiet rf rf' := by
  have hrun := h.holds.start command
  by_cases hno : rf.dead = true ∨ rf.state ≠ .leader
  · rw [if_pos hno] at hrun
    refine ⟨_, _, _, A, hrun, ⟨.refl, Only.refl _ _, h, rfl, fun _ _ _ he _ => Or.inl he⟩, .refl _⟩
  · rw [if_neg hno] at hrun
    push Not at hno
    obtain ⟨hmove, hquiet⟩ := h.appended hA hno.2 command
    have hnamed : Writes (fun T k e => some ((A.log i).length + 1) = some (k + 1) ∧
        rf.NewEntry (A.log i) command T k e) A i (A.log i) (rf.appended (A.log i) command)
        (A.append i ⟨rf.currentTerm, some command⟩) :=
      { hmove with
        wrote := fun T k e he hT => (hmove.wrote T k e he hT).imp_right
          fun hnew => ⟨by rw [hnew.2.1], hnew⟩ }
    by_cases hone : n = 1
    · rw [if_pos hone] at hrun
      obtain ⟨A', hmove', hquiet'⟩ := hmove.rel.advance (hA.star hmove.star)
      exact ⟨_, _, _, A', hrun, hnamed.trans hmove' hquiet'.base, hquiet.trans hquiet'⟩
    · rw [if_neg hone] at hrun
      exact ⟨_, _, _, _, hrun, hnamed, hquiet⟩

/-! ### Taking in replies -/

omit hA in
theorem ServerRel.progress {peer : Fin n} {index : ℕ}
    (hacked : rf.state = .leader → index ≤ A.acked rf.currentTerm peer) :
    ServerRel A i (rf.progress peer index) where
  me := h.me
  term := h.term
  role := h.role
  vote := h.vote
  commit := h.commit
  holds := ⟨h.holds.base_le, h.holds.base_term, h.holds.logs, h.holds.encoded⟩
  synced := ⟨h.synced.state, h.synced.snapshot⟩
  base_le := h.base_le
  applied_le := h.applied_le
  pending_le := h.pending_le
  matched := by
    intro hlead p
    show Function.update rf.matchIndex peer (max (rf.matchIndex peer) index) p ≤
      A.acked rf.currentTerm p
    rcases eq_or_ne p peer with rfl | hp
    · rw [Function.update_self]
      exact max_le (h.matched hlead p) (hacked hlead)
    · rw [Function.update_of_ne hp]
      exact h.matched hlead p

theorem ServerRel.appendEntriesReply (peer : Fin n) (args : AppendEntriesArgs n C)
    (reply : AppendEntriesReply)
    (hacked : reply.success →
      args.prevLogIndex + args.entries.length ≤ A.acked args.term peer) :
    ∃ rf' A', rf.appendEntriesReply peer args reply = some rf' ∧ Move A i (A.log i) rf' A' ∧
      Quiet rf rf' := by
  obtain ⟨rf', hrun, hcases⟩ := h.holds.appendEntriesReply peer args reply
  rcases hcases with rfl | ⟨hlt, rfl⟩ | ⟨hsucc, -, hterm, hrf'⟩ | ⟨-, -, -, -, rfl⟩
  · exact ⟨rf', A, hrun, h.stay, .refl _⟩
  · exact ⟨_, _, hrun, h.follow hA hlt.le, .follow _ _⟩
  · have hrel : ServerRel A i
        (rf.progress peer (args.prevLogIndex + args.entries.length)) :=
      h.progress fun _ => by rw [hterm]; exact hacked hsucc
    have hquiet : Quiet rf (rf.progress peer (args.prevLogIndex + args.entries.length)) :=
      ⟨fun hc => ⟨hc, rfl⟩, rfl, rfl, fun _ hm => hm⟩
    rcases hrf' with rfl | rfl
    · exact ⟨_, A, hrun, hrel.stay, hquiet⟩
    · obtain ⟨A', hmove, hquiet'⟩ := hrel.advance hA
      exact ⟨_, A', hrun, hmove, hquiet.trans hquiet'⟩
  · refine ⟨_, A, hrun, ServerRel.stay ?_, ⟨fun hc => ⟨hc, rfl⟩, rfl, rfl, fun _ hm => hm⟩⟩
    exact { h with
      holds := ⟨h.holds.base_le, h.holds.base_term, h.holds.logs, h.holds.encoded⟩
      synced := ⟨h.synced.state, h.synced.snapshot⟩ }

theorem ServerRel.installSnapshotReply (peer : Fin n) (args : InstallSnapshotArgs n)
    (reply : InstallSnapshotReply)
    (hacked : reply.stopped = false → reply.term ≤ args.term →
      args.lastIncludedIndex ≤ A.acked args.term peer) :
    ∃ rf' A', rf.installSnapshotReply peer args reply = some rf' ∧ Move A i (A.log i) rf' A' ∧
      Quiet rf rf' := by
  obtain ⟨rf', hrun, hcases⟩ := h.holds.installSnapshotReply peer args reply
  rcases hcases with rfl | ⟨hlt, rfl⟩ | ⟨hstop, hle, -, hterm, rfl⟩
  · exact ⟨rf', A, hrun, h.stay, .refl _⟩
  · exact ⟨_, _, hrun, h.follow hA hlt.le, .follow _ _⟩
  · have hrel : ServerRel A i (rf.progress peer args.lastIncludedIndex) :=
      h.progress fun _ => by rw [hterm]; exact hacked hstop hle
    exact ⟨_, A, hrun, hrel.stay, ⟨fun hc => ⟨hc, rfl⟩, rfl, rfl, fun _ hm => hm⟩⟩

theorem ServerRel.heartbeatReply (reply : AppendEntriesReply) :
    ∃ rf' A', rf.heartbeatReply reply = some rf' ∧ Move A i (A.log i) rf' A' ∧
      Quiet rf rf' := by
  obtain ⟨rf', hrun, rfl | ⟨hlt, rfl⟩⟩ := h.holds.heartbeatReply reply
  · exact ⟨rf', A, hrun, h.stay, .refl _⟩
  · exact ⟨_, _, hrun, h.follow hA hlt.le, .follow _ _⟩

/-- A vote that makes the count a majority makes a leader. The last part
says which count the server goes on with while it is a candidate. -/
theorem ServerRel.requestVoteReply (term votes : ℕ) (reply : RequestVoteReply)
    (hq : rf.state = .candidate → rf.currentTerm = term → reply.voteGranted →
      n / 2 + 1 ≤ votes + 1 → Quorum fun v => A.vote rf.currentTerm v = some i) :
    ∃ rf' votes' A', rf.requestVoteReply term votes reply = some (rf', votes') ∧
      Move A i (A.log i) rf' A' ∧ Quiet rf rf' ∧
      (rf'.state = .candidate →
        votes' = votes ∨ rf.currentTerm = term ∧ reply.voteGranted ∧ votes' = votes + 1) := by
  obtain ⟨rf', votes', hrun, hcases⟩ := h.holds.requestVoteReply term votes reply
  rcases hcases with ⟨rfl, rfl⟩ | ⟨hlt, rfl, rfl⟩ |
    ⟨hcand, hterm, hgranted, rfl, ⟨hwon, rfl⟩ | ⟨-, rfl⟩⟩
  · exact ⟨rf', votes', A, hrun, h.stay, .refl _, fun _ => Or.inl rfl⟩
  · exact ⟨_, votes', _, hrun, h.follow hA hlt.le, .follow _ _, by simp⟩
  · refine ⟨_, _, _, hrun, h.lead hA hcand (hq hcand hterm hgranted hwon), ?_, ?_⟩
    · exact ⟨by simp [Raft.becomeLeaderLocked], rfl, rfl, fun _ hm => hm⟩
    · simp [Raft.becomeLeaderLocked]
  · exact ⟨rf', _, A, hrun, h.stay, .refl _, fun _ => Or.inr ⟨hterm, hgranted, rfl⟩⟩

/-! ### Elections -/

/-- Standing for election; in a cluster of one it is won at once. What
the request tells the others is the log the server voted for itself with. -/
theorem ServerRel.startElection :
    ∃ rf' args A', rf.startElection = some (rf', args) ∧ Move A i (A.log i) rf' A' ∧
      rf'.lastIncludedIndex = rf.lastIncludedIndex ∧ rf'.snapshot = rf.snapshot ∧
      rf'.pendingSnapshot = rf.pendingSnapshot ∧
      rf'.currentTerm = rf.currentTerm + 1 ∧
      (rf'.state = .candidate → A'.vote (rf.currentTerm + 1) i = some i) ∧
      ∀ a, args = some a → a.term = rf.currentTerm + 1 ∧ VoteRel A' i a := by
  have hrun := h.holds.startElection
  have hmove := h.stand
  have hself : (A.timeout i).vote (rf.currentTerm + 1) i = some i := by
    show set2 A.vote (A.term i + 1) i (some i) (rf.currentTerm + 1) i = some i
    rw [h.term, set2_self]
  have hlog : (A.timeout i).voteLog (rf.currentTerm + 1) i = A.log i := by
    show set2 A.voteLog (A.term i + 1) i (A.log i) (rf.currentTerm + 1) i = A.log i
    rw [h.term, set2_self]
  by_cases hone : n / 2 + 1 ≤ 1
  · rw [if_pos hone] at hrun
    have hq : Quorum fun v => (A.timeout i).vote rf.stand.currentTerm v = some i := by
      refine ⟨{i}, by simpa using hone, fun v hv => ?_⟩
      rw [Finset.mem_singleton.mp hv]
      exact hself
    have hlead := hmove.rel.lead (hA.star hmove.star) rfl hq
    refine ⟨_, _, _, hrun, hmove.trans hlead rfl, rfl, rfl, rfl, rfl, ?_, by simp⟩
    simp [Raft.becomeLeaderLocked]
  · rw [if_neg hone] at hrun
    refine ⟨_, _, _, hrun, hmove, rfl, rfl, rfl, rfl, fun _ => hself, ?_⟩
    rintro a ⟨⟩
    refine ⟨rfl, h.me, hself, ?_, ?_⟩
    · show (A.log i).length = _
      rw [hlog]
    · show lastTerm (A.log i) = _
      rw [hlog]

/-! ### Snapshots, the applier, and the end of a process -/

omit hA in
theorem ServerRel.takeSnapshot (index : ℕ) (data : Bytes) :
    ∃ rf', rf.takeSnapshot index data = some rf' ∧ Move A i (A.log i) rf' A ∧
      (rf' = rf ∨ rf.lastIncludedIndex < index ∧ index ≤ rf.commitIndex ∧
        rf' = rf.fold (A.log i) index data) := by
  obtain ⟨rf', hrun, rfl | ⟨-, hbase, happlied, hlen, rfl⟩⟩ := h.holds.takeSnapshot index data
  · exact ⟨rf', hrun, h.stay, Or.inl rfl⟩
  · refine ⟨_, hrun, ServerRel.stay ?_, Or.inr ⟨hbase, happlied.trans h.applied_le, rfl⟩⟩
    exact { h with
      holds := Raft.holds_fold hlen data
      synced := Raft.synced_saved _
      base_le := happlied }

theorem ServerRel.applierClaim (hready : rf.applierReady) :
    ∃ rf' messages, rf.applierClaim = some (rf', messages) ∧ Move A i (A.log i) rf' A ∧
      Quiet rf rf' ∧
      ((∃ message, rf.pendingSnapshot = some message ∧ messages = [.snapshot message] ∧
          rf' = { rf with pendingSnapshot := none }) ∨
        rf.pendingSnapshot = none ∧ rf.lastApplied < rf.commitIndex ∧
          messages = Raft.commandsOf (A.log i) (rf.lastApplied + 1) rf.commitIndex ∧
          rf' = { rf with lastApplied := rf.commitIndex }) := by
  have hcommit := h.commit_le hA
  obtain ⟨rf', messages, hrun, hcases⟩ := h.holds.applierClaim h.base_le hcommit hready
  rcases hcases with ⟨message, hpending, rfl, rfl⟩ | ⟨hnone, hlt, rfl, rfl⟩
  · have hmax : max rf.lastApplied message.snapshotIndex = rf.lastApplied :=
      max_eq_left (h.pending_le _ hpending)
    rw [hmax] at hrun
    refine ⟨_, _, hrun, ServerRel.stay ?_, ⟨fun hc => ⟨hc, rfl⟩, rfl, rfl, by simp⟩,
      Or.inl ⟨message, hpending, rfl, rfl⟩⟩
    exact { h with
      holds := ⟨h.holds.base_le, h.holds.base_term, h.holds.logs, h.holds.encoded⟩
      synced := ⟨h.synced.state, h.synced.snapshot⟩
      pending_le := by simp }
  · refine ⟨_, _, hrun, ServerRel.stay ?_, ⟨fun hc => ⟨hc, rfl⟩, rfl, rfl, fun _ hm => hm⟩,
      Or.inr ⟨hnone, hlt, rfl, rfl⟩⟩
    exact { h with
      holds := ⟨h.holds.base_le, h.holds.base_term, h.holds.logs, h.holds.encoded⟩
      synced := ⟨h.synced.state, h.synced.snapshot⟩
      base_le := (h.base_le.trans h.applied_le)
      applied_le := le_rfl
      pending_le := by simp [hnone] }

omit hA in
theorem ServerRel.kill : ∃ A', Move A i (A.log i) rf.kill A' ∧ Quiet rf rf.kill := by
  unfold Raft.kill
  split
  · exact ⟨A, h.stay, .refl _⟩
  · refine ⟨A.restart i (A.commit i), ⟨.single (a := ()) (.restart i _ le_rfl), .restart ..,
      ?_, rfl, fun _ _ _ he _ => Or.inl he⟩, ⟨by simp, rfl, rfl, fun _ hm => hm⟩⟩
    exact
      { me := h.me
        term := h.term
        role := by simp [Cluster.restart]
        vote := h.vote
        commit := by simpa [Cluster.restart] using h.commit
        holds := ⟨h.holds.base_le, h.holds.base_term, h.holds.logs, h.holds.encoded⟩
        synced := ⟨h.synced.state, h.synced.snapshot⟩
        base_le := h.base_le
        applied_le := h.applied_le
        pending_le := h.pending_le
        matched := by simp }

omit hA in
theorem ServerRel.remade :
    Move A i (A.log i) (rf.remade i) (A.restart i rf.lastIncludedIndex) where
  star := by
    refine .single (a := ()) (.restart i _ ?_)
    rw [h.commit]
    exact h.base_le.trans h.applied_le
  only := .restart ..
  kept := rfl
  wrote _ _ _ he _ := Or.inl he
  rel :=
    { me := rfl
      term := h.term
      role := by simp [Cluster.restart, Raft.remade, Raft.initial, Raft.rebuildEncodedLogs]
      vote := h.vote
      commit := by simp [Cluster.restart, Raft.remade]
      holds := h.holds.remade i
      synced := h.synced.remade i
      base_le := le_rfl
      applied_le := le_rfl
      pending_le := by simp [Raft.remade, Raft.initial, Raft.rebuildEncodedLogs]
      matched := by simp [Raft.remade, Raft.initial, Raft.rebuildEncodedLogs] }

/-! ### What requests say -/

theorem ServerRel.committedPrefix {k : ℕ} (hk : k ≤ rf.commitIndex) :
    CommittedPrefix A rf.currentTerm ((A.log i).take k) := by
  have hpre := (Inv.reachable hA).commit i
  rw [h.commit, h.term] at hpre
  refine hpre.mono le_rfl ?_
  rw [← min_eq_left hk, ← List.take_take]
  exact List.take_prefix _ _

theorem ServerRel.entriesRel (hlead : rf.state = .leader) {prev : ℕ}
    (hprev : prev ≤ (A.log i).length) :
    EntriesRel A i ⟨rf.currentTerm, rf.me, prev, termAt (A.log i) prev,
      (A.log i).drop prev, rf.commitIndex⟩ := by
  obtain ⟨hleader, hlog⟩ := h.leader_log hA hlead
  exact ⟨hleader, A.log i, hlog ▸ List.prefix_rfl, hprev, rfl, rfl, h.commit_le hA,
    h.committedPrefix hA le_rfl⟩

theorem ServerRel.snapshotRel (hlead : rf.state = .leader) :
    SnapshotRel A i ⟨rf.currentTerm, rf.me, rf.lastIncludedIndex, rf.lastIncludedTerm,
      rf.snapshot⟩ ((A.log i).take rf.lastIncludedIndex) := by
  obtain ⟨hleader, hlog⟩ := h.leader_log hA hlead
  refine ⟨hleader, hlog ▸ List.take_prefix _ _, by simp [h.holds.base_le], ?_,
    h.committedPrefix hA (h.base_le.trans h.applied_le)⟩
  show termAt ((A.log i).take rf.lastIncludedIndex) rf.lastIncludedIndex = rf.lastIncludedTerm
  rw [termAt_take le_rfl, h.holds.base_term]

end RaftShardedKv
