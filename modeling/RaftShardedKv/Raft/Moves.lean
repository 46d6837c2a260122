import RaftShardedKv.Raft.Relation

/-!
Every critical section of a server is matched by steps of the protocol.

`Move A i base rf A'` says that server `i`, now `rf`, is related to `A'`,
that the protocol leads from `A` to `A'`, and that nothing but server `i`
has moved. `base` is where the entries below the snapshot boundary come
from: the server's old log, or what an installed snapshot stands for. A
`Writes` is a move in which a leader may also add entries of its own.

There is one theorem for each critical section. The interesting ones are
`AppendEntries` and `InstallSnapshot`, where the entry-by-entry work on a
compacted log turns out to be the adoption of a prefix of the leader's
log, and the commitment rule.
-/

namespace RaftShardedKv

open TermLog Consensus Transition

variable {n : ℕ} {C : Type} [Labgob C]

/-- A move in which the entries of their own term that leaders have
written, by term, place and entry, are the old ones and those in `w`. -/
structure Writes (w : ℕ → ℕ → LogEntry C → Prop) (A : Abstract n C) (i : Fin n)
    (base : List (LogEntry C)) (rf : Raft n C) (A' : Abstract n C) : Prop where
  star : (abstractSys n C).Star A A'
  only : Only i A A'
  rel : ServerRel A' i rf
  kept : base.take rf.lastIncludedIndex = (A'.log i).take rf.lastIncludedIndex
  wrote : ∀ T k e, (A'.lead T)[k]? = some e → e.term = T → (A.lead T)[k]? = some e ∨ w T k e

abbrev Move (A : Abstract n C) (i : Fin n) (base : List (LogEntry C)) (rf : Raft n C)
    (A' : Abstract n C) : Prop :=
  Writes (fun _ _ _ => False) A i base rf A'

/-- What a critical section leaves alone, unless it starts an election or
touches the snapshot: a candidate afterwards was one before in the same
term, and the snapshot and its boundary are the old ones. -/
structure Quiet (rf rf' : Raft n C) : Prop where
  candidate : rf'.state = .candidate → rf.state = .candidate ∧ rf'.currentTerm = rf.currentTerm
  base : rf'.lastIncludedIndex = rf.lastIncludedIndex
  snapshot : rf'.snapshot = rf.snapshot
  pending : ∀ m, rf'.pendingSnapshot = some m → rf.pendingSnapshot = some m

section

omit [Labgob C]

theorem Quiet.refl (rf : Raft n C) : Quiet rf rf :=
  ⟨fun h => ⟨h, rfl⟩, rfl, rfl, fun _ h => h⟩

theorem Quiet.trans {rf₁ rf₂ rf₃ : Raft n C} (h : Quiet rf₁ rf₂) (h' : Quiet rf₂ rf₃) :
    Quiet rf₁ rf₃ where
  candidate hc := by
    obtain ⟨hc₂, hterm⟩ := h'.candidate hc
    obtain ⟨hc₁, hterm'⟩ := h.candidate hc₂
    exact ⟨hc₁, hterm.trans hterm'⟩
  base := h'.base.trans h.base
  snapshot := h'.snapshot.trans h.snapshot
  pending m hm := h.pending m (h'.pending m hm)

theorem Quiet.follow (rf : Raft n C) (t : ℕ) : Quiet rf (rf.follow t) :=
  ⟨by simp, by simp, by simp, by simp⟩

theorem Quiet.enter (rf : Raft n C) (t : ℕ) : Quiet rf (rf.enter t) := by
  unfold Raft.enter
  split
  · exact Quiet.follow rf t
  · exact Quiet.refl rf

end

variable {A : Abstract n C} {i : Fin n} {rf : Raft n C}

theorem ServerRel.stay (h : ServerRel A i rf) : Move A i (A.log i) rf A :=
  ⟨.refl, Only.refl _ _, h, rfl, fun _ _ _ he _ => Or.inl he⟩

theorem Writes.trans {w : ℕ → ℕ → LogEntry C → Prop} {A₁ A₂ : Abstract n C}
    {rf₁ rf₂ : Raft n C} (h₁ : Writes w A i (A.log i) rf₁ A₁)
    (h₂ : Move A₁ i (A₁.log i) rf₂ A₂)
    (hbase : rf₂.lastIncludedIndex = rf₁.lastIncludedIndex) :
    Writes w A i (A.log i) rf₂ A₂ where
  star := h₁.star.trans h₂.star
  only := h₁.only.trans _ h₂.only
  rel := h₂.rel
  kept := by rw [← h₂.kept, hbase, h₁.kept]
  wrote T k e he hT := h₁.wrote T k e ((h₂.wrote T k e he hT).resolve_right id) hT

section

variable (hA : (abstractSys n C).Reachable A) (h : ServerRel A i rf)

include hA h

theorem ServerRel.commit_le : rf.commitIndex ≤ (A.log i).length := by
  rw [← h.commit]
  exact (Inv.reachable hA).commit_le i

/-! ### Terms and votes -/

theorem ServerRel.vote_none {t : ℕ} (ht : rf.currentTerm < t) : A.vote t i = none := by
  cases hv : A.vote t i with
  | none => rfl
  | some c =>
      have := (Inv.reachable hA).election.vote_le hv
      rw [h.term] at this
      omega

theorem ServerRel.follow {t : ℕ} (ht : rf.currentTerm ≤ t) :
    Move A i (A.log i) (rf.follow t) (A.observe i t) where
  star := .single (a := ()) (.observe i t (by rw [h.term]; exact ht))
  only := .observe ..
  kept := rfl
  wrote _ _ _ he _ := Or.inl he
  rel :=
    { me := by simpa using h.me
      term := by simp [Cluster.observe, ht]
      role := by simp [Cluster.observe]
      vote := by
        show A.vote (rf.follow t).currentTerm i = (rf.follow t).votedFor
        rw [Raft.follow_votedFor, Raft.follow_currentTerm, max_eq_right ht]
        split
        · rename_i hlt
          exact h.vote_none hA hlt
        · have heq : t = rf.currentTerm := by omega
          rw [heq, h.vote]
      commit := by rw [Raft.follow_commitIndex]; exact h.commit
      holds := h.holds.follow t
      synced := h.synced.follow t
      base_le := by simpa using h.base_le
      applied_le := by simpa using h.applied_le
      pending_le := by simpa using h.pending_le
      matched := by simp }

theorem ServerRel.enter {t : ℕ} (ht : rf.currentTerm ≤ t) :
    ∃ A', Move A i (A.log i) (rf.enter t) A' ∧ (rf.enter t).currentTerm = t ∧
      A'.log i = A.log i := by
  unfold Raft.enter
  split
  · exact ⟨_, h.follow hA ht, by simp [ht], rfl⟩
  · exact ⟨A, h.stay, by omega, rfl⟩

omit hA in
/-- Granting a vote. A vote that was given before may be given again. -/
theorem ServerRel.voteFor {c : Fin n} (hfree : rf.votedFor = none ∨ rf.votedFor = some c)
    (hself : A.vote rf.currentTerm c = some c)
    (hup : UpToDate (A.voteLog rf.currentTerm c) (A.log i)) :
    ∃ A', Move A i (A.log i) (rf.voteFor c) A' ∧ A'.vote rf.currentTerm i = some c := by
  have hholds : (rf.voteFor c).Holds (A.log i) :=
    ⟨h.holds.base_le, h.holds.base_term, h.holds.logs, h.holds.encoded⟩
  rcases hfree with hnone | hsome
  · have hterm : A.term i = rf.currentTerm := h.term
    have hvote : A.vote (A.term i) i = none := by rw [hterm, h.vote, hnone]
    refine ⟨A.grant i c, ⟨.single (a := ()) (.grant i c ?_ hvote ?_), .grant .., ?_, rfl,
      fun _ _ _ he _ => Or.inl he⟩, ?_⟩
    · rw [hterm]; exact hself
    · rw [hterm]; exact hup
    · exact
        { me := h.me
          term := h.term
          role := h.role
          vote := by
            show set2 A.vote (A.term i) i (some c) rf.currentTerm i = some c
            rw [hterm, set2_self]
          commit := h.commit
          holds := hholds
          synced := Raft.synced_saved _
          base_le := h.base_le
          applied_le := h.applied_le
          pending_le := h.pending_le
          matched := h.matched }
    · show set2 A.vote (A.term i) i (some c) rf.currentTerm i = some c
      rw [hterm, set2_self]
  · refine ⟨A, ⟨.refl, .refl .., ?_, rfl, fun _ _ _ he _ => Or.inl he⟩, h.vote.trans hsome⟩
    exact
      { me := h.me
        term := h.term
        role := h.role
        vote := h.vote.trans hsome
        commit := h.commit
        holds := hholds
        synced := Raft.synced_saved _
        base_le := h.base_le
        applied_le := h.applied_le
        pending_le := h.pending_le
        matched := h.matched }

omit hA in
theorem ServerRel.stand :
    Move A i (A.log i) rf.stand (A.timeout i) where
  star := .single (a := ()) (.timeout i)
  only := .timeout ..
  kept := rfl
  wrote _ _ _ he _ := Or.inl he
  rel :=
    { me := h.me
      term := by simp [Cluster.timeout, Raft.stand, Raft.saved, h.term]
      role := by simp [Cluster.timeout, Raft.stand, Raft.saved]
      vote := by
        show set2 A.vote (A.term i + 1) i (some i) (rf.currentTerm + 1) i = some rf.me
        rw [h.term, set2_self, h.me]
      commit := h.commit
      holds := h.holds.stand
      synced := Raft.synced_saved _
      base_le := h.base_le
      applied_le := h.applied_le
      pending_le := h.pending_le
      matched := by simp [Raft.stand, Raft.saved] }

theorem ServerRel.lead (hcand : rf.state = .candidate)
    (hq : Quorum fun v => A.vote rf.currentTerm v = some i) :
    Move A i (A.log i) rf.becomeLeaderLocked (A.elect i) where
  star := .single (a := ()) (.elect i (h.role.trans hcand) (by rw [h.term]; exact hq))
  only := .elect ..
  kept := rfl
  wrote T k e he hT := by
    rcases eq_or_ne T (A.term i) with rfl | hne
    · -- the log a candidate stands with has no entry of its own term
      have hinv := Inv.reachable hA
      have hrole := h.role.trans hcand
      have hlog : (A.log i)[k]? = some e := by simpa [Cluster.elect] using he
      have hlt := hinv.logs.self_lt (hinv.election.candidate_vote hrole) (k + 1)
      rw [hinv.logs.candidate_log hrole, termAt_of_getElem? hlog] at hlt
      exact absurd hT hlt.ne
    · exact Or.inl (by simpa [Cluster.elect, hne] using he)
  rel :=
    { me := h.me
      term := h.term
      role := by simp [Cluster.elect, Raft.becomeLeaderLocked]
      vote := h.vote
      commit := h.commit
      holds := ⟨h.holds.base_le, h.holds.base_term, h.holds.logs, h.holds.encoded⟩
      synced := ⟨h.synced.state, h.synced.snapshot⟩
      base_le := h.base_le
      applied_le := h.applied_le
      pending_le := h.pending_le
      matched := by
        intro _ p
        show (if p = rf.me then rf.lastLogIndexLocked else 0) ≤
          set2 A.acked (A.term i) i (A.log i).length rf.currentTerm p
        split
        · rename_i hp
          rw [hp, h.me, h.term, set2_self, h.holds.lastLogIndex]
        · exact Nat.zero_le _ }

theorem ServerRel.requestVote {src : Fin n} {args : RequestVoteArgs n}
    (hcall : VoteRel A src args) :
    ∃ rf' reply A', rf.requestVote args = some (rf', reply) ∧ Move A i (A.log i) rf' A' ∧
      Quiet rf rf' ∧ (reply.voteGranted → A'.vote args.term i = some src) := by
  obtain ⟨rf', reply, hrun, hcases⟩ := h.holds.requestVote args
  rcases hcases with ⟨-, rfl, hno⟩ | ⟨-, hle, rfl, hno⟩ | ⟨-, hle, hfree, hup, rfl, -⟩
  · exact ⟨rf', reply, A, hrun, h.stay, .refl _, by simp [hno]⟩
  · obtain ⟨A', hmove, -, -⟩ := h.enter hA hle
    exact ⟨_, reply, A', hrun, hmove, .enter _ _, by simp [hno]⟩
  · obtain ⟨A₁, hmove, hterm, hlog⟩ := h.enter hA hle
    have hcall₁ := hcall.star hA hmove.star
    obtain ⟨hid, hself, hindex, hlast⟩ := hcall₁
    rw [hid] at hfree hrun
    have hcmp : UpToDate (A₁.voteLog args.term src) (A₁.log i) := by
      rw [UpToDate, ← hindex, ← hlast, hlog]
      exact hup
    obtain ⟨A₂, hmove₂, hvoted⟩ := hmove.rel.voteFor hfree
      (by rw [hterm]; exact hself) (by rw [hterm]; exact hcmp)
    have hquiet := Quiet.enter rf args.term
    refine ⟨_, reply, A₂, hrun, hmove.trans hmove₂ rfl, ?_, fun _ => by rw [← hvoted, hterm]⟩
    exact ⟨hquiet.candidate, hquiet.base, hquiet.snapshot, hquiet.pending⟩

/-! ### Entries and snapshots from a leader -/

/-- A server that adopts a prefix `P` of the log of the leader of term
`t`, and then knows `c` entries to be committed. -/
theorem ServerRel.accept {t c : ℕ} {P : List (LogEntry C)} (base : List (LogEntry C))
    (rf' : Raft n C)
    (hled : A.leader t ≠ none) (ht : rf.currentTerm ≤ t) (hP : P <+: A.lead t)
    (hc : c = rf.commitIndex ∨ c ≤ P.length ∧ CommittedPrefix A t (P.take c))
    (hme : rf'.me = rf.me) (hterm : rf'.currentTerm = t) (hstate : rf'.state = .follower)
    (hvote : rf'.votedFor = (rf.follow t).votedFor) (hcommit : rf'.commitIndex = c)
    (hholds : rf'.Holds (adopt (A.log i) P)) (hsynced : rf'.Synced)
    (hbase : rf'.lastIncludedIndex ≤ rf'.lastApplied) (happlied : rf'.lastApplied ≤ c)
    (hpending : ∀ m, rf'.pendingSnapshot = some m → m.snapshotIndex ≤ rf'.lastApplied)
    (hkept : base.take rf'.lastIncludedIndex =
      (adopt (A.log i) P).take rf'.lastIncludedIndex) :
    ∃ A', Move A i base rf' A' ∧ P.length ≤ A'.acked t i := by
  have hPtake : (A.lead t).take P.length = P := (List.prefix_iff_eq_take.mp hP).symm
  have hstep : Step A (A.accept i t P.length) :=
    .accept i t P.length hled (by rw [h.term]; exact ht) hP.length_le
  have hA₁ : (abstractSys n C).Reachable (A.accept i t P.length) := hA.step (a := ()) hstep
  have hlog : (A.accept i t P.length).log i = adopt (A.log i) P := by
    simp [Cluster.accept, hPtake]
  have hterm₁ : (A.accept i t P.length).term i = t := by simp [Cluster.accept]
  have hknown : c ≤ (adopt (A.log i) P).length ∧
      CommittedPrefix (A.accept i t P.length) t ((adopt (A.log i) P).take c) := by
    rcases hc with rfl | ⟨hle, hpre⟩
    · have hinv := Inv.reachable hA₁
      have hle := hinv.commit_le i
      have hpre := hinv.commit i
      have hsame : (A.accept i t P.length).commit i = rf.commitIndex := h.commit
      rw [hlog, hsame] at hle hpre
      rw [hterm₁] at hpre
      exact ⟨hle, hpre⟩
    · have hadopt := prefix_adopt (A.log i) P
      rw [take_eq_of_prefix_le hadopt hle]
      exact ⟨hle.trans hadopt.length_le, committedPrefix_star hA (.single (a := ()) hstep) hpre⟩
  refine ⟨(A.accept i t P.length).setCommit i c, ⟨?_, ?_, ?_, ?_, fun _ _ _ he _ => Or.inl he⟩, ?_⟩
  · refine (Sys.Star.single (a := ()) hstep).trans
      (Sys.Star.single (a := ()) (Step.commit i c ?_ ?_))
    · rw [hlog]; exact hknown.1
    · rw [hlog, hterm₁]; exact hknown.2
  · exact (Only.accept A i t P.length).trans _ (Only.setCommit _ i c)
  · exact
      { me := hme.trans h.me
        term := hterm₁.trans hterm.symm
        role := by rw [hstate]; simp [Cluster.setCommit, Cluster.accept]
        vote := by
          have hfollow := (h.follow hA ht).rel.vote
          rw [Raft.follow_currentTerm, max_eq_right ht] at hfollow
          rw [hterm, hvote]
          exact hfollow
        commit := by rw [hcommit]; simp [Cluster.setCommit]
        holds := by
          show rf'.Holds ((A.accept i t P.length).log i)
          rw [hlog]; exact hholds
        synced := hsynced
        base_le := hbase
        applied_le := by rw [hcommit]; exact happlied
        pending_le := hpending
        matched := by simp [hstate] }
  · show base.take _ = ((A.accept i t P.length).log i).take _
    rw [hlog, hkept]
  · show P.length ≤ set2 A.acked t i (max (A.acked t i) P.length) t i
    rw [set2_self]
    exact le_max_right _ _

theorem ServerRel.appendEntries {src : Fin n} {args : AppendEntriesArgs n C}
    (hcall : EntriesRel A src args) :
    ∃ rf' reply A', rf.appendEntries args = some (rf', reply) ∧ Move A i (A.log i) rf' A' ∧
      Quiet rf rf' ∧ (reply.success →
        args.prevLogIndex + args.entries.length ≤ A'.acked args.term i) := by
  obtain ⟨hleader, P, hP, hprev, hPterm, hdrop, hle, hcommitted⟩ := hcall
  have hinv := Inv.reachable hA
  have hlen : args.prevLogIndex + args.entries.length = P.length := by
    rw [← hdrop, List.length_drop]; omega
  obtain ⟨rf', reply, hrun, hcases⟩ := h.holds.appendEntries args
  rcases hcases with ⟨-, rfl, hno⟩ | ⟨-, ht, rfl, hno⟩ |
    ⟨-, ht, hbase, hin, hmatch, -, rf₁, rfl, hrf₁⟩
  · exact ⟨rf', reply, A, hrun, h.stay, .refl _, by simp [hno]⟩
  · exact ⟨_, reply, _, hrun, h.follow hA ht, .follow _ _, by simp [hno]⟩
  -- the logs agree up to the request, so merging its entries is adopting `P`
  have hlogs := hinv.logs
  have hPfollows := (hlogs.lead_follows args.term).of_initial hP
  have hagree : (A.log i).take args.prevLogIndex = P.take args.prevLogIndex :=
    (hlogs.log_follows i).matching hPfollows hin hprev (hmatch.trans hPterm.symm)
  have hsplice : splice (A.log i) args.prevLogIndex args.entries = adopt (A.log i) P :=
    splice_eq_adopt ((hlogs.log_follows i).matching hPfollows) _ _ hin hprev hdrop hagree
  have htake : (adopt (A.log i) P).take rf.lastIncludedIndex =
      (A.log i).take rf.lastIncludedIndex := by
    have hcut := congrArg (List.take rf.lastIncludedIndex) hagree
    rw [List.take_take, List.take_take, min_eq_left hbase] at hcut
    rw [take_eq_of_prefix_le (prefix_adopt (A.log i) P) (hbase.trans hprev), hcut]
  rw [hsplice] at hrf₁
  rw [Raft.followCommit_eq, hlen] at hrun
  rw [hlen]
  have hnew : rf₁.Holds (adopt (A.log i) P) ∧ rf₁.Synced ∧ rf₁.me = rf.me ∧
      rf₁.currentTerm = args.term ∧ rf₁.state = .follower ∧
      rf₁.votedFor = (rf.follow args.term).votedFor ∧ rf₁.commitIndex = rf.commitIndex ∧
      rf₁.lastApplied = rf.lastApplied ∧ rf₁.lastIncludedIndex = rf.lastIncludedIndex ∧
      rf₁.pendingSnapshot = rf.pendingSnapshot ∧ rf₁.snapshot = rf.snapshot := by
    have hmax : max rf.currentTerm args.term = args.term := max_eq_right ht
    rcases hrf₁ with rfl | ⟨hsame, rfl⟩
    · refine ⟨?_, Raft.synced_saved _, ?_⟩
      · refine ((h.holds.follow args.term).withLog ?_ ?_).saved
        · rw [Raft.follow_lastIncludedIndex]
          exact (hbase.trans hprev).trans (prefix_adopt (A.log i) P).length_le
        · rw [Raft.follow_lastIncludedIndex, htake]
      · simp [Raft.adoptLog, Raft.saved, Raft.withLog, Raft.replaceLogs,
          Raft.rebuildEncodedLogs, hmax]
    · rw [hsame]
      exact ⟨h.holds.follow _, h.synced.follow _, by simp [hmax]⟩
  obtain ⟨hholds, hsynced, hme, hterm, hstate, hvote, hcommit, happlied, hidx, hpending,
    hsnapshot⟩ := hnew
  have hc : max rf₁.commitIndex (min args.leaderCommit P.length) = rf.commitIndex ∨
      max rf₁.commitIndex (min args.leaderCommit P.length) ≤ P.length ∧
        CommittedPrefix A args.term
          (P.take (max rf₁.commitIndex (min args.leaderCommit P.length))) := by
    rw [hcommit, min_eq_left hle]
    rcases le_total args.leaderCommit rf.commitIndex with hc | hc
    · exact Or.inl (max_eq_left hc)
    · rw [max_eq_right hc]
      exact Or.inr ⟨hle, hcommitted⟩
  obtain ⟨A', hmove, hacked⟩ := h.accept hA (A.log i)
    { rf₁ with commitIndex := max rf₁.commitIndex (min args.leaderCommit P.length) }
    (by rw [hleader]; simp) ht hP hc hme hterm hstate hvote rfl
    ⟨hholds.base_le, hholds.base_term, hholds.logs, hholds.encoded⟩
    ⟨hsynced.state, hsynced.snapshot⟩
    (by simpa [hidx, happlied] using h.base_le)
    (by simpa [happlied, hcommit] using Or.inl h.applied_le)
    (by simpa [hpending, happlied] using h.pending_le)
    (by simpa [hidx] using htake.symm)
  exact ⟨_, reply, A', hrun, hmove, ⟨by simp [hstate], hidx, hsnapshot, by simp [hpending]⟩,
    fun _ => hacked⟩

/-- What is committed up to a server's commit index is at the beginning
of the log of every leader it may hear from. -/
theorem ServerRel.commit_lead {t : ℕ} (hled : A.leader t ≠ none) (ht : rf.currentTerm ≤ t) :
    (A.log i).take rf.commitIndex <+: A.lead t := by
  have hinv := Inv.reachable hA
  have hpre := (hinv.commit i).prefix_lead hinv.election hinv.logs hinv.acks
    (by rw [h.term]; exact ht) hled
  rwa [h.commit] at hpre

omit [Labgob C] h in
/-- The boundary entry decides whether a log holds what a snapshot of the
leader of term `t` stands for. -/
theorem holds_boundary {t : ℕ} {P : List (LogEntry C)} (hP : P <+: A.lead t) :
    (if P.length ≤ (A.log i).length ∧ termAt (A.log i) P.length = termAt P P.length
      then A.log i else P) = adopt (A.log i) P := by
  have hlogs := (Inv.reachable hA).logs
  split
  · rename_i hkeep
    have hagree := (hlogs.log_follows i).matching
      ((hlogs.lead_follows t).of_initial hP) hkeep.1 le_rfl hkeep.2
    rw [List.take_length] at hagree
    rw [adopt_of_holds]
    exact hagree ▸ List.take_prefix _ _
  · rename_i hdiffer
    rw [adopt_of_not_holds]
    intro hpre
    exact hdiffer ⟨hpre.length_le, (termAt_eq_of_prefix_le hpre le_rfl).symm⟩

theorem ServerRel.installSnapshot {src : Fin n} {args : InstallSnapshotArgs n}
    {P : List (LogEntry C)} (hcall : SnapshotRel A src args P) :
    ∃ rf' reply A', rf.installSnapshot args = some (rf', reply) ∧
      Move A i (if rf'.lastIncludedIndex = rf.lastIncludedIndex then A.log i else P) rf' A' ∧
      (Quiet rf rf' ∨ rf'.state = .follower ∧ rf'.lastIncludedIndex = args.lastIncludedIndex ∧
        rf'.snapshot = args.data ∧ rf'.pendingSnapshot =
          some ⟨args.data, args.lastIncludedTerm, args.lastIncludedIndex⟩ ∧
        P.length = args.lastIncludedIndex ∧ args.lastIncludedIndex ≠ 0 ∧
        rf'.lastIncludedIndex ≠ rf.lastIncludedIndex) ∧
      (reply.stopped = false → reply.term ≤ args.term →
        args.lastIncludedIndex ≤ A'.acked args.term i) := by
  obtain ⟨hleader, hP, hlen, hPterm, hcommitted⟩ := hcall
  have hled : A.leader args.term ≠ none := by rw [hleader]; simp
  obtain ⟨rf', reply, hrun, hcases⟩ := h.holds.installSnapshot
    (h.base_le.trans h.applied_le) args hlen hPterm
  rcases hcases with ⟨-, rfl, hstop⟩ | ⟨-, -, rfl, hstale⟩ | ⟨-, ht, hold, rfl⟩ |
    ⟨-, ht, hnew, rfl⟩
  · refine ⟨rf', reply, A, hrun, ?_, Or.inl (.refl _), by simp [hstop]⟩
    rw [if_pos rfl]
    exact h.stay
  · refine ⟨rf', reply, A, hrun, ?_, Or.inl (.refl _), fun _ hterm => by omega⟩
    rw [if_pos rfl]
    exact h.stay
  · -- an old snapshot: the log holds its entries already, so they are confirmed
    have hpre : P <+: A.log i := by
      have hlead := h.commit_lead hA hled ht
      have hcut : ((A.log i).take rf.commitIndex).length = rf.commitIndex := by
        simp [h.commit_le hA]
      exact (List.prefix_of_prefix_length_le hP hlead (by omega)).trans (List.take_prefix _ _)
    obtain ⟨A', hmove, hacked⟩ := h.accept hA (A.log i) (rf.follow args.term)
      hled ht hP (Or.inl rfl) (by simp) (by simp [ht]) (by simp) rfl (by simp)
      (by rw [adopt_of_holds hpre]; exact h.holds.follow _) (h.synced.follow _)
      (by simpa using h.base_le) (by simpa using h.applied_le) (by simpa using h.pending_le)
      (by rw [adopt_of_holds hpre])
    refine ⟨_, reply, A', hrun, ?_, Or.inl (.follow _ _), fun _ _ => hlen ▸ hacked⟩
    rw [Raft.follow_lastIncludedIndex, if_pos rfl]
    exact hmove
  · have hadopt : (if args.lastIncludedIndex ≤ (A.log i).length ∧
        termAt (A.log i) args.lastIncludedIndex = args.lastIncludedTerm then A.log i else P) =
          adopt (A.log i) P := by
      rw [← holds_boundary hA hP, hlen, hPterm]
    have hin : args.lastIncludedIndex ≤ (adopt (A.log i) P).length :=
      hlen ▸ (prefix_adopt (A.log i) P).length_le
    rw [hadopt] at hrun
    have hbase : (rf.install (adopt (A.log i) P) args).lastIncludedIndex ≠
        rf.lastIncludedIndex := by
      have := h.base_le.trans h.applied_le
      show args.lastIncludedIndex ≠ rf.lastIncludedIndex
      omega
    obtain ⟨A', hmove, hacked⟩ := h.accept hA P
      (rf.install (adopt (A.log i) P) args) (c := args.lastIncludedIndex)
      hled ht hP (Or.inr ⟨hlen.ge, by rw [← hlen, List.take_length]; exact hcommitted⟩)
      (by simp [Raft.install, Raft.fold, Raft.saved])
      (by simp [Raft.install, Raft.fold, Raft.saved, ht])
      rfl rfl rfl ⟨hin, rfl, rfl, rfl⟩ ⟨rfl, rfl⟩ le_rfl le_rfl
      (by
        intro m hm
        cases hm
        exact le_rfl)
      (take_eq_of_prefix_le (prefix_adopt (A.log i) P) hlen.ge).symm
    refine ⟨_, reply, A', hrun, ?_, Or.inr ⟨rfl, rfl, rfl, rfl, hlen, by omega, hbase⟩,
      fun _ _ => hlen ▸ hacked⟩
    rw [if_neg hbase]
    exact hmove

end

end RaftShardedKv
