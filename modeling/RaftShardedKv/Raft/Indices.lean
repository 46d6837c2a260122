import RaftShardedKv.Raft.BackOff
import RaftShardedKv.Raft.Safety

/-!
The table of indices that a leader keeps of its peers.

Every reply may arrive late, after the log has grown or been folded; what
keeps the table in shape is that the clamps of the handlers are taken against
the log of the moment, and that a reply counts only in the term that it was
sent in, where the log has only grown since.
-/

namespace RaftShardedKv

open TermLog Consensus Transition

variable {n : ℕ} {C : Type}

/-- The indices of a leader are within its log. -/
structure Indexed (rf : Raft n C) : Prop where
  own : rf.matchIndex rf.me = rf.lastLogIndexLocked
  lt : ∀ p, rf.matchIndex p < rf.nextIndex p
  le : ∀ p, rf.nextIndex p ≤ rf.lastLogIndexLocked + 1

theorem indexed_becomeLeader (rf : Raft n C) : Indexed rf.becomeLeaderLocked where
  own := if_pos rfl
  lt p := by
    show (if p = rf.me then rf.lastLogIndexLocked else 0) < rf.lastLogIndexLocked + 1
    split <;> omega
  le _ := le_rfl

theorem forall_update_lt {f g : Fin n → ℕ} {peer : Fin n} {a b : ℕ} (hab : a < b)
    (h : ∀ p, f p < g p) (p : Fin n) : Function.update f peer a p < Function.update g peer b p := by
  rcases eq_or_ne p peer with rfl | hne
  · rwa [Function.update_self, Function.update_self]
  · rw [Function.update_of_ne hne, Function.update_of_ne hne]
    exact h p

theorem forall_update_le {f : Fin n → ℕ} {peer : Fin n} {a m : ℕ} (ha : a ≤ m)
    (h : ∀ p, f p ≤ m) : ∀ p, Function.update f peer a p ≤ m :=
  (Function.forall_update_iff f fun _ i => i ≤ m).mpr ⟨ha, fun p _ => h p⟩

theorem Indexed.progress {rf : Raft n C} (h : Indexed rf) (peer : Fin n) {index : ℕ}
    (hindex : index ≤ rf.lastLogIndexLocked) : Indexed (rf.progress peer index) := by
  have hown := h.own
  have hlt := h.lt peer
  have hle := h.le peer
  refine ⟨?_, forall_update_lt (by omega) h.lt,
    forall_update_le (m := rf.lastLogIndexLocked + 1) (by omega) h.le⟩
  show Function.update rf.matchIndex peer _ rf.me = rf.lastLogIndexLocked
  rcases eq_or_ne rf.me peer with rfl | hne
  · rw [Function.update_self, hown, max_eq_left hindex]
  · rw [Function.update_of_ne hne, hown]

theorem Indexed.backOff {rf : Raft n C} (h : Indexed rf) (peer : Fin n)
    (reply : AppendEntriesReply) : Indexed (rf.backedOff peer reply) := by
  have hlt := h.lt peer
  have hle := h.le peer
  have hback := rf.backOff_eq peer reply
  refine ⟨h.own, ?_, forall_update_le (m := rf.lastLogIndexLocked + 1) (by omega) h.le⟩
  exact (Function.forall_update_iff _ fun p i => rf.matchIndex p < i).mpr
    ⟨by omega, fun p _ => h.lt p⟩

variable [Labgob C]

theorem Indexed.appended {rf : Raft n C} (h : Indexed rf) {L : List (LogEntry C)}
    (hholds : rf.Holds L) (command : C) : Indexed (rf.appended L command) := by
  have hlast : (rf.appended L command).lastLogIndexLocked = L.length + 1 := by
    rw [(hholds.appended command).lastLogIndex, List.length_append]
    rfl
  refine ⟨?_, forall_update_lt (by omega) h.lt, ?_⟩
  · rw [hlast]
    exact Function.update_self ..
  · rw [hlast]
    refine forall_update_le le_rfl fun p => ?_
    have hle := h.le p
    rw [hholds.lastLogIndex] at hle
    exact hle.trans (Nat.le_succ _)

omit [Labgob C] in
theorem Raft.matchIndex_le_progress (rf : Raft n C) (peer : Fin n) (index : ℕ) (p : Fin n) :
    rf.matchIndex p ≤ (rf.progress peer index).matchIndex p := by
  revert p
  exact le_update_iff.mpr ⟨le_max_left .., fun _ _ => le_rfl⟩

theorem Indexed.matchIndex_le_appended {rf : Raft n C} (h : Indexed rf) {L : List (LogEntry C)}
    (hholds : rf.Holds L) (command : C) (p : Fin n) :
    rf.matchIndex p ≤ (rf.appended L command).matchIndex p := by
  revert p
  refine le_update_iff.mpr ⟨?_, fun _ _ => le_rfl⟩
  rw [h.own, hholds.lastLogIndex]
  exact Nat.le_succ _

/-- The table of the leader `rf'` is in shape, and has not lost anything if
`rf` led the same term. -/
structure Advances (rf rf' : Raft n C) : Prop where
  indexed : Indexed rf'
  le : rf.state = .leader → rf'.currentTerm = rf.currentTerm →
    ∀ p, rf.matchIndex p ≤ rf'.matchIndex p

omit [Labgob C] in
theorem Indexed.advances {rf rf' : Raft n C} (h : Indexed rf) (hme : rf'.me = rf.me)
    (hmatch : rf'.matchIndex = rf.matchIndex) (hnext : rf'.nextIndex = rf.nextIndex)
    (hlast : rf'.lastLogIndexLocked = rf.lastLogIndexLocked) : Advances rf rf' := by
  refine ⟨⟨?_, fun p => ?_, fun p => ?_⟩, fun _ _ p => ?_⟩
  · rw [hme, hmatch, hlast]
    exact h.own
  · rw [hmatch, hnext]
    exact h.lt p
  · rw [hnext, hlast]
    exact h.le p
  · rw [hmatch]

omit [Labgob C] in
theorem Advances.advanceCommitIndex {rf rf' : Raft n C} (h : Advances rf rf') :
    Advances rf rf'.advanceCommitIndexLocked := by
  obtain ⟨c, -, heq⟩ := rf'.advance_eq
  rw [heq]
  exact ⟨⟨h.indexed.own, h.indexed.lt, h.indexed.le⟩, h.le⟩

/-- **A critical section of a server keeps the table of a leader.** -/
theorem LocalStep.advances {rf rf' : Raft n C} {L : List (LogEntry C)} (hstep : LocalStep rf L rf')
    (hholds : rf.Holds L) (happlied : rf.lastApplied ≤ L.length)
    (h : rf.state = .leader → Indexed rf) (hlead : rf'.state = .leader) : Advances rf rf' := by
  have henter : ∀ t, (rf.enter t).state = .leader → rf.enter t = rf := by
    intro t hlead
    unfold Raft.enter at hlead ⊢
    split at hlead
    · cases hlead
    · rename_i hle
      exact if_neg hle
  cases hstep with
  | same => exact (h hlead).advances rfl rfl rfl rfl
  | follow t => cases hlead
  | enter t =>
      have hsame := henter t hlead
      rw [hsame] at hlead ⊢
      exact (h hlead).advances rfl rfl rfl rfl
  | vote t c =>
      have hsame := henter t hlead
      rw [hsame] at hlead ⊢
      exact (h hlead).advances rfl rfl rfl rfl
  | stand => cases hlead
  | standAlone =>
      refine ⟨indexed_becomeLeader _, fun _ hterm => ?_⟩
      exact absurd hterm (Nat.succ_ne_self _)
  | lead hcand =>
      refine ⟨indexed_becomeLeader _, fun hold _ => ?_⟩
      rw [hcand] at hold
      cases hold
  | merge t leaderCommit lastNewIndex L' =>
      rw [Raft.followCommit_eq] at hlead
      cases hlead
  | heard t leaderCommit lastNewIndex =>
      rw [Raft.followCommit_eq] at hlead
      cases hlead
  | install L' args hlt => cases hlead
  | append command =>
      exact ⟨(h hlead).appended hholds command,
        fun _ _ => (h hlead).matchIndex_le_appended hholds command⟩
  | appendAlone command =>
      obtain ⟨c, -, heq⟩ := (rf.appended L command).advance_eq
      rw [heq] at hlead
      exact (Advances.mk ((h hlead).appended hholds command)
        fun _ _ => (h hlead).matchIndex_le_appended hholds command).advanceCommitIndex
  | fold index data hbase hindex =>
      refine (h hlead).advances rfl rfl rfl ?_
      rw [(Raft.holds_fold (hindex.trans happlied) data).lastLogIndex, hholds.lastLogIndex]
  | progress peer index hindex =>
      rw [← hholds.lastLogIndex] at hindex
      exact ⟨(h hlead).progress peer hindex, fun _ _ => rf.matchIndex_le_progress peer index⟩
  | progressAdvance peer index hindex =>
      obtain ⟨c, -, heq⟩ := (rf.progress peer index).advance_eq
      rw [heq] at hlead
      rw [← hholds.lastLogIndex] at hindex
      exact (Advances.mk ((h hlead).progress peer hindex)
        fun _ _ => rf.matchIndex_le_progress peer index).advanceCommitIndex
  | backOff peer reply => exact ⟨(h hlead).backOff peer reply, fun _ _ _ => le_rfl⟩
  | kill =>
      unfold Raft.kill at hlead ⊢
      split at hlead
      · rename_i hdead
        rw [if_pos hdead]
        exact (h hlead).advances rfl rfl rfl rfl
      · cases hlead

section

variable {s s' : System n C} {A : Abstract n C}

theorem Rel.advances (h : Rel s A) (hA : (abstractSys n C).Reachable A) {a : Action n C}
    (hs : s.step a = some s') (i : Fin n) (hold : (s.rf i).state = .leader → Indexed (s.rf i))
    (hlead : (s'.rf i).state = .leader) : Advances (s.rf i) (s'.rf i) := by
  have hi := h.server i
  unfold System.rf at hlead ⊢
  rcases h.proc_step hA hs i with hsame | hstep
  · rw [hsame] at hlead ⊢
    exact (hold hlead).advances rfl rfl rfl rfl
  · generalize s'.procs i = p' at hstep hlead ⊢
    cases hstep with
    | act rf votes hlocal =>
        exact hlocal.advances hi.holds (hi.applied_le.trans (hi.commit_le hA)) hold hlead
    | claimSnapshot m hidle hpending => exact (hold hlead).advances rfl rfl rfl rfl
    | claimCommands hidle hpending hlt => exact (hold hlead).advances rfl rfl rfl rfl
    | send m rest happlying => exact (hold hlead).advances rfl rfl rfl rfl
    | restart rf hrf => cases hlead

end

theorem indexed_of_reachable {s : System n C} (hs : (raftSys n C).Reachable s) (i : Fin n)
    (hlead : (s.rf i).state = .leader) : Indexed (s.rf i) := by
  revert i
  refine hs.invariant (I := fun s => ∀ i, (s.rf i).state = .leader → Indexed (s.rf i))
    (fun s hinit i hlead => ?_) (fun s a s' hr ih hstep i hlead => ?_)
  · subst hinit
    cases hlead
  · obtain ⟨A, hA, h⟩ := exists_rel hr
    exact (h.advances hA hstep i (ih i) hlead).indexed

/-- A server that leads a term at two moments leads it in between, and its match
indices do not go back. -/
theorem matchIndex_mono (r : (raftSys n C).Run) {j k : ℕ} (hjk : j ≤ k) {i p : Fin n}
    (hj : ((r.state j).rf i).state = .leader) (hk : ((r.state k).rf i).state = .leader)
    (hterm : ((r.state k).rf i).currentTerm = ((r.state j).rf i).currentTerm) :
    ((r.state j).rf i).matchIndex p ≤ ((r.state k).rf i).matchIndex p := by
  obtain ⟨f, hf, hpath⟩ := (raft_simulation n C).run r
  have hled := (((hf j).2.server i).leader_log (hf j).1 hj).1
  have hrole : ∀ k, ((r.state k).rf i).state = .leader ∧
      ((r.state k).rf i).currentTerm = ((r.state j).rf i).currentTerm ↔
      (f k).role i = .leader ∧ (f k).term i = ((r.state j).rf i).currentTerm := by
    intro k
    rw [((hf k).2.server i).role, ((hf k).2.server i).term]
  induction k, hjk using Nat.le_induction with
  | base => exact le_rfl
  | succ k hjk ih =>
      -- the term has one leadership, so it has not been interrupted
      have hbefore : ((r.state k).rf i).state = .leader ∧
          ((r.state k).rf i).currentTerm = ((r.state j).rf i).currentTerm := by
        by_contra hnot
        have hstill := leader_star (hf j).1 (star_of_le hpath hjk) hled
        exact deposed_star (hf k).1 (hpath k) hstill (fun hc => hnot ((hrole k).mpr hc))
          ((hrole (k + 1)).mp ⟨hk, hterm⟩)
      refine (ih hbefore.1 hbefore.2).trans ?_
      rcases r.next k with heq | ⟨a, hstep⟩
      · rw [heq]
      · exact ((hf k).2.advances (hf k).1 hstep i (indexed_of_reachable (r.reachable k) i) hk).le
          hbefore.1 (hterm.trans hbefore.2.symm) p

/-- **The indices of a leader** are within its log at every moment of a run, and
what it takes a peer to hold never shrinks while it leads. So a request for a
peer whose next index is above the snapshot is built in range. -/
theorem replication_indices (r : (raftSys n C).Run) (k : ℕ) {i : Fin n}
    (hlead : ((r.state k).rf i).state = .leader) :
    (∀ p, 0 ≤ ((r.state k).rf i).matchIndex p ∧
      ((r.state k).rf i).matchIndex p < ((r.state k).rf i).nextIndex p ∧
      ((r.state k).rf i).nextIndex p ≤ ((r.state k).rf i).lastLogIndexLocked + 1) ∧
    ((r.state k).rf i).matchIndex ((r.state k).rf i).me =
      ((r.state k).rf i).lastLogIndexLocked ∧
    (∀ m, k ≤ m → ((r.state m).rf i).state = .leader →
      ((r.state m).rf i).currentTerm = ((r.state k).rf i).currentTerm →
      ∀ p, ((r.state k).rf i).matchIndex p ≤ ((r.state m).rf i).matchIndex p) ∧
    ∀ p, ((r.state k).rf i).lastIncludedIndex < ((r.state k).rf i).nextIndex p →
      (∃ term, ((r.state k).rf i).termAtLocked (((r.state k).rf i).nextIndex p - 1) = some term) ∧
      ∃ offset entries,
        ((r.state k).rf i).toOffsetLocked (((r.state k).rf i).nextIndex p) = some offset ∧
        sliceFrom ((r.state k).rf i).logs offset = some entries := by
  have h := indexed_of_reachable (r.reachable k) i hlead
  obtain ⟨A, hA, hrel⟩ := exists_rel (r.reachable k)
  have hholds := (hrel.server i).holds
  refine ⟨fun p => ⟨Nat.zero_le _, h.lt p, h.le p⟩, h.own,
    fun m hkm hm hterm p => matchIndex_mono r hkm hlead hm hterm, fun p hnext => ⟨?_, ?_⟩⟩
  · have hle := h.le p
    rw [hholds.lastLogIndex] at hle
    exact ⟨_, hholds.termAtLocked_some (by omega) (by omega)⟩
  · have hle := h.le p
    rw [hholds.lastLogIndex] at hle
    have hlength := hholds.length_logs
    refine ⟨_, _, if_pos hnext.le, if_pos ?_⟩
    omega

/-- After seven steps of `twoLeaders` server 0 leads and has heard from server 1. -/
theorem replication_indices_twoLeaders :
    ((twoLeadersRun.state 3).rf 0).state = .leader ∧
      ((twoLeadersRun.state 7).rf 0).state = .leader ∧
      ∀ p, ((twoLeadersRun.state 3).rf 0).matchIndex p ≤
        ((twoLeadersRun.state 7).rf 0).matchIndex p := by
  have hthird : ((twoLeadersRun.state 3).rf 0).state = .leader := by decide +kernel
  have hseventh : ((twoLeadersRun.state 7).rf 0).state = .leader := by decide +kernel
  exact ⟨hthird, hseventh, (replication_indices twoLeadersRun 3 hthird).2.2.1 7 (by decide)
    hseventh (by decide +kernel)⟩

end RaftShardedKv
