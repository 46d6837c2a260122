import RaftShardedKv.Raft.LocalStep

/-!
What the refinement means for the cluster: the safety properties of Raft,
for the code with its compacted logs, its snapshots and its restarts.
Each is a property of the protocol, read through the relation between a
reachable cluster and the protocol.
-/

namespace RaftShardedKv

open TermLog Consensus Transition

variable {n : ℕ} {C : Type} [Labgob C]

theorem exists_rel {s : System n C} (hs : (raftSys n C).Reachable s) :
    ∃ A, (abstractSys n C).Reachable A ∧ Rel s A :=
  (raft_simulation n C).reachable hs

/-- Two servers: server 0 is elected, has a command confirmed by server 1
and commits it; both deliver it; then server 1 is elected. -/
def twoLeaders : List (Action 2 Bool) :=
  [.startElection 0, .deliver 0, .deliver 0, .start 0 true, .replicate 0 1, .deliver 0,
    .deliver 0, .claim 0, .send 0, .heartbeat 0 1, .deliver 0, .deliver 0, .claim 1, .send 1,
    .startElection 1, .deliver 0, .deliver 0]

/-- The run that `twoLeaders` makes. -/
def twoLeadersRun : (raftSys 2 Bool).Run := Sys.Run.play (System.init 2 Bool) System.step twoLeaders

/-! ### Agreement of the apply channels -/

/-- **State machine safety.** Two commands that any servers, in any
incarnations, put on their apply channels with one index are equal. -/
theorem state_machine_safety {s : System n C} (hs : (raftSys n C).Reachable s) {i j : Fin n}
    {k l index : ℕ} {c d : Option C} (hi : (i, k, .command c index) ∈ s.applied)
    (hj : (j, l, .command d index) ∈ s.applied) : c = d := by
  obtain ⟨A, hA, h⟩ := exists_rel hs
  obtain ⟨-, e, he, rfl⟩ := h.records.applied _ hi
  obtain ⟨-, e', he', rfl⟩ := h.records.applied _ hj
  rw [Option.some.inj (he.symm.trans he')]

theorem state_machine_safety_twoLeaders :
    let s := play System.step (System.init 2 Bool) twoLeaders
    (0, 0, .command (some true) 1) ∈ s.applied ∧ (1, 0, .command (some true) 1) ∈ s.applied ∧
      some true = some true :=
  ⟨by decide +kernel, by decide +kernel,
    state_machine_safety (reachable_play (System.init 2 Bool) System.step twoLeaders)
      (show ((0 : Fin 2), 0, ApplyMsg.command (some true) 1) ∈
        (play System.step (System.init 2 Bool) twoLeaders).applied by decide +kernel)
      (show ((1 : Fin 2), 0, ApplyMsg.command (some true) 1) ∈
        (play System.step (System.init 2 Bool) twoLeaders).applied by decide +kernel)⟩

/-! ### Elections -/

/-- Server `i` enters the state of a leader of term `T` in a step. -/
def EntersLeader (s s' : System n C) (i : Fin n) (T : ℕ) : Prop :=
  ((s'.rf i).state = .leader ∧ (s'.rf i).currentTerm = T) ∧
    ¬ ((s.rf i).state = .leader ∧ (s.rf i).currentTerm = T)

/-- **Election safety.** Over a whole run a term has one leadership:
nobody else enters it, and nobody enters it twice. -/
theorem election_safety (r : (raftSys n C).Run) {i j : Fin n} {T k l : ℕ}
    (hi : EntersLeader (r.state k) (r.state (k + 1)) i T)
    (hj : EntersLeader (r.state l) (r.state (l + 1)) j T) : i = j ∧ k = l := by
  obtain ⟨f, hf, hpath⟩ := (raft_simulation n C).run r
  -- leading is seen by the protocol, which remembers who led a term
  have hleads : ∀ k i, ((r.state k).rf i).state = .leader →
      (f k).leader ((r.state k).rf i).currentTerm = some i :=
    fun k i hlead => (((hf k).2.server i).leader_log (hf k).1 hlead).1
  have hrole : ∀ k i, (((r.state k).rf i).state = .leader ∧
      ((r.state k).rf i).currentTerm = T ↔ (f k).role i = .leader ∧ (f k).term i = T) := by
    intro k i
    rw [((hf k).2.server i).role, ((hf k).2.server i).term]
  have hafter : ∀ {k l : ℕ} {i : Fin n}, k ≤ l → (f k).leader T = some i →
      (f l).leader T = some i :=
    fun hkl hlead => leader_star (hf _).1 (star_of_le hpath hkl) hlead
  have honce : ∀ {k l : ℕ} {i : Fin n}, k < l →
      EntersLeader (r.state k) (r.state (k + 1)) i T →
      ¬ EntersLeader (r.state l) (r.state (l + 1)) i T := by
    intro k l i hkl hk hl
    have hled := hafter hkl (hk.1.2 ▸ hleads _ i hk.1.1)
    have hnot := deposed_star (hf l).1 (hpath l) hled (fun hc => hl.2 ((hrole l i).mpr hc))
    exact hnot ((hrole (l + 1) i).mp hl.1)
  have hij : i = j := by
    have h₁ := hafter (le_max_left (k + 1) (l + 1)) (hi.1.2 ▸ hleads _ i hi.1.1)
    have h₂ := hafter (le_max_right (k + 1) (l + 1)) (hj.1.2 ▸ hleads _ j hj.1.1)
    exact Option.some.inj (h₁.symm.trans h₂)
  subst hij
  refine ⟨rfl, ?_⟩
  rcases Nat.lt_trichotomy k l with hkl | hkl | hkl
  · exact absurd hj (honce hkl hi)
  · exact hkl
  · exact absurd hi (honce hkl hj)

theorem election_safety_twoLeaders :
    EntersLeader (twoLeadersRun.state 16) (twoLeadersRun.state 17) 1 2 ∧
      (1 : Fin 2) = 1 ∧ 16 = 16 := by
  have henter : EntersLeader (twoLeadersRun.state 16) (twoLeadersRun.state 17) 1 2 := by
    unfold EntersLeader
    decide +kernel
  exact ⟨henter, election_safety twoLeadersRun henter henter⟩

/-! ### Leader completeness -/

/-- A leader of term `T` sets its commit index to `N` in a step. -/
def LeaderCommits (s s' : System n C) (l : Fin n) (T N : ℕ) : Prop :=
  (s'.rf l).state = .leader ∧ (s'.rf l).currentTerm = T ∧ (s'.rf l).commitIndex = N ∧
    (s.rf l).commitIndex ≠ N

/-- Server `i` has `e` at `index` in its log, or has a snapshot that a
service took at `index` or later, of entries with `e` at `index`. -/
def HasEntry (s : System n C) (i : Fin n) (index : ℕ) (e : LogEntry C) : Prop :=
  (s.rf i).lastIncludedIndex < index ∧ (s.rf i).entryAt index = some e ∨
    index ≤ (s.rf i).lastIncludedIndex ∧
      ((s.entries i).take (s.rf i).lastIncludedIndex)[index - 1]? = some e ∧
      ⟨(s.rf i).lastIncludedIndex, (s.rf i).snapshot,
        (s.entries i).take (s.rf i).lastIncludedIndex⟩ ∈ s.taken

theorem Rel.hasEntry {s : System n C} {A : Abstract n C} (h : Rel s A) {i : Fin n} {index : ℕ}
    {e : LogEntry C} (hpos : 1 ≤ index) (he : (A.log i)[index - 1]? = some e) :
    HasEntry s i index e := by
  rcases Nat.lt_or_ge (s.rf i).lastIncludedIndex index with hlt | hge
  · exact Or.inl ⟨hlt, ((h.server i).holds.entryAt hlt).trans he⟩
  · refine Or.inr ⟨hge, ?_, (h.records.server i).1.resolve_left (by omega)⟩
    rw [h.entries i, List.getElem?_take_of_lt (by omega), he]

/-- **Leader completeness.** Once a leader of term `T` sets its commit
index to `N`, a leader of a later term has the same entries up to `N`, at
whatever moment of the run the two are looked at. -/
theorem leader_completeness (r : (raftSys n C).Run) {k m : ℕ} {l l' : Fin n} {T N : ℕ}
    (hcommit : LeaderCommits (r.state k) (r.state (k + 1)) l T N)
    (hlead : ((r.state m).rf l').state = .leader)
    (hlater : T < ((r.state m).rf l').currentTerm) {index : ℕ} (hpos : 1 ≤ index)
    (hindex : index ≤ N) :
    ∃ e, HasEntry (r.state (k + 1)) l index e ∧ HasEntry (r.state m) l' index e := by
  obtain ⟨f, hf, hpath⟩ := (raft_simulation n C).run r
  obtain ⟨-, hT, hN, -⟩ := hcommit
  have hl := (hf (k + 1)).2.server l
  have hl' := (hf m).2.server l'
  have hcommitted := hl.committedPrefix (hf (k + 1)).1 le_rfl
  have hlen := hl.commit_le (hf (k + 1)).1
  obtain ⟨hleader, hlog⟩ := hl'.leader_log (hf m).1 hlead
  have hpre := hcommitted.lead_any (hf (k + 1)).1 (hf m).1
    (star_of_le hpath (le_max_left (k + 1) m)) (star_of_le hpath (le_max_right (k + 1) m))
    (hT ▸ hlater) hleader
  rw [← hlog, hN] at hpre
  have hlt : index - 1 < ((f (k + 1)).log l).length := by omega
  refine ⟨((f (k + 1)).log l)[index - 1], (hf (k + 1)).2.hasEntry hpos
    (List.getElem?_eq_getElem hlt), (hf m).2.hasEntry hpos ?_⟩
  obtain ⟨R, hR⟩ := hpre
  rw [← hR, List.getElem?_append_left (by simp; omega), List.getElem?_take_of_lt (by omega),
    List.getElem?_eq_getElem hlt]

theorem leader_completeness_twoLeaders :
    LeaderCommits (twoLeadersRun.state 6) (twoLeadersRun.state 7) 0 1 1 ∧
      ∃ e, HasEntry (twoLeadersRun.state 7) 0 1 e ∧ HasEntry (twoLeadersRun.state 17) 1 1 e := by
  have hcommit : LeaderCommits (twoLeadersRun.state 6) (twoLeadersRun.state 7) 0 1 1 := by
    unfold LeaderCommits
    decide +kernel
  exact ⟨hcommit, leader_completeness twoLeadersRun hcommit
    (show ((twoLeadersRun.state 17).rf 1).state = .leader by decide +kernel)
    (by decide +kernel) le_rfl le_rfl⟩

/-! ### Log matching -/

/-- **Log matching with compaction.** Two servers with the same term at an
index that both retain have the same terms at all smaller indices that
both retain, and the same entries above both snapshot boundaries. -/
theorem log_matching {s : System n C} (hs : (raftSys n C).Reachable s) {i j : Fin n} {k : ℕ}
    (hi : (s.rf i).containsIndexLocked k) (hj : (s.rf j).containsIndexLocked k)
    (hterm : (s.rf i).termAtLocked k = (s.rf j).termAtLocked k) :
    (∀ m, m ≤ k → (s.rf i).containsIndexLocked m → (s.rf j).containsIndexLocked m →
      (s.rf i).termAtLocked m = (s.rf j).termAtLocked m) ∧
    ∀ m, m ≤ k → (s.rf i).lastIncludedIndex < m → (s.rf j).lastIncludedIndex < m →
      ∃ e, (s.rf i).entryAt m = some e ∧ (s.rf j).entryAt m = some e := by
  obtain ⟨A, hA, h⟩ := exists_rel hs
  have hlogs := (Inv.reachable hA).logs
  have hi' := (h.server i).holds
  have hj' := (h.server j).holds
  have hik := hi'.contains.mp hi
  have hjk := hj'.contains.mp hj
  rw [hi'.termAtLocked_some hik.1 hik.2, hj'.termAtLocked_some hjk.1 hjk.2] at hterm
  have hagree := (hlogs.log_follows i).matching (hlogs.log_follows j) hik.2 hjk.2
    (Option.some.inj hterm)
  constructor
  · intro m hm him hjm
    have him := hi'.contains.mp him
    have hjm := hj'.contains.mp hjm
    rw [hi'.termAtLocked_some him.1 him.2, hj'.termAtLocked_some hjm.1 hjm.2,
      ← termAt_take hm, hagree, termAt_take hm]
  · intro m hm him hjm
    have hlt : m - 1 < (A.log i).length := by omega
    refine ⟨(A.log i)[m - 1], ?_, ?_⟩
    · rw [hi'.entryAt him, List.getElem?_eq_getElem hlt]
    · rw [hj'.entryAt hjm, ← List.getElem?_take_of_lt (by omega : m - 1 < k), ← hagree,
        List.getElem?_take_of_lt (by omega), List.getElem?_eq_getElem hlt]

theorem log_matching_twoLeaders :
    let s := play System.step (System.init 2 Bool) twoLeaders
    (s.rf 0).termAtLocked 1 = (s.rf 1).termAtLocked 1 ∧
      (s.rf 0).termAtLocked 0 = (s.rf 1).termAtLocked 0 ∧
      ∃ e, (s.rf 0).entryAt 1 = some e ∧ (s.rf 1).entryAt 1 = some e := by
  have hterm : ((play System.step (System.init 2 Bool) twoLeaders).rf 0).termAtLocked 1 =
      ((play System.step (System.init 2 Bool) twoLeaders).rf 1).termAtLocked 1 := by
    decide +kernel
  have hmatch := log_matching (reachable_play (System.init 2 Bool) System.step twoLeaders)
    (by decide +kernel) (by decide +kernel) hterm
  exact ⟨hterm, hmatch.1 0 (by decide) (by decide +kernel) (by decide +kernel),
    hmatch.2 1 le_rfl (by decide +kernel) (by decide +kernel)⟩

/-! ### What a leader knows of its peers -/

/-- Two servers have the same entry at `index`, in their logs or under
snapshots of the committed log. -/
def SameEntry (s : System n C) (i j : Fin n) (index : ℕ) : Prop :=
  ∃ e, HasEntry s i index e ∧ HasEntry s j index e ∧
    (index ≤ (s.rf i).lastIncludedIndex ∨ index ≤ (s.rf j).lastIncludedIndex →
      s.committed[index - 1]? = some e)

theorem HasEntry.committed {s : System n C} {A : Abstract n C} (h : Rel s A) {i : Fin n}
    {index : ℕ} {e : LogEntry C} (he : HasEntry s i index e)
    (hindex : index ≤ (s.rf i).lastIncludedIndex) : s.committed[index - 1]? = some e := by
  rcases he with ⟨hlt, -⟩ | ⟨-, he, htaken⟩
  · exact absurd hindex hlt.not_ge
  · obtain ⟨R, hR⟩ := (h.records.taken _ htaken).2
    rw [← hR, List.getElem?_append_left (List.getElem?_eq_some_iff.mp he).1, he]

theorem ServerRel.unsaved {A : Abstract n C} {i : Fin n} {rf : Raft n C} (h : ServerRel A i rf)
    (hnone : rf.persister.raftstate = none) : A.log i = [] ∧ A.term i = 0 := by
  have hstate := h.synced.state
  rw [hnone, Option.getD_none] at hstate
  have hbase : 0 = rf.lastIncludedIndex := congrArg RaftState.lastIncludedIndex hstate
  have hterm : 0 = rf.currentTerm := congrArg RaftState.currentTerm hstate
  have hlogs : 1 = rf.encodedLogs.length :=
    congrArg (fun state => state.encodedLogs.length) hstate
  have hlen := h.holds.length_logs
  rw [h.holds.encoded, List.length_map] at hlogs
  exact ⟨List.length_eq_zero_iff.mp (by omega), h.term.trans hterm.symm⟩

/-- **Match indices are sound.** What a leader takes a peer to hold, the
peer has confirmed in that term or later, and while the peer stays in the
term it has the entries of the leader up to there. -/
theorem matchIndex_sound {s : System n C} (hs : (raftSys n C).Reachable s) {l p : Fin n}
    (hlead : (s.rf l).state = .leader) (hpos : 0 < (s.rf l).matchIndex p) :
    (∃ data, (s.rf p).persister.raftstate = some data ∧
      (s.rf l).currentTerm ≤ data.currentTerm) ∧
    ((s.rf p).currentTerm = (s.rf l).currentTerm →
      ∀ index, 1 ≤ index → index ≤ (s.rf l).matchIndex p → SameEntry s l p index) := by
  obtain ⟨A, hA, h⟩ := exists_rel hs
  have hacks := (Inv.reachable hA).acks
  have hl := h.server l
  have hp := h.server p
  have hacked := hl.matched hlead p
  obtain ⟨-, hlog⟩ := hl.leader_log hA hlead
  have hterm := hacks.acked_term (hpos.trans_le hacked)
  have hlen := hacks.acked_le (s.rf l).currentTerm p
  -- in the term itself nothing that was confirmed can have been lost
  have hheld : A.term p = (s.rf l).currentTerm →
      (A.log l).take ((s.rf l).matchIndex p) <+: A.log p := by
    intro heq
    rw [hlog]
    rcases hacks.held hacked with hpre | ⟨t, hlt, hgt, -⟩
    · exact hpre
    · omega
  constructor
  · cases hdata : (s.rf p).persister.raftstate with
    | none =>
        obtain ⟨hnil, hzero⟩ := hp.unsaved hdata
        have hpre := (hheld (by omega)).length_le
        rw [hnil, List.length_take, hlog] at hpre
        simp only [List.length_nil] at hpre
        omega
    | some data =>
        have hstate := hp.synced.state
        rw [hdata, Option.getD_some] at hstate
        refine ⟨data, rfl, ?_⟩
        rw [hstate]
        exact hterm.trans_eq hp.term
  · intro heq index hone hindex
    have hlt : index - 1 < (A.log l).length := by
      rw [hlog]
      omega
    have he := List.getElem?_eq_getElem hlt
    have he' : (A.log p)[index - 1]? = some (A.log l)[index - 1] := by
      obtain ⟨R, hR⟩ := hheld (hp.term.trans heq)
      rw [← hR, List.getElem?_append_left (by simp; omega), List.getElem?_take_of_lt (by omega), he]
    have hmine := h.hasEntry hone he
    have hyours := h.hasEntry hone he'
    refine ⟨_, hmine, hyours, fun hunder => ?_⟩
    rcases hunder with hunder | hunder
    · exact hmine.committed h hunder
    · exact hyours.committed h hunder

theorem matchIndex_sound_twoLeaders :
    let s := play System.step (System.init 2 Bool) (twoLeaders.take 7)
    (s.rf 0).state = .leader ∧ (s.rf 0).matchIndex 1 = 1 ∧ SameEntry s 0 1 1 := by
  have hlead : ((play System.step (System.init 2 Bool) (twoLeaders.take 7)).rf 0).state =
      .leader := by decide +kernel
  have hmatch : ((play System.step (System.init 2 Bool) (twoLeaders.take 7)).rf 0).matchIndex 1 =
      1 := by decide +kernel
  have hsound := matchIndex_sound
    (reachable_play (System.init 2 Bool) System.step (twoLeaders.take 7)) (p := 1) hlead
    (by rw [hmatch]; decide)
  exact ⟨hlead, hmatch, hsound.2 (by decide +kernel) 1 le_rfl hmatch.ge⟩

/-! ### Well-formed servers -/

/-- The shape of the variables of a server between its critical sections. -/
structure WellFormed (rf : Raft n C) : Prop where
  dummy : 1 ≤ rf.logs.length
  encoded : rf.encodedLogs.length = rf.logs.length
  boundary : rf.logs[0]?.map LogEntry.term = some rf.lastIncludedTerm
  sorted : rf.logs.Pairwise fun e e' => e.term ≤ e'.term
  bounded : ∀ e ∈ rf.logs, e.term ≤ rf.currentTerm
  base_le : rf.lastIncludedIndex ≤ rf.lastApplied
  applied_le : rf.lastApplied ≤ rf.commitIndex
  commit_le : rf.commitIndex ≤ rf.lastLogIndexLocked

/-- None of the index expressions of a server is out of range, whatever
it is asked. -/
structure InRange (rf : Raft n C) : Prop where
  applier : rf.applierReady → rf.applierClaim ≠ none
  snapshot : ∀ index data, rf.takeSnapshot index data ≠ none
  appendEntries : ∀ args, rf.appendEntries args ≠ none
  lastLogTerm : rf.lastLogTermLocked ≠ none
  replicate : ∀ peer, rf.replicationRequest peer ≠ none

theorem Raft.Holds.term_logs {rf : Raft n C} {L : List (LogEntry C)} (h : rf.Holds L) {k : ℕ}
    (hk : k < rf.logs.length) :
    rf.logs[k].term = termAt L (rf.lastIncludedIndex + k) ∧
      rf.lastIncludedIndex + k ≤ L.length := by
  have hlen := h.length_logs
  have hbase := h.base_le
  have hle : rf.lastIncludedIndex + k ≤ L.length := by omega
  have hterm : rf.logs[k]?.map LogEntry.term = some (termAt L (rf.lastIncludedIndex + k)) := by
    rw [h.logs]
    exact Raft.compacted_term hle
  rw [List.getElem?_eq_getElem hk] at hterm
  exact ⟨Option.some.inj hterm, hle⟩

theorem Rel.wellFormed {s : System n C} {A : Abstract n C} (h : Rel s A)
    (hA : (abstractSys n C).Reachable A) (i : Fin n) : WellFormed (s.rf i) := by
  have hi := h.server i
  have hlogs := (Inv.reachable hA).logs
  have hsorted := (hlogs.log_follows i).sorted hlogs.lead_sorted
  have hlen := hi.holds.length_logs
  constructor
  · omega
  · rw [hi.holds.encoded, List.length_map]
  · rw [hi.holds.logs, Raft.compacted_term (by simpa using hi.holds.base_le), hi.holds.base_term]
    rfl
  · rw [List.pairwise_iff_getElem]
    intro a b ha hb hab
    rw [(hi.holds.term_logs ha).1, (hi.holds.term_logs hb).1]
    exact hsorted _ _ (by omega) (hi.holds.term_logs hb).2
  · intro e he
    obtain ⟨k, hk, rfl⟩ := List.mem_iff_getElem.mp he
    rw [(hi.holds.term_logs hk).1, ← hi.term]
    exact hlogs.log_le i _
  · exact hi.base_le
  · exact hi.applied_le
  · rw [hi.holds.lastLogIndex]
    exact hi.commit_le hA

theorem Rel.inRange {s : System n C} {A : Abstract n C} (h : Rel s A)
    (hA : (abstractSys n C).Reachable A) (i : Fin n) : InRange (s.rf i) := by
  have hi := h.server i
  constructor
  · intro hready
    obtain ⟨rf, messages, hrun, -⟩ := hi.applierClaim hA hready
    rw [hrun]; simp
  · intro index data
    obtain ⟨rf, hrun, -⟩ := hi.holds.takeSnapshot index data
    rw [hrun]; simp
  · intro args
    obtain ⟨rf, reply, hrun, -⟩ := hi.holds.appendEntries args
    rw [hrun]; simp
  · rw [hi.holds.lastLogTerm]; simp
  · intro peer
    obtain ⟨request, hrun, -⟩ := hi.holds.replicationRequest peer
    rw [hrun]; simp

/-- **The committed prefix is never touched.** Reachable servers are well
formed and index their logs in range; while a process lives its commit
index never decreases; and a step keeps every stored entry up to the
commit index, or folds it into the snapshot. -/
theorem committed_untouched {s : System n C} (hs : (raftSys n C).Reachable s) (i : Fin n) :
    WellFormed (s.rf i) ∧ InRange (s.rf i) ∧ ∀ a s', s.step a = some s' →
    ((s'.procs i).incarnation = (s.procs i).incarnation →
      (s.rf i).commitIndex ≤ (s'.rf i).commitIndex) ∧
    ∀ index, (s.rf i).lastIncludedIndex < index → index ≤ (s.rf i).commitIndex →
      index ≤ (s'.rf i).lastIncludedIndex ∨
        ∃ e, (s.rf i).entryAt index = some e ∧ (s'.rf i).entryAt index = some e := by
  obtain ⟨A, hA, h⟩ := exists_rel hs
  refine ⟨h.wellFormed hA i, h.inRange hA i, fun a s' hstep => ?_⟩
  obtain ⟨A', hstar, h'⟩ := h.step hA hstep
  refine ⟨fun hlife => h.commit_le hA hstep hlife, fun index hbase hindex => ?_⟩
  rcases Nat.lt_or_ge (s'.rf i).lastIncludedIndex index with hkept | hfolded
  · right
    have hi := h.server i
    have hlen := hi.commit_le hA
    have hlt : index - 1 < (A.log i).length := by omega
    -- the committed part of the old log begins the new one
    have hpre : (A.log i).take (s.rf i).commitIndex <+: A'.log i := by
      refine log_star hA hstar ?_ (List.take_prefix _ _)
      rw [hi.term]
      exact hi.committedPrefix hA le_rfl
    obtain ⟨R, hR⟩ := hpre
    refine ⟨(A.log i)[index - 1], ?_, ?_⟩
    · rw [hi.holds.entryAt hbase, List.getElem?_eq_getElem hlt]
    · rw [(h'.server i).holds.entryAt hkept, ← hR,
        List.getElem?_append_left (by simp; omega), List.getElem?_take_of_lt (by omega),
        List.getElem?_eq_getElem hlt]
  · exact Or.inl hfolded

/-- Server 0 of `twoLeaders` has delivered its command after nine steps,
and a snapshot folds it. -/
theorem committed_untouched_twoLeaders :
    let s := play System.step (System.init 2 Bool) (twoLeaders.take 9)
    (s.rf 0).lastIncludedIndex < 1 ∧ 1 ≤ (s.rf 0).commitIndex ∧ WellFormed (s.rf 0) ∧
      ∀ s', s.step (.snapshot 0 1 [7]) = some s' → 1 ≤ (s'.rf 0).lastIncludedIndex ∨
        ∃ e, (s.rf 0).entryAt 1 = some e ∧ (s'.rf 0).entryAt 1 = some e := by
  have huntouched := committed_untouched
    (reachable_play (System.init 2 Bool) System.step (twoLeaders.take 9)) 0
  have hbase : ((play System.step (System.init 2 Bool)
      (twoLeaders.take 9)).rf 0).lastIncludedIndex < 1 := by decide +kernel
  have hcommit : 1 ≤ ((play System.step (System.init 2 Bool)
      (twoLeaders.take 9)).rf 0).commitIndex := by decide +kernel
  exact ⟨hbase, hcommit, huntouched.1, fun s' hstep =>
    (huntouched.2.2 _ s' hstep).2 1 hbase hcommit⟩

end RaftShardedKv
