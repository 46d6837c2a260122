import RaftShardedKv.Raft.Rounds

/-!
A majority of live servers can elect a leader among themselves.

The one to stand is a server with a log that is as up to date as any in
the majority. If it leads a term that others have left behind, its next
round tells it so. It then stands until it is ahead of all of them, asks each
for its vote, and nobody has a reason to refuse. Nothing needs to be known
about servers outside the majority or about calls that are still in
flight.
-/

namespace RaftShardedKv

open TermLog Consensus Transition

variable {n : ℕ} {C : Type} [Labgob C]

theorem holds_entries {s : System n C} (hs : (raftSys n C).Reachable s) (i : Fin n) :
    (s.rf i).Holds (s.entries i) := by
  obtain ⟨A, -, h⟩ := exists_rel hs
  rw [h.entries i]
  exact (h.server i).holds

theorem me_of_reachable {s : System n C} (hs : (raftSys n C).Reachable s) (i : Fin n) :
    (s.rf i).me = i := by
  obtain ⟨A, -, h⟩ := exists_rel hs
  exact (h.server i).me

theorem System.entries_setRf {s : System n C} {i : Fin n} {rf : Raft n C}
    (h : rf.Holds (s.entries i)) : (s.setRf i rf).entries = s.entries := by
  show Function.update s.entries i _ = s.entries
  rw [h.entries rfl, Function.update_eq_self]

namespace Exchanged

variable {s s' : System n C} {q p : Fin n} {l f : Raft n C} {base : List (LogEntry C)}

section

omit [Labgob C]

theorem rf_caller (h : Exchanged q p l f base s s') : s'.rf q = l := by
  rw [System.rf, h.caller]

theorem rf_receiver (h : Exchanged q p l f base s s') : s'.rf p = f := by
  rw [System.rf, h.receiver]

theorem rf_other (h : Exchanged q p l f base s s') {i : Fin n} (hq : i ≠ q) (hp : i ≠ p) :
    s'.rf i = s.rf i := by
  rw [System.rf, h.other i hq hp]
  rfl

/-- What holds of the two servers after the round and of the others before
it holds of all servers after it. -/
theorem forall_rf (h : Exchanged q p l f base s s') {Q : Finset (Fin n)}
    (P : Fin n → Raft n C → Prop) (hq : P q l) (hp : P p f) (hother : ∀ i ∈ Q, P i (s.rf i)) :
    ∀ i ∈ Q, P i (s'.rf i) := by
  intro i hi
  rcases eq_or_ne i q with rfl | hiq
  · rwa [h.rf_caller]
  · rcases eq_or_ne i p with rfl | hip
    · rwa [h.rf_receiver]
    · rw [h.rf_other hiq hip]
      exact hother i hi

end

theorem entries_caller (h : Exchanged q p l f base s s') (hl : l.Holds (s.entries q)) :
    s'.entries q = s.entries q := by
  rw [h.entries, Function.update_self, hl.entries rfl]

theorem entries_eq (h : Exchanged q p l f (s.entries p) s s') (hl : l.Holds (s.entries q))
    (hf : f.Holds (s.entries p)) : s'.entries = s.entries := by
  rw [h.entries, hl.entries rfl, hf.entries rfl, Function.update_eq_self,
    Function.update_eq_self]

end Exchanged

/-- The servers of `Q` run. -/
structure Alive (Q : Finset (Fin n)) (s : System n C) : Prop where
  reachable : (raftSys n C).Reachable s
  live : ∀ i ∈ Q, (s.rf i).dead = false

/-- Server `q` leads, and no server of `Q` is in a later term. -/
structure Leads (Q : Finset (Fin n)) (q : Fin n) (s : System n C) : Prop extends Alive Q s where
  leader : (s.rf q).state = .leader
  latest : ∀ i ∈ Q, (s.rf i).currentTerm ≤ (s.rf q).currentTerm

section

variable {Q : Finset (Fin n)} {s : System n C} {q p : Fin n}

theorem Alive.can (h : Alive Q s) {P : System n C → Prop} (hcan : (amongSys C Q).Can s P) :
    (amongSys C Q).Can s fun s' => (raftSys n C).Reachable s' ∧ P s' := by
  refine hcan.reachable (fun _ _ _ hstep => ?_) h.reachable
  exact hstep.2

/-! ### A leader that has been left behind -/

/-- A round to a server in a later term makes the leader a follower. -/
theorem Alive.depose (h : Alive Q s) (hq : q ∈ Q) (hp : p ∈ Q)
    (hlead : (s.rf q).state = .leader) (hstale : (s.rf q).currentTerm < (s.rf p).currentTerm) :
    (amongSys C Q).Can s fun s' =>
      Alive Q s' ∧ (s'.rf q).state = .follower ∧ s'.entries = s.entries := by
  have hholds := holds_entries h.reachable
  have hne : p ≠ q := by
    rintro rfl
    exact lt_irrefl _ hstale
  have hcan : (amongSys C Q).Can s
      (Exchanged q p ((s.rf q).follow (s.rf p).currentTerm) (s.rf p) (s.entries p) s) := by
    have hrequest := (hholds q).replicationRequest_eq p
    rw [if_neg (by simp [h.live q hq, hlead])] at hrequest
    by_cases hsnapshot : (s.rf q).nextIndex p ≤ (s.rf q).lastIncludedIndex
    · rw [if_pos hsnapshot] at hrequest
      have hround := exchange_installSnapshot (f := s.rf p)
        (l := (s.rf q).follow (s.rf p).currentTerm)
        hq hp hne hrequest
        (by rw [Raft.installSnapshot, if_neg (by simp [h.live p hp]), if_pos hstale])
        (by rw [Raft.installSnapshotReply, if_neg (by simp [h.live q hq]), if_pos hstale,
          (hholds q).becomeFollowerLocked])
      rwa [if_pos rfl] at hround
    · have hle := (indexed_of_reachable h.reachable q hlead).le p
      rw [(hholds q).lastLogIndex] at hle
      rw [if_neg hsnapshot, if_pos (by omega)] at hrequest
      exact exchange_appendEntries hq hp hne hrequest
        (by rw [Raft.appendEntries, if_neg (by simp [h.live p hp]), if_pos hstale])
        (by rw [Raft.appendEntriesReply, if_neg (by simp [h.live q hq, h.live p hp]),
          if_pos hstale, (hholds q).becomeFollowerLocked])
  refine (h.can hcan).mono fun s' h' => ?_
  obtain ⟨hreach, hex⟩ := h'
  refine ⟨⟨hreach, ?_⟩, by rw [hex.rf_caller, Raft.follow_state],
    hex.entries_eq ((hholds q).follow _) (hholds p)⟩
  exact hex.forall_rf (fun _ rf => rf.dead = false)
    ((Raft.follow_dead _ _).trans (h.live q hq)) (h.live p hp) h.live

/-! ### Standing for election -/

/-- The vote calls of server `q`, standing in `s`. -/
def voteCalls (q : Fin n) (s : System n C) : List (Call n C) :=
  ((List.finRange n).filter fun dst => dst ≠ q).map fun dst =>
    ⟨q, (s.procs q).incarnation, dst, .requestVote ⟨(s.rf q).currentTerm + 1, q,
      (s.entries q).length, lastTerm (s.entries q)⟩ none⟩

/-- Server `q` has stood for election. -/
structure Stood (q : Fin n) (s s' : System n C) : Prop where
  procs : s'.procs = Function.update s.procs q { s.procs q with
    rf := (s.rf q).stand
    votes := Function.update (s.procs q).votes ((s.rf q).currentTerm + 1) 1 }
  entries : s'.entries = s.entries
  net : s'.net = s.net ++ voteCalls q s

omit [Labgob C] in
theorem Stood.rf_self {s' : System n C} (h : Stood q s s') : s'.rf q = (s.rf q).stand := by
  rw [System.rf, h.procs, Function.update_self]

omit [Labgob C] in
theorem Stood.procs_other {s' : System n C} (h : Stood q s s') {i : Fin n} (hi : i ≠ q) :
    s'.procs i = s.procs i := by
  rw [h.procs, Function.update_of_ne hi]

theorem Stood.alive {s' : System n C} (h : Stood q s s') (hs : Alive Q s)
    (hreach : (raftSys n C).Reachable s') : Alive Q s' := by
  refine ⟨hreach, fun i hi => ?_⟩
  rcases eq_or_ne i q with rfl | hne
  · rw [h.rf_self]
    exact hs.live i hi
  · rw [System.rf, h.procs_other hne]
    exact hs.live i hi

theorem Alive.stand (h : Alive Q s) (hq : q ∈ Q) (hfree : (s.rf q).state ≠ .leader)
    (hn : ¬ n / 2 + 1 ≤ 1) : (amongSys C Q).Can s fun s' => Alive Q s' ∧ Stood q s s' := by
  have hholds := holds_entries h.reachable q
  have hme := me_of_reachable h.reachable q
  obtain ⟨s', hstep, hstood⟩ : ∃ s', s.step (.startElection q) = some s' ∧ Stood q s s' := by
    refine ⟨((s.setRf q (s.rf q).stand).setVotes q (s.rf q).stand.currentTerm 1).callAll q
      (.requestVote ⟨(s.rf q).currentTerm + 1, (s.rf q).me, (s.entries q).length,
        lastTerm (s.entries q)⟩ none), ?_, ?_⟩
    · simp only [System.step, if_neg (show ¬ ((s.rf q).dead = true ∨ (s.rf q).state = .leader) by
        simp [h.live q hq, hfree]), hholds.startElection, if_neg hn, Option.bind_eq_bind,
        Option.bind_some]
    · refine ⟨s.setVotes_procs q _ _ _, System.entries_setRf hholds.stand, ?_⟩
      simp [System.callAll, System.setVotes, System.setProc, System.setRf, System.setRfFrom,
        voteCalls, hme]
  refine .step (a := .startElection q) ⟨hq, hstep⟩ (.now ⟨?_, hstood⟩)
  exact hstood.alive h (h.reachable.step hstep)

theorem Alive.raise (h : Alive Q s) (hq : q ∈ Q) (hfree : (s.rf q).state ≠ .leader)
    (hn : ¬ n / 2 + 1 ≤ 1) (m : ℕ) : (amongSys C Q).Can s fun s' =>
      Alive Q s' ∧ (s'.rf q).state ≠ .leader ∧ (s'.rf q).currentTerm = (s.rf q).currentTerm + m ∧
        (∀ i, i ≠ q → s'.rf i = s.rf i) ∧ s'.entries = s.entries := by
  induction m with
  | zero => exact .now ⟨h, hfree, rfl, fun _ _ => rfl, rfl⟩
  | succ m ih =>
      refine ih.andThen fun s₁ h₁ => ?_
      obtain ⟨halive, hfree₁, hterm, hother, hentries⟩ := h₁
      refine (halive.stand hq hfree₁ hn).mono fun s₂ h₂ => ?_
      obtain ⟨halive₂, hstood⟩ := h₂
      refine ⟨halive₂, ?_, ?_, fun i hi => ?_, hstood.entries.trans hentries⟩
      · rw [hstood.rf_self]
        exact Role.noConfusion
      · rw [hstood.rf_self]
        show (s₁.rf q).currentTerm + 1 = _
        omega
      · rw [← hother i hi, System.rf, hstood.procs_other hi]
        rfl

/-! ### Votes -/

theorem Raft.Holds.grants {rf : Raft n C} {L : List (LogEntry C)} (h : rf.Holds L)
    (hlive : rf.dead = false) {args : RequestVoteArgs n} (hterm : rf.currentTerm < args.term)
    (hlog : lastTerm L < args.lastLogTerm ∨
      args.lastLogTerm = lastTerm L ∧ L.length ≤ args.lastLogIndex) :
    rf.requestVote args =
      some ((rf.follow args.term).voteFor args.candidateId, ⟨args.term, true⟩) := by
  have henter : rf.enter args.term = rf.follow args.term := if_pos hterm
  have hvoted : (rf.follow args.term).votedFor = none := by
    rw [Raft.follow_votedFor, if_pos hterm]
  rw [h.requestVote_eq, Raft.answerVote, if_neg (by simp [hlive]), if_neg hterm.not_gt, henter,
    if_pos ⟨Or.inl hvoted, hlog⟩, Raft.follow_currentTerm, max_eq_right hterm.le]

omit [Labgob C] in
theorem Raft.counts_vote {rf : Raft n C} (hlive : rf.dead = false)
    (hcand : rf.state = .candidate) (votes : ℕ) :
    rf.requestVoteReply rf.currentTerm votes ⟨rf.currentTerm, true⟩ =
      some (if n / 2 + 1 ≤ votes + 1 then rf.becomeLeaderLocked else rf, votes + 1) := by
  rw [Raft.requestVoteReply, if_neg (by simp [hlive]), if_neg (lt_irrefl _),
    if_neg (by simp [hcand]), if_neg (by simp)]
  split <;> rfl

/-- The vote call of candidate `q` to `p` in term `T`. -/
def voteCall (q p : Fin n) (T : ℕ) (s : System n C) : Call n C :=
  ⟨q, (s.procs q).incarnation, p,
    .requestVote ⟨T, q, (s.entries q).length, lastTerm (s.entries q)⟩ none⟩

/-- The vote of `p` has been given and counted. -/
structure Voted (q p : Fin n) (T : ℕ) (s s' : System n C) : Prop where
  candidate : s'.procs q = { s.procs q with
    rf := if n / 2 + 1 ≤ (s.procs q).votes T + 1 then (s.rf q).becomeLeaderLocked else s.rf q
    votes := Function.update (s.procs q).votes T ((s.procs q).votes T + 1) }
  voter : s'.procs p = { s.procs p with rf := ((s.rf p).follow T).voteFor q }
  other : ∀ i, i ≠ q → i ≠ p → s'.procs i = s.procs i
  entries : s'.entries = s.entries
  net : ∀ c ∈ s.net, c.dst ≠ p → c ∈ s'.net

theorem Alive.vote (h : Alive Q s) (hq : q ∈ Q) (hp : p ∈ Q) (hne : p ≠ q)
    (hcand : (s.rf q).state = .candidate) (hbehind : (s.rf p).currentTerm < (s.rf q).currentTerm)
    (hlog : UpToDate (s.entries q) (s.entries p))
    (hcall : voteCall q p (s.rf q).currentTerm s ∈ s.net) :
    (amongSys C Q).Can s (Voted q p (s.rf q).currentTerm s) := by
  have hholds := holds_entries h.reachable
  obtain ⟨k, hk⟩ := List.mem_iff_getElem?.mp hcall
  set T := (s.rf q).currentTerm with hT
  set args : RequestVoteArgs n := ⟨T, q, (s.entries q).length, lastTerm (s.entries q)⟩ with hargs
  set f := ((s.rf p).follow T).voteFor q with hf
  set l := if n / 2 + 1 ≤ (s.procs q).votes T + 1 then (s.rf q).becomeLeaderLocked else s.rf q
    with hl
  set s₁ := (s.setRf p f).answer k (voteCall q p T s) (.requestVote args (some ⟨T, true⟩)) with hs₁
  set s₂ := ((s₁.setRf q l).setVotes q T ((s.procs q).votes T + 1)).close k with hs₂
  have hgrant : (s.rf p).requestVote args = some (f, ⟨T, true⟩) :=
    (hholds p).grants (h.live p hp) hbehind hlog
  have hcount : (s.rf q).requestVoteReply T ((s.procs q).votes T) ⟨T, true⟩ =
      some (l, (s.procs q).votes T + 1) :=
    Raft.counts_vote (h.live q hq) hcand ((s.procs q).votes T)
  have hprocs₁ : s₁.procs = Function.update s.procs p { s.procs p with rf := f } := rfl
  have hself₁ : s₁.procs q = s.procs q := by rw [hprocs₁, Function.update_of_ne hne.symm]
  have hentries₁ : s₁.entries = s.entries := by
    have hvoted : f.Holds (s.entries p) := by
      have hfollow := (hholds p).follow T
      exact ⟨hfollow.base_le, hfollow.base_term, hfollow.logs, hfollow.encoded⟩
    exact System.entries_setRf hvoted
  have hk₁ : s₁.net[k]? = some { voteCall q p T s with
      rpc := .requestVote args (some ⟨T, true⟩) } := by
    simp [hs₁, System.answer, System.setRf, System.setRfFrom,
      (List.getElem?_eq_some_iff.mp hk).1]
  have hstep₁ : s.step (.deliver k) = some s₁ := by
    simp only [System.step, hk, Option.bind_eq_bind, Option.bind_some]
    rw [if_neg (by simp [voteCall, Rpc.requestTerm])]
    simp only [System.deliver, voteCall, ← hargs, hgrant, Option.bind_eq_bind, Option.bind_some]
    rfl
  have hstep₂ : s₁.step (.deliver k) = some s₂ := by
    simp only [System.step, hk₁, Option.bind_eq_bind, Option.bind_some]
    rw [if_neg (fun hold => hold.2 (congrArg Proc.incarnation hself₁.symm))]
    have hrf : s₁.rf q = s.rf q := congrArg Proc.rf hself₁
    simp only [System.deliver, voteCall, hrf, hself₁, Option.bind_eq_bind]
    rw [show args.term = T from rfl, hcount]
    rfl
  refine .step (a := .deliver k) ⟨⟨_, hk, hq, hp⟩, hstep₁⟩
    (.step (a := .deliver k) ⟨⟨_, hk₁, hq, hp⟩, hstep₂⟩ (.now ?_))
  have hprocs₂ : s₂.procs = Function.update s₁.procs q { s.procs q with
      rf := l, votes := Function.update (s.procs q).votes T ((s.procs q).votes T + 1) } := by
    have hset := s₁.setVotes_procs q l T ((s.procs q).votes T + 1)
    rw [hself₁] at hset
    exact hset
  constructor
  · rw [hprocs₂, Function.update_self]
  · rw [hprocs₂, Function.update_of_ne hne, hprocs₁, Function.update_self]
  · intro i hi hi'
    rw [hprocs₂, Function.update_of_ne hi, hprocs₁, Function.update_of_ne hi']
  · have hled : l.Holds (s₁.entries q) := by
      rw [hentries₁, hl]
      have := hholds q
      split
      · exact ⟨this.base_le, this.base_term, this.logs, this.encoded⟩
      · exact this
    exact (System.entries_setRf hled).trans hentries₁
  · intro c hc hdst
    obtain ⟨m, hm⟩ := List.mem_iff_getElem?.mp hc
    have hmk : m ≠ k := by
      rintro rfl
      rw [hk] at hm
      cases hm
      exact hdst rfl
    show c ∈ (s.net.set k _).eraseIdx k
    rw [List.eraseIdx_set_eq]
    exact List.mem_eraseIdx_iff_getElem?.mpr ⟨m, hmk, hm⟩

/-- A server that has stood for election has yet to ask the servers of `P`
for their votes. -/
structure Collects (Q : Finset (Fin n)) (q : Fin n) (P : Finset (Fin n)) (s : System n C) :
    Prop extends Alive Q s where
  latest : ∀ i ∈ Q, (s.rf i).currentTerm ≤ (s.rf q).currentTerm
  counted : (s.rf q).state = .leader ∨ (s.rf q).state = .candidate ∧
    (s.procs q).votes (s.rf q).currentTerm + P.card = Q.card ∧
    (s.procs q).votes (s.rf q).currentTerm < n / 2 + 1
  asked : ∀ p ∈ P, p ∈ Q ∧ p ≠ q ∧ (s.rf p).currentTerm < (s.rf q).currentTerm ∧
    UpToDate (s.entries q) (s.entries p) ∧ voteCall q p (s.rf q).currentTerm s ∈ s.net

/-- One vote more. -/
theorem Voted.collects {P : Finset (Fin n)} {s' : System n C} (h : Collects Q q (insert p P) s)
    (hq : q ∈ Q) (hp : p ∉ P) (hcand : (s.rf q).state = .candidate)
    (hvoted : Voted q p (s.rf q).currentTerm s s') (hreach : (raftSys n C).Reachable s') :
    Collects Q q P s' := by
  obtain ⟨hpQ, hne, hbehind, -, -⟩ := h.asked p (Finset.mem_insert_self p P)
  obtain ⟨hvotes, hmissing⟩ : (s.procs q).votes (s.rf q).currentTerm + (insert p P).card = Q.card ∧
      (s.procs q).votes (s.rf q).currentTerm < n / 2 + 1 := by
    rcases h.counted with hlead | ⟨-, hcounted⟩
    · rw [hcand] at hlead
      cases hlead
    · exact hcounted
  rw [Finset.card_insert_of_notMem hp] at hvotes
  have hself : s'.rf q = if n / 2 + 1 ≤ (s.procs q).votes (s.rf q).currentTerm + 1 then
      (s.rf q).becomeLeaderLocked else s.rf q := by
    rw [System.rf, hvoted.candidate]
  have hterm : (s'.rf q).currentTerm = (s.rf q).currentTerm := by
    rw [hself]
    split <;> rfl
  have hvoter : s'.rf p = ((s.rf p).follow (s.rf q).currentTerm).voteFor q := by
    rw [System.rf, hvoted.voter]
  have hother : ∀ i, i ≠ q → i ≠ p → s'.rf i = s.rf i := by
    intro i hi hi'
    rw [System.rf, hvoted.other i hi hi']
    rfl
  refine ⟨⟨hreach, fun i hi => ?_⟩, fun i hi => ?_, ?_, fun v hv => ?_⟩
  · rcases eq_or_ne i q with rfl | hiq
    · rw [hself]
      split <;> exact h.live i hi
    · rcases eq_or_ne i p with rfl | hip
      · rw [hvoter]
        exact (Raft.follow_dead _ _).trans (h.live i hi)
      · rw [hother i hiq hip]
        exact h.live i hi
  · rw [hterm]
    rcases eq_or_ne i q with rfl | hiq
    · exact hterm.le
    · rcases eq_or_ne i p with rfl | hip
      · rw [hvoter]
        exact (Raft.follow_currentTerm _ _).le.trans (max_le hbehind.le le_rfl)
      · rw [hother i hiq hip]
        exact h.latest i hi
  · have hcount : (s'.procs q).votes (s.rf q).currentTerm =
        (s.procs q).votes (s.rf q).currentTerm + 1 := by
      rw [hvoted.candidate]
      exact Function.update_self ..
    rw [hterm, hcount, hself]
    by_cases hwon : n / 2 + 1 ≤ (s.procs q).votes (s.rf q).currentTerm + 1
    · rw [if_pos hwon]
      exact Or.inl rfl
    · rw [if_neg hwon]
      exact Or.inr ⟨hcand, by omega, by omega⟩
  · obtain ⟨hvQ, hvq, hvbehind, hvlog, hvcall⟩ := h.asked v (Finset.mem_insert_of_mem hv)
    have hvp : v ≠ p := by
      rintro rfl
      exact hp hv
    refine ⟨hvQ, hvq, ?_, ?_, ?_⟩
    · rw [hterm, hother v hvq hvp]
      exact hvbehind
    · rw [hvoted.entries]
      exact hvlog
    · have hsame : voteCall q v (s'.rf q).currentTerm s' =
          voteCall q v (s.rf q).currentTerm s := by
        rw [voteCall, voteCall, hterm, hvoted.entries, hvoted.candidate]
      rw [hsame]
      exact hvoted.net _ hvcall hvp

theorem Collects.elects {P : Finset (Fin n)} (h : Collects Q q P s) (hq : q ∈ Q)
    (hQ : n / 2 + 1 ≤ Q.card) : (amongSys C Q).Can s (Leads Q q) := by
  induction P using Finset.induction_on generalizing s with
  | empty =>
      rcases h.counted with hlead | ⟨-, hvotes, hmissing⟩
      · exact .now ⟨h.toAlive, hlead, h.latest⟩
      · rw [Finset.card_empty] at hvotes
        omega
  | insert p P hp ih =>
      rcases h.counted with hlead | ⟨hcand, -⟩
      · exact .now ⟨h.toAlive, hlead, h.latest⟩
      · obtain ⟨hpQ, hne, hbehind, hlog, hcall⟩ := h.asked p (Finset.mem_insert_self p P)
        refine (h.can (h.vote hq hpQ hne hcand hbehind hlog hcall)).andThen fun s' h' => ?_
        exact ih (h'.2.collects h hq hp hcand h'.1)

/-! ### An election -/

/-- Who has stood in a term after all others of `Q`, with a log as up to
date as theirs, has all their votes to ask for. -/
theorem Stood.collects {s' : System n C} (hstood : Stood q s s') (h : Alive Q s) (hq : q ∈ Q)
    (hn : ¬ n / 2 + 1 ≤ 1) (hreach : (raftSys n C).Reachable s')
    (hahead : ∀ i ∈ Q, (s.rf i).currentTerm ≤ (s.rf q).currentTerm)
    (hlog : ∀ i ∈ Q, UpToDate (s.entries q) (s.entries i)) :
    Collects Q q (Q.erase q) s' := by
  have hterm : (s'.rf q).currentTerm = (s.rf q).currentTerm + 1 := by
    rw [hstood.rf_self]
    rfl
  have hother : ∀ i, i ≠ q → s'.rf i = s.rf i := by
    intro i hi
    rw [System.rf, hstood.procs_other hi]
    rfl
  have hprocs : s'.procs q = { s.procs q with
      rf := (s.rf q).stand
      votes := Function.update (s.procs q).votes ((s.rf q).currentTerm + 1) 1 } := by
    rw [hstood.procs, Function.update_self]
  refine ⟨hstood.alive h hreach, fun i hi => ?_, Or.inr ⟨?_, ?_, ?_⟩, fun p hp => ?_⟩
  · rcases eq_or_ne i q with rfl | hne
    · exact le_rfl
    · rw [hother i hne, hterm]
      exact (hahead i hi).trans (Nat.le_succ _)
  · rw [hstood.rf_self]
    rfl
  · rw [hterm, hprocs, Finset.card_erase_of_mem hq]
    have hpos : 0 < Q.card := Finset.card_pos.mpr ⟨q, hq⟩
    simp only [Function.update_self]
    omega
  · rw [hterm, hprocs]
    simp only [Function.update_self]
    omega
  · obtain ⟨hne, hpQ⟩ := Finset.mem_erase.mp hp
    refine ⟨hpQ, hne, ?_, ?_, ?_⟩
    · rw [hother p hne, hterm]
      exact Nat.lt_succ_of_le (hahead p hpQ)
    · rw [hstood.entries]
      exact hlog p hpQ
    · rw [hstood.net]
      refine List.mem_append_right _ (List.mem_map.mpr ⟨p, by simp [hne], ?_⟩)
      rw [voteCall, hterm, hstood.entries, hprocs]

theorem Alive.lead_alone (h : Alive Q s) (hq : q ∈ Q) (hfree : (s.rf q).state ≠ .leader)
    (hn : n / 2 + 1 ≤ 1) : (amongSys C Q).Can s (Leads Q q) := by
  have hholds := holds_entries h.reachable q
  have honly : ∀ i : Fin n, i = q := fun i => Fin.ext (by have := i.2; have := q.2; omega)
  have hstep : s.step (.startElection q) =
      some ((s.setRf q (s.rf q).stand.becomeLeaderLocked).setVotes q
        (s.rf q).stand.becomeLeaderLocked.currentTerm 1) := by
    simp only [System.step, if_neg (show ¬ ((s.rf q).dead = true ∨ (s.rf q).state = .leader) by
      simp [h.live q hq, hfree]), hholds.startElection, if_pos hn, Option.bind_eq_bind,
      Option.bind_some]
  have hself : (((s.setRf q (s.rf q).stand.becomeLeaderLocked).setVotes q
      (s.rf q).stand.becomeLeaderLocked.currentTerm 1).rf q) =
      (s.rf q).stand.becomeLeaderLocked := by
    rw [System.rf, System.setVotes_procs, Function.update_self]
  refine .step (a := .startElection q) ⟨hq, hstep⟩ (.now ⟨⟨h.reachable.step hstep, ?_⟩, ?_, ?_⟩)
  · intro i hi
    rw [honly i, hself]
    exact h.live q hq
  · rw [hself]
    rfl
  · intro i _
    rw [honly i]

omit [Labgob C] in
theorem exists_upToDate (hQ : Q.Nonempty) (s : System n C) :
    ∃ q ∈ Q, ∀ i ∈ Q, UpToDate (s.entries q) (s.entries i) := by
  obtain ⟨q, hq, hmax⟩ := Q.exists_max_image
    (fun i => toLex (lastTerm (s.entries i), (s.entries i).length)) hQ
  refine ⟨q, hq, fun i hi => ?_⟩
  rcases Prod.Lex.toLex_le_toLex.mp (hmax i hi) with hlt | ⟨heq, hle⟩
  · exact Or.inl hlt
  · exact Or.inr ⟨heq.symm, hle⟩

/-- **A majority can elect a leader.** -/
theorem Alive.elect (h : Alive Q s) (hQ : n / 2 + 1 ≤ Q.card) :
    (amongSys C Q).Can s fun s' => ∃ q ∈ Q, Leads Q q s' := by
  have hsome : 0 < Q.card := by omega
  obtain ⟨q, hq, hlog⟩ := exists_upToDate (Finset.card_pos.mp hsome) s
  by_cases hled : (s.rf q).state = .leader ∧ ∀ i ∈ Q, (s.rf i).currentTerm ≤ (s.rf q).currentTerm
  · exact .now ⟨q, hq, h, hled.1, hled.2⟩
  have hfree : (amongSys C Q).Can s fun s' =>
      Alive Q s' ∧ (s'.rf q).state ≠ .leader ∧ s'.entries = s.entries := by
    by_cases hlead : (s.rf q).state = .leader
    · obtain ⟨p, hp, hstale⟩ : ∃ p ∈ Q, (s.rf q).currentTerm < (s.rf p).currentTerm := by
        by_contra hnone
        push Not at hnone
        exact hled ⟨hlead, hnone⟩
      refine (h.depose hq hp hlead hstale).mono fun s' h' => ⟨h'.1, ?_, h'.2.2⟩
      rw [h'.2.1]
      exact Role.noConfusion
    · exact .now ⟨h, hlead, rfl⟩
  refine hfree.andThen fun s₁ h₁ => ?_
  obtain ⟨h₁, hfree₁, hentries₁⟩ := h₁
  by_cases hn : n / 2 + 1 ≤ 1
  · exact (h₁.lead_alone hq hfree₁ hn).mono fun s' h' => ⟨q, hq, h'⟩
  -- first into a term that all others have not passed
  refine (h₁.raise hq hfree₁ hn (Q.sup fun i => (s₁.rf i).currentTerm)).andThen fun s₂ h₂ => ?_
  obtain ⟨h₂, hfree₂, hterm₂, hother₂, hentries₂⟩ := h₂
  have hahead : ∀ i ∈ Q, (s₂.rf i).currentTerm ≤ (s₂.rf q).currentTerm := by
    intro i hi
    rcases eq_or_ne i q with rfl | hne
    · exact le_rfl
    · have hsup := Finset.le_sup (f := fun i => (s₁.rf i).currentTerm) hi
      rw [hother₂ i hne, hterm₂]
      exact hsup.trans (Nat.le_add_left _ _)
  refine (h₂.stand hq hfree₂ hn).andThen fun s₃ h₃ => ?_
  have hcollects := h₃.2.collects h₂ hq hn h₃.1.reachable hahead fun i hi => by
    rw [hentries₂, hentries₁]
    exact hlog i hi
  exact (hcollects.elects hq hQ).mono fun s' h' => ⟨q, hq, h'⟩

end

end RaftShardedKv
