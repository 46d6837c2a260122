import RaftShardedKv.Raft.Campaign
import RaftShardedKv.Raft.Delivery

/-!
A majority of live servers is never stuck.

Whatever has happened to the cluster, however the logs differ and whatever
is still in flight, the servers of any majority can elect a leader, have it
take a new command, bring the logs of all of them up to that command,
commit it and deliver it. The argument goes through the phases of
`replicateUntilStable`: the leader backs off until the logs meet or until
it has to send its snapshot, which it does at most once for each server;
when all have confirmed the command it is committed, one more round tells
the others, and the appliers deliver what is before it and then the command.
-/

namespace RaftShardedKv

open TermLog Consensus Transition

variable {n : ℕ} {C : Type}

variable {Q : Finset (Fin n)} {s s' : System n C} {q p : Fin n} {L : List (LogEntry C)}

/-! ### The command is in the leader's log -/

variable [Labgob C]

/-- A leader brings its log `L`, which ends with an entry of its own term,
to the servers of `Q`. -/
structure Spreads (Q : Finset (Fin n)) (q : Fin n) (L : List (LogEntry C)) (s : System n C) :
    Prop extends Leads Q q s where
  log : s.entries q = L
  newest : lastTerm L = (s.rf q).currentTerm
  fresh : ∀ i ∈ Q, (s.rf i).lastApplied < L.length
  counted : (∀ i ∈ Q, L.length ≤ (s.rf q).matchIndex i) → L.length ≤ (s.rf q).commitIndex

theorem Raft.Holds.commits_all {l : Raft n C} (h : l.Holds L) (hlead : l.state = .leader)
    (hterm : lastTerm L = l.currentTerm) (hQ : n / 2 + 1 ≤ Q.card)
    (hall : ∀ i ∈ Q, L.length ≤ l.advanceCommitIndexLocked.matchIndex i) :
    L.length ≤ l.advanceCommitIndexLocked.commitIndex := by
  obtain ⟨c, -, heq⟩ := l.advance_eq
  rw [heq] at hall
  refine h.commits hlead hterm (hQ.trans (Finset.card_le_card fun i hi => ?_))
  exact Finset.mem_filter.mpr ⟨Finset.mem_univ i, hall i hi⟩

theorem Leads.applied_le (h : Leads Q q s) {i : Fin n} (hi : i ∈ Q) :
    (s.rf i).lastApplied ≤ (s.entries q).length := by
  obtain ⟨A, hA, hrel⟩ := exists_rel h.reachable
  obtain ⟨hleader, hlog⟩ := (hrel.server q).leader_log hA h.leader
  have hpre := (hrel.server i).commit_lead hA (by rw [hleader]; simp) (h.latest i hi)
  have hlength := hpre.length_le
  rw [List.length_take, min_eq_left ((hrel.server i).commit_le hA), ← hlog, ← hrel.entries q]
    at hlength
  exact (hrel.server i).applied_le.trans hlength

theorem Leads.accepts (h : Leads Q q s) (hq : q ∈ Q) (command : C) :
    (s.rf q).start command = some
      (if n = 1 then ((s.rf q).appended (s.entries q) command).advanceCommitIndexLocked
        else (s.rf q).appended (s.entries q) command,
        some ((s.entries q).length + 1), (s.rf q).currentTerm, true) := by
  rw [(holds_entries h.reachable q).start, if_neg (by simp [h.live q hq, h.leader])]

theorem Leads.start (h : Leads Q q s) (hq : q ∈ Q) (hQ : n / 2 + 1 ≤ Q.card) (command : C) :
    ∃ s', s.step (.start q command) = some s' ∧
      s'.started =
        ((s.rf q).currentTerm, (s.entries q).length + 1, command) :: s.started ∧
      Spreads Q q (s.entries q ++ [⟨(s.rf q).currentTerm, some command⟩]) s' := by
  have hholds := holds_entries h.reachable q
  have hindexed := indexed_of_reachable h.reachable q h.leader
  set T := (s.rf q).currentTerm with hT
  set L := s.entries q ++ [⟨T, some command⟩] with hL
  set l := if n = 1 then ((s.rf q).appended (s.entries q) command).advanceCommitIndexLocked
    else (s.rf q).appended (s.entries q) command with hl
  have hstart : (s.rf q).start command = some (l, some ((s.entries q).length + 1), T, true) :=
    h.accepts hq command
  have hstep : s.step (.start q command) = some { s.setRf q l with
      started := (T, (s.entries q).length + 1, command) :: s.started } := by
    simp only [System.step, hstart, Option.bind_eq_bind, Option.bind_some]
    rfl
  -- but for its commit index the leader is as it was after the append
  obtain ⟨c, hc⟩ : ∃ c, l = { (s.rf q).appended (s.entries q) command with commitIndex := c } := by
    rw [hl]
    split
    · obtain ⟨c, -, heq⟩ := ((s.rf q).appended (s.entries q) command).advance_eq
      exact ⟨c, heq⟩
    · exact ⟨_, rfl⟩
  have hholds' : l.Holds L := by
    have happended := hholds.appended command
    rw [hc]
    exact ⟨happended.base_le, happended.base_term, happended.logs, happended.encoded⟩
  have hprocs : ∀ i, ({ s.setRf q l with
      started := (T, (s.entries q).length + 1, command) :: s.started } : System n C).rf i =
        if i = q then l else s.rf i := by
    intro i
    show (Function.update s.procs q { s.procs q with rf := l } i).rf = _
    rcases eq_or_ne i q with rfl | hi
    · simp
    · simp [hi, System.rf]
  have hlength : L.length = (s.entries q).length + 1 := by simp [hL]
  refine ⟨_, hstep, rfl, ⟨⟨⟨h.reachable.step hstep, fun i hi => ?_⟩, ?_, fun i hi => ?_⟩,
    ?_, ?_, fun i hi => ?_, fun hall => ?_⟩⟩
  · rw [hprocs]
    split
    · rw [hc]
      exact h.live q hq
    · exact h.live i hi
  · rw [hprocs, if_pos rfl, hc]
    exact h.leader
  · rw [hprocs, hprocs, if_pos rfl]
    split
    · exact le_rfl
    · rw [hc]
      exact h.latest i hi
  · show Function.update s.entries q _ q = L
    rw [Function.update_self]
    refine hholds'.entries ?_
    rw [hc]
    exact (List.take_append_of_le_length hholds.base_le).symm
  · rw [hprocs, if_pos rfl, hc, lastTerm, hlength, hL, termAt_concat]
    rfl
  · rw [hprocs, hlength]
    split
    · rw [hc]
      exact Nat.lt_succ_of_le (h.applied_le hq)
    · exact Nat.lt_succ_of_le (h.applied_le hi)
  · rw [hprocs, if_pos rfl] at hall ⊢
    by_cases hn : n = 1
    · rw [hl, if_pos hn] at hall ⊢
      refine (hholds.appended command).commits_all h.leader ?_ hQ hall
      rw [lastTerm, ← hT, ← hL, hlength, hL, termAt_concat]
      rfl
    · -- some other server of `Q` has not been sent the entry yet
      exfalso
      have hmore : 1 < Q.card := by
        have := q.2
        omega
      obtain ⟨p, hp, hne⟩ := Finset.exists_mem_ne hmore q
      have hbehind := hall p hp
      have hme := me_of_reachable h.reachable q
      have hmatch : l.matchIndex p = (s.rf q).matchIndex p := by
        rw [hc]
        exact Function.update_of_ne (by rw [hme]; exact hne) _ _
      have hlt := hindexed.lt p
      have hle := hindexed.le p
      rw [hholds.lastLogIndex] at hle
      omega

/-! ### Bringing a log up to date -/

/-- A round that changes nothing of the leader but its indices. -/
theorem Spreads.exchanged {l f : Raft n C} {base : List (LogEntry C)} (h : Spreads Q q L s)
    (hq : q ∈ Q) (hex : Exchanged q p l f base s s') (hreach : (raftSys n C).Reachable s')
    (hl : l = { s.rf q with
      nextIndex := l.nextIndex, matchIndex := l.matchIndex, commitIndex := l.commitIndex })
    (hlive : f.dead = false) (hterm : f.currentTerm ≤ (s.rf q).currentTerm)
    (happlied : f.lastApplied < L.length)
    (hcounted : (∀ i ∈ Q, L.length ≤ l.matchIndex i) → L.length ≤ l.commitIndex) :
    Spreads Q q L s' := by
  have hsame : l.currentTerm = (s.rf q).currentTerm := by rw [hl]
  have hholds : l.Holds (s.entries q) := by
    have hbefore := holds_entries h.reachable q
    rw [hl]
    exact ⟨hbefore.base_le, hbefore.base_term, hbefore.logs, hbefore.encoded⟩
  refine ⟨⟨⟨hreach, hex.forall_rf (fun _ rf => rf.dead = false) ?_ hlive h.live⟩, ?_, ?_⟩,
    (hex.entries_caller hholds).trans h.log, ?_,
    hex.forall_rf (fun _ rf => rf.lastApplied < L.length) ?_ happlied h.fresh, ?_⟩
  · rw [hl]
    exact h.live q hq
  · rw [hex.rf_caller, hl]
    exact h.leader
  · rw [hex.rf_caller, hsame]
    exact hex.forall_rf (fun _ rf => rf.currentTerm ≤ (s.rf q).currentTerm) hsame.le hterm h.latest
  · rw [hex.rf_caller, hsame]
    exact h.newest
  · rw [hl]
    exact h.fresh q hq
  · rwa [hex.rf_caller]

/-- What is left to do for `p`: the snapshot may still have to be sent, and
then there are as many rounds as the leader backs off. -/
def toSpread (q p : Fin n) (s : System n C) : ℕ ×ₗ ℕ :=
  toLex (if (s.rf q).matchIndex p < (s.rf q).lastIncludedIndex then 1 else 0,
    Raft.Retries.distance p (s.rf q, s.rf p))

theorem Spreads.retries (h : Spreads Q q L s) (hq : q ∈ Q) (hp : p ∈ Q) :
    Raft.Retries p L (s.entries p) (s.rf q, s.rf p) := by
  obtain ⟨A, hA, hrel⟩ := exists_rel h.reachable
  rw [← h.log]
  exact hrel.retries hA h.leader (indexed_of_reachable h.reachable q h.leader) (h.live q hq)
    (h.live p hp) (h.latest p hp)

/-- A round with entries, when the leader need not send its snapshot. -/
theorem Spreads.round_entries (h : Spreads Q q L s) (hQ : n / 2 + 1 ≤ Q.card) (hq : q ∈ Q)
    (hp : p ∈ Q) (hne : p ≠ q) (hbehind : (s.rf q).matchIndex p < L.length)
    (hnext : (s.rf q).lastIncludedIndex < (s.rf q).nextIndex p) :
    (amongSys C Q).Can s fun s' => Spreads Q q L s' ∧
      (∀ i, (s.rf q).matchIndex i ≤ (s'.rf q).matchIndex i) ∧
      (L.length ≤ (s'.rf q).matchIndex p ∨ toSpread q p s' < toSpread q p s) := by
  have hretries := h.retries hq hp
  have hholds : (s.rf q).Holds L := hretries.holds
  obtain ⟨reply, ⟨l, f⟩, hround⟩ := hretries.answered hnext
  obtain ⟨hrequest, hanswer, hreply⟩ := Raft.retryRound_eq_some hround
  refine (h.can (exchange_appendEntries hq hp hne hrequest hanswer hreply)).mono fun s' h' => ?_
  obtain ⟨hreach, hex⟩ := h'
  dsimp only at hex
  cases hsuccess : reply.success with
  | false =>
      have hdistance := hretries.distance_lt hround hsuccess
      obtain ⟨-, hpair, -⟩ := hretries.failed hround hsuccess
      cases hpair
      refine ⟨h.exchanged hq hex hreach rfl ?_ ?_ ?_ h.counted, fun i => ?_, Or.inr ?_⟩
      · exact (Raft.follow_dead _ _).trans (h.live p hp)
      · exact (Raft.follow_currentTerm _ _).le.trans (max_le (h.latest p hp) le_rfl)
      · exact (Raft.follow_lastApplied _ _).trans_lt (h.fresh p hp)
      · rw [hex.rf_caller]
        exact le_rfl
      · rw [toSpread, toSpread, hex.rf_caller, hex.rf_receiver]
        exact Prod.Lex.toLex_lt_toLex.mpr (Or.inr ⟨rfl, hdistance⟩)
  | true =>
      obtain ⟨hl, hlive, hterm, happlied, -⟩ := hretries.succeeded hround hsuccess
      dsimp only at hl hlive hterm happlied
      rw [if_pos hbehind] at hl
      obtain ⟨c, -, hc⟩ := ((s.rf q).progress p L.length).advance_eq
      have hprogress : ((s.rf q).progress p L.length).Holds L :=
        ⟨hholds.base_le, hholds.base_term, hholds.logs, hholds.encoded⟩
      refine ⟨h.exchanged hq hex hreach (by rw [hl, hc]; rfl) hlive hterm.le
        (happlied.trans_lt (h.fresh p hp)) ?_, fun i => ?_, Or.inl ?_⟩
      · rw [hl]
        exact hprogress.commits_all h.leader h.newest hQ
      · rw [hex.rf_caller, hl, hc]
        exact (s.rf q).matchIndex_le_progress p L.length i
      · rw [hex.rf_caller, hl, hc]
        simp [Raft.progress]

/-- The round that sends the snapshot. -/
theorem Spreads.round_snapshot (h : Spreads Q q L s) (hq : q ∈ Q) (hp : p ∈ Q) (hne : p ≠ q)
    (hbehind : (s.rf q).matchIndex p < L.length)
    (hnext : (s.rf q).nextIndex p ≤ (s.rf q).lastIncludedIndex) :
    (amongSys C Q).Can s fun s' => Spreads Q q L s' ∧
      (∀ i, (s.rf q).matchIndex i ≤ (s'.rf q).matchIndex i) ∧ toSpread q p s' < toSpread q p s := by
  obtain ⟨A, hA, hrel⟩ := exists_rel h.reachable
  have hretries := h.retries hq hp
  have hholds : (s.rf q).Holds L := hretries.holds
  have hbase : (s.rf q).lastIncludedIndex < L.length :=
    (hrel.server q).base_le.trans_lt (h.fresh q hq)
  have hlower : (s.rf q).matchIndex p + 1 ≤ (s.rf q).nextIndex p := hretries.lower
  have hrequest := hholds.replicationRequest_eq p
  rw [if_neg (by simp [h.live q hq, h.leader]), if_pos hnext] at hrequest
  set args : InstallSnapshotArgs n := ⟨(s.rf q).currentTerm, (s.rf q).me,
    (s.rf q).lastIncludedIndex, (s.rf q).lastIncludedTerm, (s.rf q).snapshot⟩ with hargs
  obtain ⟨f, hanswer, hlive, hterm, happlied⟩ := (holds_entries h.reachable p).installs
    ((hrel.server p).base_le.trans (hrel.server p).applied_le) (h.live p hp) args (h.latest p hp)
    (P := L.take (s.rf q).lastIncludedIndex)
    (by rw [List.length_take]; exact min_eq_left hbase.le)
    (by rw [termAt_take le_rfl]; exact hholds.base_term.symm)
  have hreply : (s.rf q).installSnapshotReply p args ⟨args.term, false⟩ =
      some ((s.rf q).progress p (s.rf q).lastIncludedIndex) := by
    rw [Raft.installSnapshotReply, if_neg (by simp [h.live q hq]), if_neg (by simp [hargs]),
      if_neg (by simp [hargs, h.leader])]
  refine (h.can (exchange_installSnapshot hq hp hne hrequest hanswer hreply)).mono fun s' h' => ?_
  obtain ⟨hreach, hex⟩ := h'
  have hmatch : ((s.rf q).progress p (s.rf q).lastIncludedIndex).matchIndex p =
      max ((s.rf q).matchIndex p) (s.rf q).lastIncludedIndex := by
    simp [Raft.progress]
  have hsame : ((s.rf q).progress p (s.rf q).lastIncludedIndex).lastIncludedIndex =
      (s.rf q).lastIncludedIndex := rfl
  refine ⟨h.exchanged hq hex hreach rfl hlive hterm.le ?_ fun hall => ?_, fun i => ?_, ?_⟩
  · rcases happlied with hsame | hnew
    · rw [hsame]
      exact h.fresh p hp
    · rw [hnew]
      exact hbase
  · have := hall p hp
    omega
  · rw [hex.rf_caller]
    exact (s.rf q).matchIndex_le_progress p _ i
  · rw [toSpread, toSpread, hex.rf_caller]
    refine Prod.Lex.toLex_lt_toLex.mpr (Or.inl ?_)
    rw [hmatch, hsame, if_neg (not_lt.mpr (le_max_right _ _)), if_pos (by omega)]
    exact Nat.one_pos

theorem Spreads.replicate (h : Spreads Q q L s) (hQ : n / 2 + 1 ≤ Q.card) (hq : q ∈ Q)
    (hp : p ∈ Q) :
    (amongSys C Q).Can s fun s' => Spreads Q q L s' ∧ L.length ≤ (s'.rf q).matchIndex p ∧
      ∀ i ∈ Q, L.length ≤ (s.rf q).matchIndex i → L.length ≤ (s'.rf q).matchIndex i := by
  rcases eq_or_ne p q with rfl | hne
  · have hindexed := indexed_of_reachable h.reachable p h.leader
    have hown := hindexed.own
    rw [me_of_reachable h.reachable p, (holds_entries h.reachable p).lastLogIndex, h.log] at hown
    exact .now ⟨h, hown.ge, fun i _ hi => hi⟩
  · have hdone := Sys.Can.descend (T := amongSys C Q)
      (fun s' => Spreads Q q L s' ∧ ∀ i, (s.rf q).matchIndex i ≤ (s'.rf q).matchIndex i)
      (fun s' => L.length ≤ (s'.rf q).matchIndex p) (toSpread q p)
      (fun s₁ h₁ hbehind => ?_) ⟨h, fun _ => le_rfl⟩
    · exact hdone.mono fun s' h' => ⟨h'.1.1, h'.2, fun i _ hi => hi.trans (h'.1.2 i)⟩
    · rcases Nat.lt_or_ge (s₁.rf q).lastIncludedIndex ((s₁.rf q).nextIndex p) with hnext | hnext
      · refine (h₁.1.round_entries hQ hq hp hne (not_le.mp hbehind) hnext).mono fun s₂ h₂ => ?_
        exact ⟨⟨h₂.1, fun i => (h₁.2 i).trans (h₂.2.1 i)⟩, h₂.2.2⟩
      · refine (h₁.1.round_snapshot hq hp hne (not_le.mp hbehind) hnext).mono fun s₂ h₂ => ?_
        exact ⟨⟨h₂.1, fun i => (h₁.2 i).trans (h₂.2.1 i)⟩, Or.inr h₂.2.2⟩

/-! ### Commitment -/

/-- One more round tells `p` that all is committed. -/
theorem Spreads.tell (h : Spreads Q q L s) (hq : q ∈ Q) (hp : p ∈ Q)
    (hall : ∀ i ∈ Q, L.length ≤ (s.rf q).matchIndex i) :
    (amongSys C Q).Can s fun s' =>
      (Spreads Q q L s' ∧ ∀ i ∈ Q, L.length ≤ (s'.rf q).matchIndex i) ∧
      L.length ≤ (s'.rf p).commitIndex ∧
      ∀ i ∈ Q, L.length ≤ (s.rf i).commitIndex → L.length ≤ (s'.rf i).commitIndex := by
  have hcommit := h.counted hall
  rcases eq_or_ne p q with rfl | hne
  · exact .now ⟨⟨h, hall⟩, hcommit, fun i _ hi => hi⟩
  have hretries := h.retries hq hp
  have hholds : (s.rf q).Holds L := hretries.holds
  have hmatch : (s.rf q).matchIndex p = L.length := le_antisymm hretries.matched.1 (hall p hp)
  have hnext : (s.rf q).nextIndex p = L.length + 1 := by
    have hlower : (s.rf q).matchIndex p + 1 ≤ (s.rf q).nextIndex p := hretries.lower
    exact le_antisymm hretries.upper (hmatch ▸ hlower)
  have hbase := hholds.base_le
  obtain ⟨reply, ⟨l, f⟩, hround⟩ := hretries.answered (by dsimp only; omega)
  obtain ⟨hrequest, hanswer, hreply⟩ := Raft.retryRound_eq_some hround
  -- the whole log is in place, so there is nothing to refuse
  have hsuccess : reply.success = true := by
    by_contra hfail
    obtain ⟨hsent, -, hrefusal⟩ := hretries.failed hround (by simpa using hfail)
    have hagree : L.take L.length = (s.entries p).take L.length := hmatch ▸ hretries.matched.2
    have hlong : L.length ≤ (s.entries p).length := by
      have hlength := congrArg List.length hagree
      rw [List.length_take, List.length_take] at hlength
      omega
    have hprev : (Raft.retryArgs (s.rf q) p L).prevLogIndex = L.length := by
      dsimp only at hsent
      omega
    dsimp only at hrefusal
    rw [hprev] at hrefusal
    have hcovers : (s.rf p).lastIncludedIndex ≤ L.length := hretries.covers.1
    cases hrefusal with
    | short hshort => omega
    | covered hcovered => omega
    | differs _ _ hdiffers =>
        apply hdiffers
        rw [← termAt_take le_rfl, ← hagree, termAt_take le_rfl]
  obtain ⟨hl, hlive, hterm, happlied, hknows⟩ := hretries.succeeded hround hsuccess
  dsimp only at hl hlive hterm happlied hknows
  rw [hmatch, if_neg (lt_irrefl _)] at hl
  rw [min_eq_right hcommit] at hknows
  refine (h.can (exchange_appendEntries hq hp hne hrequest hanswer hreply)).mono fun s' h' => ?_
  obtain ⟨hreach, hex⟩ := h'
  dsimp only at hex
  have hgrew : ∀ i, (s.rf q).matchIndex i ≤ l.matchIndex i := by
    rw [hl]
    exact (s.rf q).matchIndex_le_progress p L.length
  have hknown : L.length ≤ l.commitIndex := by
    rw [hl]
    exact hcommit
  refine ⟨⟨h.exchanged hq hex hreach (by rw [hl]; rfl) hlive hterm.le
    (happlied.trans_lt (h.fresh p hp)) fun _ => hknown, fun i hi => ?_⟩, ?_,
    hex.forall_rf (fun i rf => L.length ≤ (s.rf i).commitIndex → L.length ≤ rf.commitIndex)
      (fun _ => hknown) (fun _ => hknows) fun i _ hi => hi⟩
  · rw [hex.rf_caller]
    exact (hall i hi).trans (hgrew i)
  · rwa [hex.rf_receiver]

theorem Spreads.commit (h : Spreads Q q L s) (hQ : n / 2 + 1 ≤ Q.card) (hq : q ∈ Q) :
    (amongSys C Q).Can s fun s' =>
      Spreads Q q L s' ∧ ∀ i ∈ Q, L.length ≤ (s'.rf i).commitIndex := by
  have hmatched := Sys.Can.each (T := amongSys C Q) (Spreads Q q L)
    (fun i s => L.length ≤ (s.rf q).matchIndex i) Q (fun s₁ h₁ i hi => h₁.replicate hQ hq hi) h
  refine hmatched.andThen fun s₁ h₁ => ?_
  have htold := Sys.Can.each (T := amongSys C Q)
    (fun s => Spreads Q q L s ∧ ∀ i ∈ Q, L.length ≤ (s.rf q).matchIndex i)
    (fun i s => L.length ≤ (s.rf i).commitIndex) Q (fun s₂ h₂ i hi => h₂.1.tell hq hi h₂.2) h₁
  exact htold.mono fun s₂ h₂ => ⟨h₂.1.1, h₂.2⟩

/-- A command that is given to another server leaves the leader alone. -/
theorem Leads.start_other (h : Leads Q q s) {i : Fin n} (hi : i ≠ q) (command : C) :
    ∃ s' out, (s.rf i).start command = some out ∧ s.step (.start i command) = some s' ∧
      Leads Q q s' := by
  obtain ⟨⟨l, index, term, ok⟩, hstart, hdead, hterm⟩ : ∃ out, (s.rf i).start command = some out ∧
      out.1.dead = (s.rf i).dead ∧ out.1.currentTerm = (s.rf i).currentTerm := by
    refine ⟨_, (holds_entries h.reachable i).start command, ?_⟩
    split
    · exact ⟨rfl, rfl⟩
    · obtain ⟨c, -, heq⟩ := ((s.rf i).appended (s.entries i) command).advance_eq
      dsimp only
      split
      · rw [heq]
        exact ⟨rfl, rfl⟩
      · exact ⟨rfl, rfl⟩
  obtain ⟨s', hstep, hprocs⟩ : ∃ s', s.step (.start i command) = some s' ∧
      s'.procs = Function.update s.procs i { s.procs i with rf := l } := by
    simp only [System.step, hstart, Option.bind_eq_bind, Option.bind_some]
    cases index with
    | none => exact ⟨_, rfl, rfl⟩
    | some index => exact ⟨_, rfl, rfl⟩
  have hself : s'.rf i = l := by rw [System.rf, hprocs, Function.update_self]
  have hother : ∀ j, j ≠ i → s'.rf j = s.rf j := by
    intro j hj
    rw [System.rf, hprocs, Function.update_of_ne hj]
    rfl
  refine ⟨s', _, hstart, hstep, ⟨h.reachable.step hstep, fun j hj => ?_⟩, ?_, fun j hj => ?_⟩
  · rcases eq_or_ne j i with rfl | hne
    · rw [hself, hdead]
      exact h.live j hj
    · rw [hother j hne]
      exact h.live j hj
  · rw [hother q hi.symm]
    exact h.leader
  · rw [hother q hi.symm]
    rcases eq_or_ne j i with rfl | hne
    · rw [hself, hterm]
      exact h.latest j hj
    · rw [hother j hne]
      exact h.latest j hj

/-! ### Delivery -/

/-- The servers of `Q` act, and their services take the messages that they
are sent. -/
def serveSys (C : Type) [Labgob C] (Q : Finset (Fin n)) : Sys (System n C) (Action n C) where
  init s := s = System.init n C
  step s a s' := (a.Among Q s ∨ ∃ i ∈ Q, a = .send i) ∧ s.step a = some s'

theorem incarnation_serve (hstar : (serveSys C Q).Star s s') (i : Fin n) :
    (s'.procs i).incarnation = (s.procs i).incarnation := by
  induction hstar with
  | refl => rfl
  | tail _ hnext ih =>
      obtain ⟨a, hserve, ha⟩ := hnext
      rw [← ih]
      cases Effect.of_step ha with
      | silent h _ => exact h.incarnation i
      | start _ h _ => exact h.incarnation i
      | snapshot h _ => exact h.incarnation i
      | send happlying hprocs _ _ =>
          rw [hprocs]
          rcases eq_or_ne i ‹Fin n› with rfl | hi
          · simp
          · simp [hi]
      | restart _ _ => exact (hserve.resolve_left id).elim fun j hj => by simp at hj
      | crash _ _ => exact (hserve.resolve_left id).elim fun j hj => by simp at hj

/-- Only the applier of server `i` has done something. -/
structure Applies (i : Fin n) (s s' : System n C) : Prop where
  other : ∀ j, j ≠ i → s'.procs j = s.procs j
  dead : (s'.rf i).dead = (s.rf i).dead
  commit : (s'.rf i).commitIndex = (s.rf i).commitIndex
  incarnation : (s'.procs i).incarnation = (s.procs i).incarnation
  applied : s.applied <+: s'.applied
  committed : s.committed <+: s'.committed

omit [Labgob C] in
theorem Applies.refl (i : Fin n) (s : System n C) : Applies i s s :=
  ⟨fun _ _ => rfl, rfl, rfl, rfl, List.prefix_rfl, List.prefix_rfl⟩

omit [Labgob C] in
theorem Applies.trans {i : Fin n} {s₁ s₂ s₃ : System n C} (h : Applies i s₁ s₂)
    (h' : Applies i s₂ s₃) : Applies i s₁ s₃ where
  other j hj := (h'.other j hj).trans (h.other j hj)
  dead := h'.dead.trans h.dead
  commit := h'.commit.trans h.commit
  incarnation := h'.incarnation.trans h.incarnation
  applied := h.applied.trans h'.applied
  committed := h.committed.trans h'.committed

/-- The applier of server `i` has sent `m`. -/
structure Handed (i : Fin n) (m : ApplyMsg C) (rest : List (ApplyMsg C)) (s s' : System n C) : Prop
    extends Applies i s s' where
  rf : s'.rf i = s.rf i
  rest : (s'.procs i).applying = rest
  sent : (i, (s.procs i).incarnation, m) ∈ s'.applied

theorem send {i : Fin n} {m : ApplyMsg C} {rest : List (ApplyMsg C)}
    (happlying : (s.procs i).applying = m :: rest) (hs : (raftSys n C).Reachable s) :
    ∃ s', s.step (.send i) = some s' ∧ Handed i m rest s s' := by
  obtain ⟨s₁, hstep, hprocs, happlied⟩ : ∃ s₁, s.step (.send i) = some s₁ ∧
      s₁.procs = Function.update s.procs i
        { s.procs i with applying := rest, consumed := m.index } ∧
      s₁.applied = s.applied ++ [(i, (s.procs i).incarnation, m)] := by
    exact ⟨{ s.setProc i { s.procs i with applying := rest, consumed := m.index } with
        applied := s.applied ++ [(i, (s.procs i).incarnation, m)] },
      by simp only [System.step, happlying], rfl, rfl⟩
  have hself : s₁.procs i = { s.procs i with applying := rest, consumed := m.index } := by
    rw [hprocs, Function.update_self]
  have hrf : s₁.rf i = s.rf i := by
    rw [System.rf, hself]
    rfl
  refine ⟨s₁, hstep, ⟨fun j hj => by rw [hprocs, Function.update_of_ne hj], by rw [hrf],
    by rw [hrf], by rw [hself], happlied ▸ List.prefix_append _ _, committed_step hs hstep⟩,
    hrf, by rw [hself], ?_⟩
  rw [happlied]
  simp

/-- The applier of server `i` has sent all it had claimed. -/
structure Drained (i : Fin n) (s s' : System n C) : Prop extends Applies i s s' where
  lastApplied : (s'.rf i).lastApplied = (s.rf i).lastApplied
  pending : (s'.rf i).pendingSnapshot = (s.rf i).pendingSnapshot
  idle : (s'.procs i).applying = []
  sent : ∀ m ∈ (s.procs i).applying, (i, (s.procs i).incarnation, m) ∈ s'.applied

omit [Labgob C] in
theorem Handed.drained {i : Fin n} {m : ApplyMsg C} {rest : List (ApplyMsg C)}
    {s₁ : System n C} (h : Handed i m rest s s₁) (happlying : (s.procs i).applying = m :: rest)
    (h' : Drained i s₁ s') : Drained i s s' where
  toApplies := h.toApplies.trans h'.toApplies
  lastApplied := h'.lastApplied.trans (by rw [h.rf])
  pending := h'.pending.trans (by rw [h.rf])
  idle := h'.idle
  sent m' hm' := by
    rw [happlying] at hm'
    rcases List.mem_cons.mp hm' with rfl | hm'
    · exact h'.applied.subset h.sent
    · rw [← h.incarnation]
      exact h'.sent m' (h.rest ▸ hm')

theorem drain {i : Fin n} (hi : i ∈ Q) (hs : (raftSys n C).Reachable s) :
    (serveSys C Q).Can s fun s' => (raftSys n C).Reachable s' ∧ Drained i s s' := by
  induction happlying : (s.procs i).applying generalizing s with
  | nil => exact .now ⟨hs, .refl i s, rfl, rfl, happlying, by simp [happlying]⟩
  | cons m rest ih =>
      obtain ⟨s₁, hstep, hsent⟩ := send happlying hs
      refine .step (a := .send i) ⟨Or.inr ⟨i, hi, rfl⟩, hstep⟩
        ((ih (s := s₁) (hs.step hstep) hsent.rest).mono fun s' h' => ?_)
      exact ⟨h'.1, hsent.drained happlying h'.2⟩

/-- The applier of `i`, with nothing left to send, claims what is next. -/
theorem claim {i : Fin n} (hs : (raftSys n C).Reachable s) (hlive : (s.rf i).dead = false)
    (hidle : (s.procs i).applying = [])
    (hready : (s.rf i).pendingSnapshot ≠ none ∨ (s.rf i).lastApplied < (s.rf i).commitIndex) :
    ∃ s', s.step (.claim i) = some s' ∧ Applies i s s' ∧
      ((∃ m, (s.rf i).pendingSnapshot = some m ∧
          s'.rf i = { s.rf i with pendingSnapshot := none }) ∨
        (s.rf i).pendingSnapshot = none ∧ (s'.procs i).applying =
          Raft.commandsOf (s.entries i) ((s.rf i).lastApplied + 1) (s.rf i).commitIndex) := by
  obtain ⟨A, hA, hrel⟩ := exists_rel hs
  have happlier : (s.rf i).applierReady = true := by
    simp only [Raft.applierReady, hlive, Bool.not_false, Bool.true_and, Bool.or_eq_true,
      decide_eq_true_eq, Option.isSome_iff_ne_none]
    exact hready
  obtain ⟨rf, messages, hrun, -, -, hcases⟩ := (hrel.server i).applierClaim hA happlier
  obtain ⟨s', hstep, hprocs, happlied⟩ : ∃ s', s.step (.claim i) = some s' ∧
      s'.procs = Function.update s.procs i { s.procs i with rf := rf, applying := messages } ∧
      s'.applied = s.applied := by
    refine ⟨(s.setRf i rf).setProc i { s.procs i with rf := rf, applying := messages }, ?_, ?_,
      rfl⟩
    · simp only [System.step, if_pos (show (s.rf i).applierReady = true ∧
        (s.procs i).applying = [] from ⟨happlier, hidle⟩), hrun, Option.bind_eq_bind,
        Option.bind_some]
    · simp [System.setProc, System.setRf, System.setRfFrom]
  have hself : s'.procs i = { s.procs i with rf := rf, applying := messages } := by
    rw [hprocs, Function.update_self]
  have hrf : s'.rf i = rf := by rw [System.rf, hself]
  refine ⟨s', hstep, ⟨fun j hj => by rw [hprocs, Function.update_of_ne hj], ?_, ?_, ?_,
    happlied ▸ List.prefix_rfl, committed_step hs hstep⟩, ?_⟩
  · rw [hrf]
    rcases hcases with ⟨m, -, -, rfl⟩ | ⟨-, -, -, rfl⟩ <;> rfl
  · rw [hrf]
    rcases hcases with ⟨m, -, -, rfl⟩ | ⟨-, -, -, rfl⟩ <;> rfl
  · rw [hself]
  · rw [hrf, hself, hrel.entries i]
    rcases hcases with ⟨m, hpending, -, rfl⟩ | ⟨hnone, -, rfl, rfl⟩
    · exact Or.inl ⟨m, hpending, rfl⟩
    · exact Or.inr ⟨hnone, rfl⟩

/-- The entry at index `N` is committed with `command`, server `i` knows
that and has not applied it. -/
structure Due (i : Fin n) (N : ℕ) (command : C) (s : System n C) : Prop where
  reachable : (raftSys n C).Reachable s
  live : (s.rf i).dead = false
  known : N ≤ (s.rf i).commitIndex
  next : (s.rf i).lastApplied < N
  committed : ∃ e, s.committed[N - 1]? = some e ∧ e.command = some command

theorem getElem?_of_isPrefix {α : Type} {l l' : List α} (h : l <+: l') {k : ℕ} {a : α}
    (ha : l[k]? = some a) : l'[k]? = some a := by
  obtain ⟨r, rfl⟩ := h
  rw [List.getElem?_append_left (List.getElem?_eq_some_iff.mp ha).1, ha]

theorem Due.applies {i : Fin n} {N : ℕ} {command : C} (h : Due i N command s)
    (happlies : Applies i s s') (hreach : (raftSys n C).Reachable s')
    (hsame : (s'.rf i).lastApplied = (s.rf i).lastApplied) : Due i N command s' where
  reachable := hreach
  live := happlies.dead.trans h.live
  known := h.known.trans happlies.commit.ge
  next := hsame.trans_lt h.next
  committed := by
    obtain ⟨e, he, hcommand⟩ := h.committed
    exact ⟨e, getElem?_of_isPrefix happlies.committed he, hcommand⟩

theorem Due.entry {i : Fin n} {N : ℕ} {command : C} (h : Due i N command s) :
    (s.entries i)[N - 1]?.bind LogEntry.command = some command := by
  obtain ⟨A, hA, hrel⟩ := exists_rel h.reachable
  obtain ⟨e, he, hcommand⟩ := h.committed
  have hlen := (hrel.server i).commit_le hA
  have hpos := h.next
  have hknown := h.known
  have hlt : N - 1 < (A.log i).length := by omega
  have hown : ((A.log i).take (s.rf i).commitIndex)[N - 1]? = some (A.log i)[N - 1] := by
    rw [List.getElem?_take_of_lt (by omega), List.getElem?_eq_getElem hlt]
  have hsame := (getElem?_of_isPrefix (hrel.agreed.known i) hown).symm.trans he
  rw [hrel.entries i, List.getElem?_eq_getElem hlt, hsame]
  exact hcommand

/-- A system with the servers of `view` in it, in which server `i` can
claim messages, and its service takes them. -/
structure Attended {τ α : Type*} (T : Sys τ α) (view : τ → System n C) (I : τ → Prop)
    (i : Fin n) : Prop where
  reachable : ∀ t, I t → (raftSys n C).Reachable (view t)
  claim : ∀ t s', I t → (view t).step (.claim i) = some s' →
    T.Can t fun t' => I t' ∧ view t' = s'
  drain : ∀ t, I t → T.Can t fun t' => I t' ∧ Drained i (view t) (view t')

theorem attended {i : Fin n} (hi : i ∈ Q) :
    Attended (serveSys C Q) (fun s => s) (raftSys n C).Reachable i where
  reachable _ ht := ht
  claim _ _ ht hstep := .step (a := .claim i) ⟨Or.inl hi, hstep⟩ (.now ⟨ht.step hstep, rfl⟩)
  drain _ ht := RaftShardedKv.drain hi ht

section

variable {τ α : Type*} {T : Sys τ α} {view : τ → System n C} {I : τ → Prop} {i : Fin n}
  (hT : Attended T view I i) {t : τ} (hI : I t) {N : ℕ} {command : C}

include hT hI

/-- The applier gets to where it can claim commands: what it has claimed
before and a snapshot that has arrived go first. -/
theorem Due.clear (h : Due i N command (view t)) :
    T.Can t fun t' => I t' ∧ Due i N command (view t') ∧ Applies i (view t) (view t') ∧
      ((view t').procs i).applying = [] ∧ ((view t').rf i).pendingSnapshot = none := by
  refine (hT.drain t hI).andThen fun t₁ hnext => ?_
  obtain ⟨hI₁, h₁⟩ := hnext
  have hdue₁ := h.applies h₁.toApplies (hT.reachable t₁ hI₁) h₁.lastApplied
  by_cases hpending : ((view t₁).rf i).pendingSnapshot = none
  · exact .now ⟨hI₁, hdue₁, h₁.toApplies, h₁.idle, hpending⟩
  obtain ⟨s₂, hstep₂, happlies₂, hclaimed⟩ :=
    RaftShardedKv.claim hdue₁.reachable hdue₁.live h₁.idle (Or.inl hpending)
  have hrf₂ : s₂.rf i = { (view t₁).rf i with pendingSnapshot := none } := by
    rcases hclaimed with ⟨m, -, hrf⟩ | ⟨hnone, -⟩
    · exact hrf
    · exact absurd hnone hpending
  have hdue₂ := hdue₁.applies happlies₂ (hdue₁.reachable.step hstep₂) (by rw [hrf₂])
  refine (hT.claim t₁ s₂ hI₁ hstep₂).andThen fun t₂ hnext => ?_
  obtain ⟨hI₂, hview₂⟩ := hnext
  refine (hT.drain t₂ hI₂).mono fun t₃ hnext => ?_
  obtain ⟨hI₃, h₃⟩ := hnext
  rw [hview₂] at h₃
  refine ⟨hI₃, hdue₂.applies h₃.toApplies (hT.reachable t₃ hI₃) h₃.lastApplied,
    (h₁.toApplies.trans happlies₂).trans h₃.toApplies, h₃.idle, ?_⟩
  rw [h₃.pending, hrf₂]

/-- Server `i` delivers the command. -/
theorem Due.deliver (h : Due i N command (view t)) :
    T.Can t fun t' => I t' ∧ Applies i (view t) (view t') ∧
      (i, ((view t).procs i).incarnation, .command (some command) N) ∈ (view t').applied := by
  refine (h.clear hT hI).andThen fun t₁ hnext => ?_
  obtain ⟨hI₁, hdue, happlies₁, hidle, hnone⟩ := hnext
  obtain ⟨s₂, hstep₂, happlies₂, hclaimed⟩ := RaftShardedKv.claim hdue.reachable hdue.live hidle
    (Or.inr (hdue.next.trans_le hdue.known))
  have hmessages : (s₂.procs i).applying = Raft.commandsOf ((view t₁).entries i)
      (((view t₁).rf i).lastApplied + 1) ((view t₁).rf i).commitIndex := by
    rcases hclaimed with ⟨m, hpending, -⟩ | ⟨-, hmessages⟩
    · rw [hnone] at hpending
      cases hpending
    · exact hmessages
  have hmem : .command (some command) N ∈ (s₂.procs i).applying := by
    rw [hmessages, ← hdue.entry]
    refine List.mem_map.mpr ⟨N, List.mem_range'_1.mpr ?_, rfl⟩
    have := hdue.next
    have := hdue.known
    omega
  refine (hT.claim t₁ s₂ hI₁ hstep₂).andThen fun t₂ hnext => ?_
  obtain ⟨hI₂, hview₂⟩ := hnext
  refine (hT.drain t₂ hI₂).mono fun t₃ hnext => ?_
  obtain ⟨hI₃, h₃⟩ := hnext
  rw [hview₂] at h₃
  refine ⟨hI₃, (happlies₁.trans happlies₂).trans h₃.toApplies, ?_⟩
  have hdone := h₃.sent _ hmem
  rwa [happlies₂.incarnation, happlies₁.incarnation] at hdone

end

/-- Server `i` has delivered the command, in the process that it runs. -/
def Delivered (i : Fin n) (N : ℕ) (command : C) (s : System n C) : Prop :=
  (i, (s.procs i).incarnation, .command (some command) N) ∈ s.applied

theorem Due.frame {i j : Fin n} {N : ℕ} {command : C} (h : Due j N command s) (hij : j ≠ i)
    (happlies : Applies i s s') (hreach : (raftSys n C).Reachable s') : Due j N command s' := by
  have hrf : s'.rf j = s.rf j := congrArg Proc.rf (happlies.other j hij)
  obtain ⟨e, he, hcommand⟩ := h.committed
  exact ⟨hreach, hrf ▸ h.live, hrf ▸ h.known, hrf ▸ h.next,
    e, getElem?_of_isPrefix happlies.committed he, hcommand⟩

omit [Labgob C] in
theorem Delivered.applies {i j : Fin n} {N : ℕ} {command : C} (h : Delivered j N command s)
    (happlies : Applies i s s') : Delivered j N command s' := by
  have hinc : (s'.procs j).incarnation = (s.procs j).incarnation := by
    rcases eq_or_ne j i with rfl | hj
    · exact happlies.incarnation
    · rw [happlies.other j hj]
  rw [Delivered, hinc]
  exact happlies.applied.subset h

theorem deliver_all {N : ℕ} {command : C} (hdue : ∀ i ∈ Q, Due i N command s)
    (hs : (raftSys n C).Reachable s) :
    (serveSys C Q).Can s fun s' => ∀ i ∈ Q, Delivered i N command s' := by
  have heach := Sys.Can.each (T := serveSys C Q)
    (fun s => (raftSys n C).Reachable s ∧ ∀ i ∈ Q, Due i N command s ∨ Delivered i N command s)
    (fun i => Delivered i N command) Q (fun s₁ h₁ i hi => ?_) ⟨hs, fun i hi => Or.inl (hdue i hi)⟩
  · exact heach.mono fun s' h' => h'.2
  · rcases h₁.2 i hi with hdue₁ | hdone
    · refine (hdue₁.deliver (attended hi) h₁.1).mono fun s₂ hnext => ?_
      obtain ⟨hreach, happlies, hmem⟩ := hnext
      have hdone : Delivered i N command s₂ := by
        rw [Delivered, happlies.incarnation]
        exact hmem
      refine ⟨⟨hreach, fun j hj => ?_⟩, hdone, fun j _ h => h.applies happlies⟩
      rcases eq_or_ne j i with rfl | hij
      · exact Or.inr hdone
      · exact (h₁.2 j hj).imp (fun h => h.frame hij happlies hreach) fun h => h.applies happlies
    · exact .now ⟨h₁, hdone, fun j _ h => h⟩

/-! ### All together -/

theorem Spreads.due {e : LogEntry C} {command : C} (h : Spreads Q q (L ++ [e]) s) (hq : q ∈ Q)
    (he : e.command = some command) (hknown : ∀ i ∈ Q, (L ++ [e]).length ≤ (s.rf i).commitIndex) :
    ∀ i ∈ Q, Due i (L.length + 1) command s := by
  obtain ⟨A, hA, hrel⟩ := exists_rel h.reachable
  have hlength : (L ++ [e]).length = L.length + 1 := by simp
  have hcommitted : s.committed[L.length]? = some e := by
    refine getElem?_of_isPrefix (hrel.agreed.known q) ?_
    have hle := hknown q hq
    rw [hlength] at hle
    rw [← hrel.entries q, h.log, List.getElem?_take_of_lt (by omega)]
    simp
  intro i hi
  have hfresh := h.fresh i hi
  have hle := hknown i hi
  rw [hlength] at hfresh hle
  exact ⟨h.reachable, h.live i hi, hle, hfresh, e, hcommitted, he⟩

/-- **A live majority is never stuck.** From every reachable state, the
servers of any majority that runs can, without help of the others, without
a crash and without losing a message, get one of them to accept a new
command, and then all deliver it at the index that `Start` returned. -/
theorem majority_progress (hs : (raftSys n C).Reachable s) (hQ : n / 2 + 1 ≤ Q.card)
    (hlive : ∀ i ∈ Q, (s.rf i).dead = false) (command : C) :
    ∃ q ∈ Q, ∃ s₁ s₂ s₃ term index, (amongSys C Q).Star s s₁ ∧
      s₁.step (.start q command) = some s₂ ∧
      s₂.started = (term, index, command) :: s₁.started ∧ (serveSys C Q).Star s₂ s₃ ∧
      ∀ i ∈ Q, (i, (s.procs i).incarnation, .command (some command) index) ∈ s₃.applied := by
  obtain ⟨s₁, hstar₁, q, hq, hleads⟩ := Alive.elect ⟨hs, hlive⟩ hQ
  obtain ⟨s₂, hstep, hstarted, hspreads⟩ := hleads.start hq hQ command
  have hserve : ∀ (s : System n C) a s', (amongSys C Q).step s a s' → (serveSys C Q).step s a s' :=
    fun _ _ _ hstep => ⟨Or.inl hstep.1, hstep.2⟩
  obtain ⟨s₃, hstar₂, hdelivered⟩ := ((hspreads.commit hQ hq).wider hserve).andThen fun s' h' =>
    deliver_all (h'.1.due hq rfl h'.2) h'.1.reachable
  refine ⟨q, hq, s₁, s₂, s₃, _, _, hstar₁, hstep, hstarted, hstar₂, fun i hi => ?_⟩
  have hsame : (s₂.procs i).incarnation = (s₁.procs i).incarnation := by
    cases Effect.of_step hstep with
    | silent h _ => exact h.incarnation i
    | start _ h _ => exact h.incarnation i
  have hdone := hdelivered i hi
  have hbefore := incarnation_serve (hstar₁.wider hserve) i
  rwa [Delivered, incarnation_serve hstar₂, hsame, hbefore] at hdone

/-- Three servers; server 0 leads term 1 with the vote of server 1, is given
a command that it sends to nobody, and stops. -/
def leaderLost : List (Action 3 Bool) :=
  [.startElection 0, .deliver 0, .deliver 0, .start 0 true, .kill 0]

theorem majority_progress_leaderLost :
    let s := play System.step (System.init 3 Bool) leaderLost
    (s.rf 0).dead = true ∧ s.started = [(1, 1, true)] ∧
      ∃ q ∈ ({1, 2} : Finset (Fin 3)), ∃ s₁ s₂ s₃ term index, (amongSys Bool {1, 2}).Star s s₁ ∧
        s₁.step (.start q false) = some s₂ ∧
        s₂.started = (term, index, false) :: s₁.started ∧ (serveSys Bool {1, 2}).Star s₂ s₃ ∧
        ∀ i ∈ ({1, 2} : Finset (Fin 3)), (i, (s.procs i).incarnation,
          .command (some false) index) ∈ s₃.applied :=
  ⟨by decide +kernel, by decide +kernel,
    majority_progress (reachable_play (System.init 3 Bool) System.step leaderLost)
      (by decide) (by decide +kernel) false⟩

end RaftShardedKv
