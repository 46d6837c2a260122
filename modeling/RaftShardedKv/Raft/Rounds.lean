import RaftShardedKv.Lib.Progress
import RaftShardedKv.Raft.BackOff
import RaftShardedKv.Raft.Indices

/-!
A call from one server to another that is neither lost nor overtaken: the
request arrives, then its reply, and nothing else happens in between. What
is left of such a round are the two servers after it; the calls that were
in flight before are still in flight, whatever they are.
-/

namespace RaftShardedKv

open TermLog Consensus Transition

variable {n : ℕ} {C : Type} [Labgob C]

/-- What the servers of `Q` do without anybody else: no process stops or
starts, no message is lost, and the services take no part. Independent
heartbeats, which a leader sends while a replication round takes long, are
not needed. -/
def Action.Among (Q : Finset (Fin n)) (s : System n C) : Action n C → Prop
  | .startElection i => i ∈ Q
  | .claim i => i ∈ Q
  | .replicate i peer => i ∈ Q ∧ peer ∈ Q
  | .deliver k => ∃ c, s.net[k]? = some c ∧ c.src ∈ Q ∧ c.dst ∈ Q
  | _ => False

/-- The cluster where only the servers of `Q` act. -/
def amongSys (C : Type) [Labgob C] (Q : Finset (Fin n)) : Sys (System n C) (Action n C) where
  init s := s = System.init n C
  step s a s' := a.Among Q s ∧ s.step a = some s'

/-! ### The two servers of a round -/

namespace Raft

variable {f f' l : Raft n C} {F L : List (LogEntry C)} {peer : Fin n}

theorem answerEntries_success {changed : Bool} {args : AppendEntriesArgs n C}
    (hlive : f.dead = false) (hterm : f.currentTerm ≤ args.term)
    (hsuccess : (f.answerEntries F changed args).2.success = true) :
    (f.answerEntries F changed args).2 = ⟨args.term, true, false, none, 0⟩ ∧
      (f.answerEntries F changed args).1.dead = false ∧
      (f.answerEntries F changed args).1.currentTerm = args.term ∧
      (f.answerEntries F changed args).1.lastApplied = f.lastApplied ∧
      min args.leaderCommit (args.prevLogIndex + args.entries.length) ≤
        (f.answerEntries F changed args).1.commitIndex := by
  unfold answerEntries at hsuccess ⊢
  rw [if_neg (by simp [hlive]), if_neg (not_lt.mpr hterm)] at hsuccess ⊢
  split_ifs at hsuccess ⊢ with hlong hbase hdiffers hchanged <;>
    simp [followCommit_eq, adoptLog, saved, withLog, replaceLogs, rebuildEncodedLogs, hlive, hterm]

/-- The receiver of a snapshot from a leader that it listens to. -/
theorem Holds.installs (h : Holds f F) (hcommit : f.lastIncludedIndex ≤ f.commitIndex)
    (hlive : f.dead = false) (args : InstallSnapshotArgs n) (hterm : f.currentTerm ≤ args.term)
    {P : List (LogEntry C)} (hP : P.length = args.lastIncludedIndex)
    (hPterm : termAt P args.lastIncludedIndex = args.lastIncludedTerm) :
    ∃ f', f.installSnapshot args = some (f', ⟨args.term, false⟩) ∧ f'.dead = false ∧
      f'.currentTerm = args.term ∧
      (f'.lastApplied = f.lastApplied ∨ f'.lastApplied = args.lastIncludedIndex) := by
  obtain ⟨f', reply, hrun, hcases⟩ := h.installSnapshot hcommit args hP hPterm
  have hreply : reply = ⟨args.term, false⟩ := by
    have hmax : (f.follow args.term).currentTerm = args.term := by
      rw [follow_currentTerm, max_eq_right hterm]
    simp only [Raft.installSnapshot, if_neg (show ¬ f.dead = true by simp [hlive]),
      if_neg (not_lt.mpr hterm), h.becomeFollowerLocked, Option.bind_eq_bind, Option.bind_some,
      hmax] at hrun
    split at hrun
    · cases hrun
      rfl
    · obtain ⟨suffix, -, hrun⟩ := Option.bind_eq_some_iff.mp hrun
      obtain ⟨rf, -, hrun⟩ := Option.bind_eq_some_iff.mp hrun
      cases hrun
      rfl
  subst hreply
  refine ⟨f', hrun, ?_⟩
  rcases hcases with ⟨hdead, -⟩ | ⟨-, hstale, -⟩ | ⟨-, -, -, rfl⟩ | ⟨-, -, -, rfl⟩
  · rw [hlive] at hdead
    cases hdead
  · omega
  · simp [hlive, hterm]
  · refine ⟨(follow_dead f args.term).trans hlive, ?_, Or.inr rfl⟩
    exact (follow_currentTerm f args.term).trans (max_eq_right hterm)

/-- Once a majority is known to hold the whole log, and its last entry is of
the leader's term, all of it is committed. -/
theorem Holds.commits (h : Holds l L) (hlead : l.state = .leader)
    (hterm : lastTerm L = l.currentTerm) (hcount : n / 2 + 1 ≤ l.replicated L.length) :
    L.length ≤ l.advanceCommitIndexLocked.commitIndex := by
  rw [Raft.advanceCommitIndexLocked, if_neg (not_not.mpr hlead), h.lastLogIndex]
  have hlast : l.termAtLocked L.length = some l.currentTerm :=
    (h.termAtLocked_some h.base_le le_rfl).trans (congrArg some hterm)
  generalize L.length = k at hlast hcount ⊢
  cases k with
  | zero => exact Nat.zero_le _
  | succ k =>
      rw [Raft.advanceFrom]
      split_ifs with hlt hfound
      · exact le_rfl
      · exact absurd ⟨hlast, hcount⟩ hfound
      · exact not_lt.mp hlt

theorem retryRound_eq_some {s s' : Raft n C × Raft n C} {args : AppendEntriesArgs n C}
    {reply : AppendEntriesReply} (h : retryRound peer s = some (args, reply, s')) :
    s.1.replicationRequest peer = some (some (.appendEntries args)) ∧
      s.2.appendEntries args = some (s'.2, reply) ∧
      s.1.appendEntriesReply peer args reply = some s'.1 := by
  obtain ⟨request, hrequest, h⟩ := Option.bind_eq_some_iff.mp h
  split at h
  · obtain ⟨⟨f, r⟩, hanswer, h⟩ := Option.bind_eq_some_iff.mp h
    obtain ⟨l, hreply, h⟩ := Option.bind_eq_some_iff.mp h
    cases h
    exact ⟨hrequest, hanswer, hreply⟩
  · cases h

/-- What a round that succeeded did. -/
theorem Retries.succeeded {s s' : Raft n C × Raft n C} {args : AppendEntriesArgs n C}
    {reply : AppendEntriesReply} (h : Retries peer L F s)
    (hround : retryRound peer s = some (args, reply, s')) (hsuccess : reply.success = true) :
    s'.1 = (if s.1.matchIndex peer < L.length
      then (s.1.progress peer L.length).advanceCommitIndexLocked
      else s.1.progress peer L.length) ∧
      s'.2.dead = false ∧ s'.2.currentTerm = s.1.currentTerm ∧
      s'.2.lastApplied = s.2.lastApplied ∧ min s.1.commitIndex L.length ≤ s'.2.commitIndex := by
  obtain ⟨hrequest, hanswer, hreply⟩ := retryRound_eq_some hround
  have hnext : s.1.lastIncludedIndex < s.1.nextIndex peer := by
    by_contra hold
    rw [h.holds.replicationRequest_eq, if_neg (by simp [h.leader, h.live]),
      if_pos (not_lt.mp hold)] at hrequest
    cases hrequest
  have hargs : args = retryArgs s.1 peer L := by
    have hsame := (h.request_eq hnext).symm.trans hrequest
    cases hsame
    rfl
  subst hargs
  obtain ⟨changed, -, heq⟩ := h.holds'.appendEntries_eq (retryArgs s.1 peer L)
  rw [hanswer] at heq
  obtain ⟨hf, hr⟩ := Prod.ext_iff.mp (Option.some.inj heq)
  dsimp only at hf hr
  subst hr
  obtain ⟨hanswered, hlive, hterm, happlied, hcommit⟩ :=
    answerEntries_success h.live' h.term hsuccess
  have hend : (retryArgs s.1 peer L).prevLogIndex + (retryArgs s.1 peer L).entries.length =
      L.length := by
    have := h.upper
    simp only [retryArgs, List.length_drop]
    omega
  rw [hend] at hcommit
  rw [hf]
  refine ⟨?_, hlive, hterm, happlied, hcommit⟩
  rw [hanswered, Raft.appendEntriesReply, if_neg (by simp [h.live]),
    if_neg (by simp [retryArgs]), if_neg (by simp [h.leader, retryArgs]), if_pos rfl,
    hend] at hreply
  have hgrew : s.1.matchIndex peer < (s.1.progress peer L.length).matchIndex peer ↔
      s.1.matchIndex peer < L.length := by
    simp [progress]
  simp only [hgrew] at hreply
  exact (Option.some.inj hreply).symm

end Raft

/-- A leader and a follower of a reachable cluster, of which the follower
is in no later term. -/
theorem Rel.retries {s : System n C} {A : Abstract n C} (h : Rel s A)
    (hA : (abstractSys n C).Reachable A) {q p : Fin n} (hlead : (s.rf q).state = .leader)
    (hindexed : Indexed (s.rf q)) (hlive : (s.rf q).dead = false) (hlive' : (s.rf p).dead = false)
    (hterm : (s.rf p).currentTerm ≤ (s.rf q).currentTerm) :
    Raft.Retries p (s.entries q) (s.entries p) (s.rf q, s.rf p) := by
  have hinv := Inv.reachable hA
  have hq := h.server q
  have hp := h.server p
  obtain ⟨hleader, hlog⟩ := hq.leader_log hA hlead
  rw [h.entries q, h.entries p]
  refine ⟨hlead, hlive, hlive', hterm, hq.holds, hp.holds,
    (hinv.logs.log_follows q).sorted hinv.logs.lead_sorted,
    (hinv.logs.log_follows q).sameStarts (hinv.logs.log_follows p), ?_, ?_,
    hindexed.lt p, ?_⟩ <;> dsimp only
  · -- what a snapshot covers is committed, so the leader has it
    have hpre := hp.commit_lead hA (by rw [hleader]; simp) hterm
    rw [← hlog] at hpre
    have hle := hp.base_le.trans hp.applied_le
    have hcommit := hp.commit_le hA
    have hlength := hpre.length_le
    rw [List.length_take, min_eq_left hcommit] at hlength
    refine ⟨hle.trans hlength, ?_⟩
    rw [take_eq_of_prefix_le hpre (by rw [List.length_take]; omega), List.take_take,
      min_eq_left hle]
  · have hacked := hq.matched hlead p
    have hlength := hacked.trans (hinv.acks.acked_le _ p)
    rcases hinv.acks.held hacked with hpre | ⟨t, hlt, hgt, -⟩
    · rw [← hlog] at hpre hlength
      refine ⟨hlength, ?_⟩
      rw [take_eq_of_prefix_le hpre (by rw [List.length_take]; omega), List.take_take, min_self]
    · rw [hp.term] at hgt
      omega
  · rw [← hq.holds.lastLogIndex]
    exact hindexed.le p

/-! ### Rounds -/

section exchange

variable {Q : Finset (Fin n)} {s s' : System n C} {q p : Fin n} {l f : Raft n C}
  {base : List (LogEntry C)}

/-- After a round the caller is `l` and the receiver `f`, which stands for
`base` up to its snapshot. -/
structure Exchanged (q p : Fin n) (l f : Raft n C) (base : List (LogEntry C))
    (s s' : System n C) : Prop where
  caller : s'.procs q = { s.procs q with rf := l }
  receiver : s'.procs p = { s.procs p with rf := f }
  other : ∀ i, i ≠ q → i ≠ p → s'.procs i = s.procs i
  entries : s'.entries = Function.update
    (Function.update s.entries p (base.take f.lastIncludedIndex ++ f.logs.tail)) q
    ((s.entries q).take l.lastIncludedIndex ++ l.logs.tail)

theorem exchange {a : Action n C} (rpc rpc' : Rpc n C) (hq : q ∈ Q) (hp : p ∈ Q) (hne : p ≠ q)
    (ha : a.Among Q s) (hcall : s.step a = some (s.call q p rpc))
    (hrequest : rpc.requestTerm ≠ none)
    (hanswer : ∀ (s₁ : System n C) k inc, s₁.rf p = s.rf p → s₁.entries = s.entries →
      s₁.deliver k ⟨q, inc, p, rpc⟩ =
        some ((s₁.setRfFrom p f base).answer k ⟨q, inc, p, rpc⟩ rpc'))
    (hreply : ∀ (s₂ : System n C) k inc, s₂.rf q = s.rf q →
      s₂.deliver k ⟨q, inc, p, rpc'⟩ = some ((s₂.setRf q l).close k)) :
    (amongSys C Q).Can s (Exchanged q p l f base s) := by
  set c : Call n C := ⟨q, (s.procs q).incarnation, p, rpc⟩ with hc
  set s₂ := ((s.call q p rpc).setRfFrom p f base).answer s.net.length c rpc' with hs₂
  have hk : (s.call q p rpc).net[s.net.length]? = some c := by
    simp [System.call, hc]
  have hk' : s₂.net[s.net.length]? = some { c with rpc := rpc' } := by
    simp [hs₂, System.answer, System.setRfFrom, System.call]
  have hprocs : s₂.procs = Function.update s.procs p { s.procs p with rf := f } := rfl
  have hstep₁ : (s.call q p rpc).step (.deliver s.net.length) = some s₂ := by
    simp only [System.step, hk, Option.bind_eq_bind, Option.bind_some]
    rw [if_neg (fun h => hrequest h.1)]
    exact hanswer _ _ _ rfl rfl
  have hstep₂ : s₂.step (.deliver s.net.length) =
      some ((s₂.setRf q l).close s.net.length) := by
    simp only [System.step, hk', Option.bind_eq_bind, Option.bind_some]
    rw [if_neg (fun h => h.2 (by rw [hprocs, Function.update_of_ne hne.symm]))]
    exact hreply _ _ _ (by rw [System.rf, hprocs, Function.update_of_ne hne.symm]; rfl)
  refine .step ⟨ha, hcall⟩ (.step (a := .deliver _) ⟨⟨c, hk, hq, hp⟩, hstep₁⟩
    (.step (a := .deliver _) ⟨⟨_, hk', hq, hp⟩, hstep₂⟩ (.now ?_)))
  have hentries : s₂.entries q = s.entries q := by
    show Function.update s.entries p _ q = s.entries q
    rw [Function.update_of_ne hne.symm]
  have hfinal : ((s₂.setRf q l).close s.net.length).procs =
      Function.update s₂.procs q { s₂.procs q with rf := l } := rfl
  constructor
  · rw [hfinal, Function.update_self, hprocs, Function.update_of_ne hne.symm]
  · rw [hfinal, Function.update_of_ne hne, hprocs, Function.update_self]
  · intro i hi hi'
    rw [hfinal, Function.update_of_ne hi, hprocs, Function.update_of_ne hi']
  · show Function.update s₂.entries q _ = _
    rw [hentries]
    rfl

theorem exchange_appendEntries {args : AppendEntriesArgs n C} {reply : AppendEntriesReply}
    (hq : q ∈ Q) (hp : p ∈ Q) (hne : p ≠ q)
    (hrequest : (s.rf q).replicationRequest p = some (some (.appendEntries args)))
    (hanswer : (s.rf p).appendEntries args = some (f, reply))
    (hreply : (s.rf q).appendEntriesReply p args reply = some l) :
    (amongSys C Q).Can s (Exchanged q p l f (s.entries p) s) := by
  refine exchange (a := .replicate q p) (.appendEntries args none)
    (.appendEntries args (some reply)) hq hp hne ⟨hq, hp⟩ ?_ (by simp [Rpc.requestTerm]) ?_ ?_
  · simp [System.step, hne, hrequest]
  · intro s₁ k inc hrf hentries
    simp only [System.deliver, hrf, hanswer, Option.bind_eq_bind, Option.bind_some]
    rw [← hentries]
    rfl
  · intro s₂ k inc hrf
    simp only [System.deliver, hrf, hreply, Option.bind_eq_bind, Option.bind_some]

theorem exchange_installSnapshot {args : InstallSnapshotArgs n} {reply : InstallSnapshotReply}
    (hq : q ∈ Q) (hp : p ∈ Q) (hne : p ≠ q)
    (hrequest : (s.rf q).replicationRequest p = some (some (.installSnapshot args)))
    (hanswer : (s.rf p).installSnapshot args = some (f, reply))
    (hreply : (s.rf q).installSnapshotReply p args reply = some l) :
    (amongSys C Q).Can s (Exchanged q p l f (if f.lastIncludedIndex = (s.rf p).lastIncludedIndex
      then s.entries p else (s.entries q).take args.lastIncludedIndex) s) := by
  refine exchange (a := .replicate q p)
    (.installSnapshot args ((s.entries q).take args.lastIncludedIndex) none)
    (.installSnapshot args ((s.entries q).take args.lastIncludedIndex) (some reply))
    hq hp hne ⟨hq, hp⟩ ?_ (by simp [Rpc.requestTerm]) ?_ ?_
  · simp [System.step, hne, hrequest]
  · intro s₁ k inc hrf hentries
    simp only [System.deliver, hrf, hanswer, hentries, Option.bind_eq_bind, Option.bind_some]
  · intro s₂ k inc hrf
    simp only [System.deliver, hrf, hreply, Option.bind_eq_bind, Option.bind_some]

end exchange

end RaftShardedKv
