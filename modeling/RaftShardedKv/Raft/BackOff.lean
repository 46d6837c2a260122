import RaftShardedKv.Lib.Loop
import RaftShardedKv.Raft.Spec

/-!
A leader that retries against a follower finds where their logs meet.

Each failed round moves `nextIndex` to the index that `backOff` computes from
the reply. Where the follower still holds `PrevLogIndex` the new index is
lower: the run of the conflicting term starts at the same index in both logs,
so the leader has that term only before the mismatch. Where `PrevLogIndex` is
in the follower's snapshot the new index is right above that snapshot, and the
next round succeeds.
-/

namespace RaftShardedKv.Raft

open TermLog

variable {n : ℕ} {C : Type}

/-! ### The index to try next -/

/-- The index that `backOff` starts from, before its clamps. -/
def conflictNext (rf : Raft n C) (reply : AppendEntriesReply) : ℕ :=
  match reply.conflictTerm with
  | none => reply.conflictIndex
  | some conflictTerm =>
      match rf.lastIndexOfTermLocked conflictTerm with
      | none => reply.conflictIndex
      | some lastIndex => lastIndex + 1

theorem backOff_eq (rf : Raft n C) (peer : Fin n) (reply : AppendEntriesReply) :
    rf.backOff peer reply = max (rf.matchIndex peer + 1)
      (min (rf.lastLogIndexLocked + 1) (max 1 (rf.conflictNext reply))) := by
  have hstart : rf.backOff peer reply =
      (let newNext := if rf.conflictNext reply < 1 then 1 else rf.conflictNext reply
       let newNext := if rf.lastLogIndexLocked + 1 < newNext then rf.lastLogIndexLocked + 1
         else newNext
       if newNext < rf.matchIndex peer + 1 then rf.matchIndex peer + 1 else newNext) := rfl
  rw [hstart]
  dsimp only
  split_ifs <;> omega

theorem lastOffsetOfTerm_some {logs : List (LogEntry C)} {term k : ℕ} {offset : ℕ}
    (h : lastOffsetOfTerm logs term k = some offset) :
    offset < k ∧ logs[offset]?.map LogEntry.term = some term := by
  induction k with
  | zero => cases h
  | succ k ih =>
      rw [lastOffsetOfTerm] at h
      split at h
      · rename_i hterm
        cases h
        exact ⟨Nat.lt_succ_self _, hterm⟩
      · exact ⟨(ih h).1.trans (Nat.lt_succ_self k), (ih h).2⟩

variable [Labgob C]

theorem Holds.lastIndexOfTerm {rf : Raft n C} {L : List (LogEntry C)} (h : Holds rf L)
    {term k : ℕ} (hlast : rf.lastIndexOfTermLocked term = some k) :
    k ≤ L.length ∧ termAt L k = term := by
  obtain ⟨offset, hoffset, rfl⟩ := Option.map_eq_some_iff.mp hlast
  obtain ⟨hlt, hterm⟩ := lastOffsetOfTerm_some hoffset
  have hle : rf.lastIncludedIndex + offset ≤ L.length := by
    have hbase := h.base_le
    rw [h.length_logs] at hlt
    omega
  rw [h.logs, compacted_term hle] at hterm
  exact ⟨hle, Option.some.inj hterm⟩

/-! ### A round of the retry -/

/-- One round of `replicateUntilStable` for `peer`, where the request and the
answer arrive: the request, the answer, and leader and follower afterwards.
There is no result where the leader has no `AppendEntries` to send. -/
def retryRound (peer : Fin n) (s : Raft n C × Raft n C) :
    Option (AppendEntriesArgs n C × AppendEntriesReply × Raft n C × Raft n C) := do
  match ← s.1.replicationRequest peer with
  | some (.appendEntries args) => do
      let (follower, reply) ← s.2.appendEntries args
      let leader ← s.1.appendEntriesReply peer args reply
      some (args, reply, leader, follower)
  | _ => none

/-- The loop goes on after a round that failed. -/
def retry (peer : Fin n) (s : Raft n C × Raft n C) : Option (Raft n C × Raft n C) :=
  match retryRound peer s with
  | some (_, reply, s') => if reply.success then none else some s'
  | none => none

/-- A leader with the full log `L` retries against a follower with the full log
`F`. -/
structure Retries (peer : Fin n) (L F : List (LogEntry C)) (s : Raft n C × Raft n C) : Prop where
  leader : s.1.state = .leader
  live : s.1.dead = false
  live' : s.2.dead = false
  term : s.2.currentTerm ≤ s.1.currentTerm
  holds : Holds s.1 L
  holds' : Holds s.2 F
  sorted : Sorted L
  starts : SameStarts L F
  /-- The leader's log agrees with what the follower's snapshot covers. -/
  covers : s.2.lastIncludedIndex ≤ L.length ∧
    L.take s.2.lastIncludedIndex = F.take s.2.lastIncludedIndex
  matched : s.1.matchIndex peer ≤ L.length ∧
    L.take (s.1.matchIndex peer) = F.take (s.1.matchIndex peer)
  lower : s.1.matchIndex peer + 1 ≤ s.1.nextIndex peer
  upper : s.1.nextIndex peer ≤ L.length + 1

/-- The request of a round. -/
def retryArgs (l : Raft n C) (peer : Fin n) (L : List (LogEntry C)) : AppendEntriesArgs n C :=
  ⟨l.currentTerm, l.me, l.nextIndex peer - 1, termAt L (l.nextIndex peer - 1),
    L.drop (l.nextIndex peer - 1), l.commitIndex⟩

/-- Why a follower refuses a request of its leader's term, and what it answers. -/
inductive Refusal (f : Raft n C) (F : List (LogEntry C)) (prev prevTerm : ℕ) :
    AppendEntriesReply → Prop
  | short {term : ℕ} (h : F.length < prev) : Refusal f F prev prevTerm
      ⟨term, false, false, none, F.length + 1⟩
  | covered {term : ℕ} (h : prev < f.lastIncludedIndex) : Refusal f F prev prevTerm
      ⟨term, false, false, none, f.lastIncludedIndex + 1⟩
  | differs {term : ℕ} (hbase : f.lastIncludedIndex ≤ prev) (hlong : prev ≤ F.length)
      (h : termAt F prev ≠ prevTerm) : Refusal f F prev prevTerm
      ⟨term, false, false, some (termAt F prev),
        runStart F f.lastIncludedIndex (termAt F prev) prev⟩

theorem answerEntries_refusal {f : Raft n C} {F : List (LogEntry C)} {changed : Bool}
    {args : AppendEntriesArgs n C} (hlive : f.dead = false) (hterm : f.currentTerm ≤ args.term)
    (hfail : (f.answerEntries F changed args).2.success = false) :
    (f.answerEntries F changed args).1 = f.follow args.term ∧
      (f.answerEntries F changed args).2.term = args.term ∧
      (f.answerEntries F changed args).2.stopped = false ∧
      Refusal f F args.prevLogIndex args.prevLogTerm (f.answerEntries F changed args).2 := by
  unfold answerEntries at hfail ⊢
  rw [if_neg (by simp [hlive]), if_neg (not_lt.mpr hterm)] at hfail ⊢
  split_ifs at hfail ⊢ with hlong hbase hdiffers
  · exact ⟨rfl, rfl, rfl, .short hlong⟩
  · exact ⟨rfl, rfl, rfl, .covered hbase⟩
  · exact ⟨rfl, rfl, rfl, .differs (not_lt.mp hbase) (not_lt.mp hlong) hdiffers⟩

def backedOff (l : Raft n C) (peer : Fin n) (reply : AppendEntriesReply) : Raft n C :=
  { l with nextIndex := Function.update l.nextIndex peer (l.backOff peer reply) }

omit [Labgob C] in
theorem backedOff_nextIndex (l : Raft n C) (peer : Fin n) (reply : AppendEntriesReply) :
    (l.backedOff peer reply).nextIndex peer = l.backOff peer reply :=
  Function.update_self ..

namespace Retries

variable {peer : Fin n} {L F : List (LogEntry C)} {s s' : Raft n C × Raft n C}
  {args : AppendEntriesArgs n C} {reply : AppendEntriesReply}

theorem request_eq (h : Retries peer L F s) (hnext : s.1.lastIncludedIndex < s.1.nextIndex peer) :
    s.1.replicationRequest peer = some (some (.appendEntries (retryArgs s.1 peer L))) := by
  have hreach : s.1.nextIndex peer - 1 ≤ L.length := by
    have := h.upper
    omega
  rw [h.holds.replicationRequest_eq, if_neg (by simp [h.leader, h.live]),
    if_neg (not_le.mpr hnext), if_pos hreach]
  rfl

theorem answered (h : Retries peer L F s) (hnext : s.1.lastIncludedIndex < s.1.nextIndex peer) :
    ∃ reply s', retryRound peer s = some (retryArgs s.1 peer L, reply, s') := by
  obtain ⟨changed, -, hanswer⟩ := h.holds'.appendEntries_eq (retryArgs s.1 peer L)
  obtain ⟨l', hl', -⟩ := h.holds.appendEntriesReply peer (retryArgs s.1 peer L)
    (s.2.answerEntries F changed (retryArgs s.1 peer L)).2
  simp only [retryRound, h.request_eq hnext, hanswer, hl', Option.bind_eq_bind, Option.bind_some]
  exact ⟨_, _, rfl⟩

theorem failed (h : Retries peer L F s) (hround : retryRound peer s = some (args, reply, s'))
    (hfail : reply.success = false) :
    s.1.nextIndex peer = args.prevLogIndex + 1 ∧
      s' = (s.1.backedOff peer reply, s.2.follow s.1.currentTerm) ∧
      Refusal s.2 F args.prevLogIndex (termAt L args.prevLogIndex) reply := by
  rcases Nat.lt_or_ge s.1.lastIncludedIndex (s.1.nextIndex peer) with hnext | hsnapshot
  · obtain ⟨changed, -, hanswer⟩ := h.holds'.appendEntries_eq (retryArgs s.1 peer L)
    simp only [retryRound, h.request_eq hnext, hanswer, Option.bind_eq_bind,
      Option.bind_some, Option.bind_eq_some_iff, Option.some.injEq, Prod.mk.injEq] at hround
    obtain ⟨l', hl', rfl, rfl, rfl⟩ := hround
    obtain ⟨hstate, hterm, hstopped, hrefusal⟩ := answerEntries_refusal h.live' h.term hfail
    have hsent : s.1.nextIndex peer = (retryArgs s.1 peer L).prevLogIndex + 1 := by
      have := h.lower
      exact (Nat.sub_add_cancel (by omega)).symm
    refine ⟨hsent, ?_, hrefusal⟩
    rw [Raft.appendEntriesReply, if_neg (by simp [h.live, hstopped]),
      if_neg (by rw [hterm]; exact lt_irrefl _), if_neg (by simp [h.leader, retryArgs]),
      if_neg (by simp [hfail]), if_neg (not_not.mpr hsent)] at hl'
    rw [hstate, ← Option.some.inj hl']
    rfl
  · rw [retryRound, h.holds.replicationRequest_eq, if_neg (by simp [h.leader, h.live]),
      if_pos hsnapshot] at hround
    cases hround

/-- At `matchIndex` and at the follower's boundary the logs agree, so a mismatch
is above both. -/
theorem above_agreement (h : Retries peer L F s) {prev : ℕ}
    (hdiffers : termAt F prev ≠ termAt L prev) :
    s.1.matchIndex peer ≠ prev ∧ s.2.lastIncludedIndex ≠ prev ∧ 1 ≤ prev := by
  refine ⟨?_, ?_, ?_⟩
  · rintro rfl
    rw [← termAt_take le_rfl, ← h.matched.2, termAt_take le_rfl] at hdiffers
    exact hdiffers rfl
  · rintro rfl
    rw [← termAt_take le_rfl, ← h.covers.2, termAt_take le_rfl] at hdiffers
    exact hdiffers rfl
  · rw [Nat.one_le_iff_ne_zero]
    rintro rfl
    exact hdiffers rfl

/-- **A refusal at an index that the follower still holds lowers `nextIndex`.** -/
theorem backOff_lt (h : Retries peer L F s) {prev : ℕ} (hnext : s.1.nextIndex peer = prev + 1)
    (hrefusal : Refusal s.2 F prev (termAt L prev) reply) (hbase : s.2.lastIncludedIndex ≤ prev) :
    s.1.backOff peer reply < s.1.nextIndex peer := by
  have hlower := h.lower
  have hupper := h.upper
  rw [backOff_eq, h.holds.lastLogIndex, hnext, Nat.lt_succ_iff]
  suffices hprev : s.1.conflictNext reply ≤ prev ∧ 1 ≤ prev ∧ s.1.matchIndex peer ≠ prev by omega
  cases hrefusal with
  | short hshort =>
      have hmatched : s.1.matchIndex peer ≤ F.length := by
        have hlength := congrArg List.length h.matched.2
        rw [List.length_take, List.length_take] at hlength
        have := h.matched.1
        omega
      exact ⟨hshort, by omega, by omega⟩
  | covered hcovered => omega
  | differs hbase hlong hdiffers =>
      obtain ⟨hmatch, -, hpos⟩ := h.above_agreement hdiffers
      refine ⟨?_, hpos, hmatch⟩
      cases hlast : s.1.lastIndexOfTermLocked (termAt F prev) with
      | none =>
          simp only [conflictNext, hlast]
          exact runStart_le ..
      | some lastIndex =>
          simp only [conflictNext, hlast]
          obtain ⟨hle, hterm⟩ := h.holds.lastIndexOfTerm hlast
          exact h.starts.lt_of_differ h.sorted hle hpos hlong hterm (Ne.symm hdiffers)

/-- **A refusal below the follower's boundary** sends the leader right above it. -/
theorem backOff_covered (h : Retries peer L F s) {prev : ℕ} (hnext : s.1.nextIndex peer = prev + 1)
    (hrefusal : Refusal s.2 F prev (termAt L prev) reply) (hbase : prev < s.2.lastIncludedIndex) :
    s.1.backOff peer reply = s.2.lastIncludedIndex + 1 := by
  have hlower := h.lower
  have hcovers := h.covers.1
  have hboundary := h.holds'.base_le
  cases hrefusal with
  | short hshort => omega
  | covered hcovered =>
      rw [backOff_eq, h.holds.lastLogIndex]
      simp only [conflictNext]
      omega
  | differs hbase hlong hdiffers => omega

theorem not_refusal_boundary (h : Retries peer L F s) :
    ¬ Refusal s.2 F s.2.lastIncludedIndex (termAt L s.2.lastIncludedIndex) reply := by
  intro hrefusal
  have hboundary := h.holds'.base_le
  cases hrefusal with
  | short hshort => omega
  | covered hcovered => omega
  | differs hbase hlong hdiffers => exact (h.above_agreement hdiffers).2.1 rfl

theorem kept (h : Retries peer L F s) (hround : retryRound peer s = some (args, reply, s'))
    (hfail : reply.success = false) : Retries peer L F s' := by
  obtain ⟨-, rfl, -⟩ := h.failed hround hfail
  have hmatched := h.matched.1
  refine ⟨h.leader, h.live, ?_, ?_, ⟨h.holds.base_le, h.holds.base_term, h.holds.logs,
    h.holds.encoded⟩, h.holds'.follow _, h.sorted, h.starts, ?_, h.matched, ?_, ?_⟩
  · rw [follow_dead]
    exact h.live'
  · rw [follow_currentTerm]
    exact max_le h.term le_rfl
  · rw [follow_lastIncludedIndex]
    exact h.covers
  · rw [backedOff_nextIndex, backOff_eq]
    exact le_max_left ..
  · rw [backedOff_nextIndex, backOff_eq, h.holds.lastLogIndex]
    omega

/-- Lower where the loop is closer to its end: right above the follower's
boundary nothing can fail, below it the next try is right above it. -/
def distance (peer : Fin n) (s : Raft n C × Raft n C) : ℕ :=
  if s.1.nextIndex peer = s.2.lastIncludedIndex + 1 then 0
  else if s.1.nextIndex peer ≤ s.2.lastIncludedIndex then 1
  else s.1.nextIndex peer + 1

theorem distance_lt (h : Retries peer L F s) (hround : retryRound peer s = some (args, reply, s'))
    (hfail : reply.success = false) : distance peer s' < distance peer s := by
  obtain ⟨hnext, rfl, hrefusal⟩ := h.failed hround hfail
  simp only [distance, backedOff_nextIndex, follow_lastIncludedIndex]
  rcases Nat.lt_trichotomy args.prevLogIndex s.2.lastIncludedIndex with hlt | heq | hgt
  · rw [h.backOff_covered hnext hrefusal hlt, if_pos rfl, if_neg (by omega), if_pos (by omega)]
    exact Nat.one_pos
  · rw [heq] at hrefusal
    exact absurd hrefusal h.not_refusal_boundary
  · have hlower := h.backOff_lt hnext hrefusal hgt.le
    split_ifs <;> omega

end Retries

theorem retry_eq_some {peer : Fin n} {s s' : Raft n C × Raft n C} :
    retry peer s = some s' ↔
      ∃ args reply, retryRound peer s = some (args, reply, s') ∧ reply.success = false := by
  rw [retry]
  split
  · rename_i args reply s₁ hround
    rw [hround]
    cases hsuccess : reply.success <;> simp [hsuccess]
  · rename_i hround
    simp [hround]

theorem Retries.next {peer : Fin n} {L F : List (LogEntry C)} {s s' : Raft n C × Raft n C}
    (h : Retries peer L F s) (hretry : retry peer s = some s') : Retries peer L F s' := by
  obtain ⟨args, reply, hround, hfail⟩ := retry_eq_some.mp hretry
  exact h.kept hround hfail

theorem Retries.run {peer : Fin n} {L F : List (LogEntry C)} {s s' : Raft n C × Raft n C}
    (h : Retries peer L F s)
    (hrun : Relation.ReflTransGen (fun s s' => retry peer s = some s') s s') :
    Retries peer L F s' := by
  induction hrun with
  | refl => exact h
  | tail _ hstep ih => exact ih.next hstep

/-- **Backing off ends**, with a request that succeeds or with the leader about to
send its snapshot. On the way `nextIndex` stays between what the follower is
known to hold and the end of the log, and a refusal at an index that the
follower still holds lowers it. -/
theorem backOff_terminates {peer : Fin n} {L F : List (LogEntry C)} {l f : Raft n C}
    (h : Retries peer L F (l, f)) :
    (∃ s, (∀ fuel, l.nextIndex peer + 1 < fuel → loop (retry peer) fuel (l, f) = some s) ∧
      (s.1.nextIndex peer ≤ s.1.lastIncludedIndex ∨
        ∃ args reply s', retryRound peer s = some (args, reply, s') ∧ reply.success = true)) ∧
    ∀ s, Relation.ReflTransGen (fun s s' => retry peer s = some s') (l, f) s →
      (s.1.matchIndex peer + 1 ≤ s.1.nextIndex peer ∧
        s.1.nextIndex peer ≤ s.1.lastLogIndexLocked + 1) ∧
      ∀ args reply s', retryRound peer s = some (args, reply, s') → reply.success = false →
        s.2.lastIncludedIndex ≤ args.prevLogIndex →
        s'.1.nextIndex peer < s.1.nextIndex peer := by
  refine ⟨?_, fun s hrun => ?_⟩
  · obtain ⟨s, hloop, hs, hend⟩ := Loop.ends (Retries peer L F) (Retries.distance peer)
      (fun s s' hs hretry => ⟨hs.next hretry, by
        obtain ⟨args, reply, hround, hfail⟩ := retry_eq_some.mp hretry
        exact hs.distance_lt hround hfail⟩) h
    have hbound : Retries.distance peer (l, f) ≤ l.nextIndex peer + 1 := by
      simp only [Retries.distance]
      split_ifs <;> omega
    refine ⟨s, fun fuel hfuel => hloop fuel (by omega), ?_⟩
    rcases Nat.lt_or_ge s.1.lastIncludedIndex (s.1.nextIndex peer) with hnext | hsnapshot
    · obtain ⟨reply, s', hround⟩ := hs.answered hnext
      refine Or.inr ⟨_, reply, s', hround, ?_⟩
      by_contra hfail
      have hretry := retry_eq_some.mpr ⟨_, reply, hround, by simpa using hfail⟩
      rw [hend] at hretry
      cases hretry
    · exact Or.inl hsnapshot
  · have hs := h.run hrun
    rw [hs.holds.lastLogIndex]
    refine ⟨⟨hs.lower, hs.upper⟩, fun args reply s' hround hfail hbase => ?_⟩
    obtain ⟨hnext, rfl, hrefusal⟩ := hs.failed hround hfail
    rw [backedOff_nextIndex]
    exact hs.backOff_lt hnext hrefusal hbase

/-- The log of a leader of term 4, and a follower's log with entries of two leaders
that did not last. -/
def retryLog : List (LogEntry Bool) :=
  [⟨1, some true⟩, ⟨1, some true⟩, ⟨1, some false⟩, ⟨4, some true⟩]

def strayLog : List (LogEntry Bool) :=
  [⟨1, some true⟩, ⟨1, some true⟩, ⟨2, some false⟩, ⟨2, some true⟩, ⟨3, some true⟩]

def retryLeader : Raft 2 Bool :=
  { Raft.withLog (Raft.initial 0 ⟨none, []⟩) retryLog with
    state := .leader
    currentTerm := 4
    nextIndex := fun _ => 5 }

/-- The follower has the first entry in its snapshot. -/
def strayFollower : Raft 2 Bool :=
  { Raft.withLog { (Raft.initial 1 ⟨none, []⟩ : Raft 2 Bool) with lastIncludedIndex := 1 }
      strayLog with
    currentTerm := 3
    lastIncludedTerm := 1 }

theorem retries_stray : Retries 1 retryLog strayLog (retryLeader, strayFollower) where
  leader := rfl
  live := rfl
  live' := rfl
  term := by decide
  holds := ⟨by decide, by decide, by decide, by decide⟩
  holds' := ⟨by decide, by decide, by decide, by decide⟩
  sorted := by
    intro j k hjk hk
    have hcheck : ∀ k < 5, ∀ j ≤ k, termAt retryLog j ≤ termAt retryLog k := by decide
    exact hcheck k (Nat.lt_succ_iff.mpr hk) j hjk
  starts := by
    rintro t i j ⟨hi, hi', rfl, hfirst⟩ hj
    have hcheck : ∀ i < 5, ∀ j < 6, StartsAt retryLog (termAt retryLog i) i →
        StartsAt strayLog (termAt retryLog i) j → i = j := by decide
    exact hcheck i (Nat.lt_succ_iff.mpr hi') j (Nat.lt_succ_iff.mpr hj.2.1)
      ⟨hi, hi', rfl, hfirst⟩ hj
  covers := by decide
  matched := by decide
  lower := by decide
  upper := by decide

theorem backOff_terminates_stray :
    (∃ s, (∀ fuel, 6 < fuel → loop (retry 1) fuel (retryLeader, strayFollower) = some s) ∧
      (s.1.nextIndex 1 ≤ s.1.lastIncludedIndex ∨
        ∃ args reply s', retryRound 1 s = some (args, reply, s') ∧ reply.success = true)) ∧
    (loop (retry 1) 7 (retryLeader, strayFollower)).map (fun s => s.1.nextIndex 1) = some 3 :=
  ⟨(backOff_terminates retries_stray).1, by decide⟩

end RaftShardedKv.Raft
