import RaftShardedKv.Raft.Spec

/-!
Requests of one leader that arrive in any order and any number of times.

The requests are slices of the leader's log `L`, all of the follower's term.
The follower may have folded a prefix of `L` into a snapshot; its log is
completed with that prefix, so that it can be compared with `L` from the first
index on.
-/

namespace RaftShardedKv

open TermLog

variable {n : ℕ} {C : Type}

namespace Raft

/-- The log of a server whose snapshot is a prefix of `L`. -/
def logOver (L : List (LogEntry C)) (rf : Raft n C) : List (LogEntry C) :=
  L.take rf.lastIncludedIndex ++ rf.logs.tail

/-- The largest index through which a server agrees with `L`. -/
noncomputable def agreedWith (L : List (LogEntry C)) (rf : Raft n C) : ℕ := agreed (rf.logOver L) L

variable [Labgob C]

/-- A server whose snapshot is a prefix of `L`, and whose log matches `L`. -/
structure Matches (L : List (LogEntry C)) (rf : Raft n C) : Prop where
  base_le : rf.lastIncludedIndex ≤ L.length
  holds : Holds rf (rf.logOver L)
  matching : Matching (rf.logOver L) L

/-- The server after the requests `requests`. -/
def handleAll (rf : Raft n C) : List (AppendEntriesArgs n C) → Option (Raft n C)
  | [] => some rf
  | args :: requests => do
      let (rf, _) ← rf.appendEntries args
      rf.handleAll requests

end Raft

/-- A request of `term` that is a slice of `L`. -/
structure AppendEntriesArgs.SliceOf (L : List (LogEntry C)) (term : ℕ)
    (args : AppendEntriesArgs n C) : Prop where
  term : args.term = term
  prev_le : args.prevLogIndex ≤ L.length
  prev_term : args.prevLogTerm = termAt L args.prevLogIndex
  entries : args.entries <+: L.drop args.prevLogIndex

/-- The largest commit index that one of the requests carries. -/
def largestCommit (requests : List (AppendEntriesArgs n C)) : ℕ :=
  (requests.map AppendEntriesArgs.leaderCommit).foldr max 0

theorem largestCommit_cons (args : AppendEntriesArgs n C)
    (requests : List (AppendEntriesArgs n C)) :
    largestCommit (args :: requests) = max args.leaderCommit (largestCommit requests) := rfl

theorem largestCommit_concat (requests : List (AppendEntriesArgs n C))
    (args : AppendEntriesArgs n C) :
    largestCommit (requests ++ [args]) = max (largestCommit requests) args.leaderCommit := by
  induction requests with
  | nil => simp [largestCommit]
  | cons a requests ih =>
      rw [List.cons_append, largestCommit_cons, ih, largestCommit_cons, max_assoc]

theorem AppendEntriesArgs.SliceOf.upto {L : List (LogEntry C)} {term : ℕ}
    {args : AppendEntriesArgs n C} (h : args.SliceOf L term) :
    ∃ P, P <+: L ∧ P.length = args.prevLogIndex + args.entries.length ∧
      P.drop args.prevLogIndex = args.entries ∧
      P.take args.prevLogIndex = L.take args.prevLogIndex := by
  obtain ⟨rest, hrest⟩ := h.entries
  have hlength : (L.take args.prevLogIndex).length = args.prevLogIndex := by simp [h.prev_le]
  refine ⟨L.take args.prevLogIndex ++ args.entries, ⟨rest, ?_⟩, ?_, ?_, ?_⟩
  · rw [List.append_assoc, hrest, List.take_append_drop]
  · rw [List.length_append, hlength]
  · rw [List.drop_append_of_le_length hlength.ge, List.drop_of_length_le hlength.le,
      List.nil_append]
  · rw [List.take_append_of_le_length hlength.ge, List.take_of_length_le hlength.le]

namespace Raft

variable [Labgob C] {rf : Raft n C} {L F : List (LogEntry C)}

theorem Holds.logOver (h : Holds rf F) (hbase : L.take rf.lastIncludedIndex <+: F)
    (hle : rf.lastIncludedIndex ≤ L.length) : rf.logOver L = F := by
  refine h.entries ?_
  have htake := take_eq_of_prefix_le hbase (k := rf.lastIncludedIndex) (by simp [hle])
  rw [htake, List.take_take, min_self]

theorem Holds.matches (h : Holds rf F) (hbase : L.take rf.lastIncludedIndex <+: F)
    (hle : rf.lastIncludedIndex ≤ L.length) (hmatching : Matching F L) : rf.Matches L := by
  have hlog := h.logOver hbase hle
  exact ⟨hle, hlog ▸ h, hlog ▸ hmatching⟩

/-- What one request does. -/
structure Handled (L : List (LogEntry C)) (rf : Raft n C) (args : AppendEntriesArgs n C)
    (rf' : Raft n C) (reply : AppendEntriesReply) : Prop where
  currentTerm : rf'.currentTerm = rf.currentTerm
  agreed : rf.agreedWith L ≤ rf'.agreedWith L
  success : reply.success = true →
    args.prevLogIndex + args.entries.length ≤ rf'.agreedWith L
  failure : reply.success = false → rf'.logs = rf.logs ∧ rf'.encodedLogs = rf.encodedLogs ∧
    rf'.lastIncludedIndex = rf.lastIncludedIndex
  commit_le : rf.commitIndex ≤ rf'.commitIndex
  le_commit : rf'.commitIndex ≤ max rf.commitIndex (min (rf'.agreedWith L) args.leaderCommit)

theorem Matches.refused (h : rf.Matches L) (args : AppendEntriesArgs n C)
    {reply : AppendEntriesReply} (hreply : reply.success = false) {term : ℕ}
    (hterm : term = rf.currentTerm) :
    (rf.follow term).Matches L ∧ Handled L rf args (rf.follow term) reply := by
  have hlog : (rf.follow term).logOver L = rf.logOver L := by simp [Raft.logOver]
  have hagreed : (rf.follow term).agreedWith L = rf.agreedWith L := by
    rw [agreedWith, agreedWith, hlog]
  refine ⟨⟨by simpa using h.base_le, ?_, ?_⟩, by simp [hterm], hagreed.ge, ?_, by simp, by simp,
    by simp⟩
  · rw [hlog]
    exact h.holds.follow term
  · rw [hlog]
    exact h.matching
  · rw [hreply]
    nofun

/-- Where the follower has the term of the request before its entries, it
merges what the leader had up to their end. -/
theorem Matches.merge (h : rf.Matches L) {args : AppendEntriesArgs n C} {term : ℕ}
    (hargs : args.SliceOf L term) (hle : args.prevLogIndex ≤ (rf.logOver L).length)
    (hterm : termAt (rf.logOver L) args.prevLogIndex = args.prevLogTerm) :
    ∃ P, P <+: L ∧ P.length = args.prevLogIndex + args.entries.length ∧
      splice (rf.logOver L) args.prevLogIndex args.entries = adopt (rf.logOver L) P := by
  obtain ⟨P, hP, hlength, hdrop, htake⟩ := hargs.upto
  have hagree : (rf.logOver L).take args.prevLogIndex = P.take args.prevLogIndex := by
    rw [htake]
    exact h.matching hle hargs.prev_le (hterm.trans hargs.prev_term)
  exact ⟨P, hP, hlength, splice_eq_adopt (h.matching.of_initial hP) _ _ hle (by omega) hdrop hagree⟩

omit [Labgob C] in
theorem base_initial (rf : Raft n C) (L : List (LogEntry C)) :
    L.take rf.lastIncludedIndex <+: rf.logOver L := List.prefix_append _ _

theorem Matches.adoptLog (h : rf.Matches L) (term : ℕ)
    (hF : L.take rf.lastIncludedIndex <+: F) : Holds (rf.adoptLog term F) F := by
  have hlength : (L.take rf.lastIncludedIndex).length = rf.lastIncludedIndex := by simp [h.base_le]
  have hle : rf.lastIncludedIndex ≤ F.length := hlength.ge.trans hF.length_le
  have htake : F.take rf.lastIncludedIndex = (rf.logOver L).take rf.lastIncludedIndex := by
    rw [take_eq_of_prefix_le hF hlength.ge, take_eq_of_prefix_le (rf.base_initial L) hlength.ge]
  have hlog : Holds ((rf.follow term).withLog F) F :=
    (h.holds.follow term).withLog (by simpa using hle) (by simpa using htake)
  exact hlog.saved

omit [Labgob C] in
theorem logOver_followCommit (rf : Raft n C) (L : List (LogEntry C)) (leaderCommit last : ℕ) :
    (rf.followCommit leaderCommit last).logOver L = rf.logOver L := by
  rw [followCommit_eq]
  rfl

theorem Matches.followCommit (h : rf.Matches L) (leaderCommit last : ℕ) :
    (rf.followCommit leaderCommit last).Matches L := by
  have hlog := rf.logOver_followCommit L leaderCommit last
  rw [followCommit_eq] at hlog ⊢
  exact ⟨h.base_le, hlog ▸ ⟨h.holds.base_le, h.holds.base_term, h.holds.logs, h.holds.encoded⟩,
    hlog ▸ h.matching⟩

theorem Matches.appendEntries (h : rf.Matches L) {args : AppendEntriesArgs n C}
    (hargs : args.SliceOf L rf.currentTerm) :
    ∃ rf' reply, rf.appendEntries args = some (rf', reply) ∧ rf'.Matches L ∧
      Handled L rf args rf' reply := by
  obtain ⟨rf', reply, hrun, hcases⟩ := h.holds.appendEntries args
  refine ⟨rf', reply, hrun, ?_⟩
  obtain ⟨-, rfl, hreply⟩ | ⟨-, -, rfl, hreply⟩ |
    ⟨-, -, hbase, hle, hterm, hreply, rf₁, rfl, hmerged⟩ := hcases
  · exact ⟨h, rfl, le_rfl, by simp [hreply], fun _ => ⟨rfl, rfl, rfl⟩, le_rfl, le_max_left _ _⟩
  · exact h.refused args hreply hargs.term
  · obtain ⟨P, hP, hlength, hsplice⟩ := h.merge hargs hle hterm
    obtain ⟨hkeeps, hreaches⟩ := agreed_adopt (ℓ := rf.logOver L) hP
    have hinitial := prefix_adopt_of_common (rf.base_initial L) (List.take_prefix _ L) hP
    rw [hsplice] at hmerged
    have hrf₁ : Holds rf₁ (adopt (rf.logOver L) P) ∧
        rf₁.lastIncludedIndex = rf.lastIncludedIndex ∧ rf₁.commitIndex = rf.commitIndex ∧
        rf₁.currentTerm = rf.currentTerm := by
      obtain rfl | ⟨hsame, rfl⟩ := hmerged
      · exact ⟨h.adoptLog args.term hinitial, by simp [Raft.adoptLog, Raft.saved, withLog,
          replaceLogs, rebuildEncodedLogs, hargs.term]⟩
      · rw [hsame]
        exact ⟨h.holds.follow args.term, by simp [hargs.term]⟩
    obtain ⟨hholds, hindex, hcommit, hcurrent⟩ := hrf₁
    rw [← hindex] at hinitial
    have hle' : rf₁.lastIncludedIndex ≤ L.length := hindex.le.trans h.base_le
    have hlog := hholds.logOver hinitial hle'
    have hagreed : (rf₁.followCommit args.leaderCommit
        (args.prevLogIndex + args.entries.length)).agreedWith L =
          agreed (adopt (rf.logOver L) P) L := by
      rw [agreedWith, logOver_followCommit, hlog]
    refine ⟨(hholds.matches hinitial hle' (h.matching.adopt hP)).followCommit _ _, ?_, ?_, ?_, ?_,
      ?_, ?_⟩
    · rw [followCommit_eq]
      exact hcurrent
    · rw [hagreed]
      exact hkeeps
    · intro _
      rw [hagreed, ← hlength]
      exact hreaches
    · intro hrefused
      rw [hreply] at hrefused
      cases hrefused
    · rw [followCommit_eq]
      exact hcommit.ge.trans (le_max_left _ _)
    · rw [hagreed, followCommit_eq]
      simp only [hcommit]
      omega

theorem Matches.handleAll (h : rf.Matches L) {requests : List (AppendEntriesArgs n C)}
    (hrequests : ∀ args ∈ requests, args.SliceOf L rf.currentTerm) :
    ∃ rf', rf.handleAll requests = some rf' ∧ rf'.Matches L ∧
      rf'.currentTerm = rf.currentTerm ∧ rf.agreedWith L ≤ rf'.agreedWith L ∧
      rf'.commitIndex ≤ max rf.commitIndex (min (rf'.agreedWith L) (largestCommit requests)) := by
  induction requests generalizing rf with
  | nil => exact ⟨rf, rfl, h, rfl, le_rfl, le_max_left _ _⟩
  | cons args requests ih =>
      obtain ⟨rf₁, reply, hrun, h₁, hstep⟩ := h.appendEntries (hrequests args (by simp))
      obtain ⟨rf', hrest, h', hterm, hagreed, hcommit⟩ := ih h₁ fun a ha => by
        rw [hstep.currentTerm]
        exact hrequests a (by simp [ha])
      refine ⟨rf', ?_, h', hterm.trans hstep.currentTerm, hstep.agreed.trans hagreed, ?_⟩
      · rw [Raft.handleAll, hrun]
        exact hrest
      · have hfirst := hstep.le_commit
        rw [largestCommit_cons]
        omega

end Raft

/-- **Any order, any number of times.** Of requests that are slices of one
leader's log, each extends the agreement with that log or leaves it, a
successful one as far as it reaches; a refused one leaves the log as it is; and
the commit index rises only to what is agreed and committed by the leader. -/
theorem appendEntries_any_order [Labgob C] {rf : Raft n C} {L : List (LogEntry C)}
    (h : rf.Matches L) {requests : List (AppendEntriesArgs n C)} {args : AppendEntriesArgs n C}
    (hrequests : ∀ a ∈ requests, a.SliceOf L rf.currentTerm)
    (hargs : args.SliceOf L rf.currentTerm) :
    ∃ rf₁ rf₂ reply, rf.handleAll requests = some rf₁ ∧
      rf₁.appendEntries args = some (rf₂, reply) ∧
      rf₁.agreedWith L ≤ rf₂.agreedWith L ∧
      (reply.success = true → args.prevLogIndex + args.entries.length ≤ rf₂.agreedWith L) ∧
      (reply.success = false → rf₂.logs = rf₁.logs ∧ rf₂.encodedLogs = rf₁.encodedLogs ∧
        rf₂.lastIncludedIndex = rf₁.lastIncludedIndex) ∧
      rf₁.commitIndex ≤ rf₂.commitIndex ∧
      rf₂.commitIndex ≤ max rf.commitIndex
        (min (rf₂.agreedWith L) (largestCommit (requests ++ [args]))) := by
  obtain ⟨rf₁, hrun, h₁, hterm, -, hcommit⟩ := h.handleAll hrequests
  rw [← hterm] at hargs
  obtain ⟨rf₂, reply, hlast, -, hstep⟩ := h₁.appendEntries hargs
  refine ⟨rf₁, rf₂, reply, hrun, hlast, hstep.agreed, hstep.success, hstep.failure,
    hstep.commit_le, ?_⟩
  have hagreed := hstep.agreed
  have hle := hstep.le_commit
  rw [largestCommit_concat]
  omega

def sampleLeaderLog : List (LogEntry Bool) := [⟨1, some true⟩, ⟨1, some false⟩, ⟨2, some true⟩]

/-- A follower with the first entry in its snapshot, and a third of its own. -/
def sampleFollower : Raft 2 Bool :=
  { Raft.withLog { (Raft.initial 1 ⟨none, []⟩ : Raft 2 Bool) with lastIncludedIndex := 1 }
      [⟨1, some true⟩, ⟨1, some false⟩, ⟨1, some true⟩] with
    currentTerm := 2
    lastIncludedTerm := 1
    commitIndex := 1
    lastApplied := 1 }

theorem sampleFollower_matches : sampleFollower.Matches sampleLeaderLog := by
  refine ⟨by decide, ⟨by decide, by decide, by decide, by decide⟩, ?_⟩
  intro k hk hk'
  have hbound : k ≤ 3 := hk'
  interval_cases k <;> decide

theorem appendEntries_any_order_sample :
    let early : AppendEntriesArgs 2 Bool := ⟨2, 0, 2, 1, [⟨2, some true⟩], 2⟩
    let late : AppendEntriesArgs 2 Bool := ⟨2, 0, 1, 1, [⟨1, some false⟩], 5⟩
    ∃ rf₁ rf₂ reply, sampleFollower.handleAll [early, late, early] = some rf₁ ∧
      rf₁.appendEntries late = some (rf₂, reply) ∧
      rf₁.agreedWith sampleLeaderLog ≤ rf₂.agreedWith sampleLeaderLog ∧
      (reply.success = true → 1 + 1 ≤ rf₂.agreedWith sampleLeaderLog) ∧
      (reply.success = false → rf₂.logs = rf₁.logs ∧ rf₂.encodedLogs = rf₁.encodedLogs ∧
        rf₂.lastIncludedIndex = rf₁.lastIncludedIndex) ∧
      rf₁.commitIndex ≤ rf₂.commitIndex ∧
      rf₂.commitIndex ≤ max 1 (min (rf₂.agreedWith sampleLeaderLog)
        (largestCommit ([early, late, early] ++ [late]))) := by
  intro early late
  have hearly : early.SliceOf sampleLeaderLog 2 := ⟨rfl, by decide, rfl, by decide⟩
  have hlate : late.SliceOf sampleLeaderLog 2 := ⟨rfl, by decide, rfl, by decide⟩
  refine appendEntries_any_order sampleFollower_matches (fun a ha => ?_) hlate
  simp only [List.mem_cons, List.not_mem_nil, or_false] at ha
  rcases ha with rfl | rfl | rfl
  · exact hearly
  · exact hlate
  · exact hearly

end RaftShardedKv
