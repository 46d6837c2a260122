import RaftShardedKv.Raft.Spec

/-!
Folding the log into a snapshot is invisible to the other servers: it makes
no difference whether `Snapshot` comes before or after the handler of a
request, as long as the request does not refer to what is folded.

`fold` replaces the stored log and saves; it commutes with every change that a
handler makes.
-/

namespace RaftShardedKv.Raft

open TermLog

variable {n : ℕ} {C : Type} [Labgob C]

/-! ### Folding and the changes of the handlers -/

section

variable (rf : Raft n C) (L F : List (LogEntry C)) (index : ℕ) (data : Bytes) (term : ℕ)

theorem fold_follow : (rf.fold L index data).follow term = (rf.follow term).fold L index data := by
  unfold follow
  have hterm : (rf.fold L index data).currentTerm = rf.currentTerm := rfl
  rw [hterm]
  split <;> rfl

theorem fold_enter : (rf.fold L index data).enter term = (rf.enter term).fold L index data := by
  unfold enter
  have hterm : (rf.fold L index data).currentTerm = rf.currentTerm := rfl
  rw [hterm, fold_follow]
  split <;> rfl

theorem fold_voteFor (c : Fin n) :
    (rf.fold L index data).voteFor c = (rf.voteFor c).fold L index data := rfl

theorem fold_followCommit (leaderCommit last : ℕ) :
    (rf.fold L index data).followCommit leaderCommit last =
      (rf.followCommit leaderCommit last).fold L index data := by
  rw [followCommit_eq, followCommit_eq]
  rfl

theorem adoptLog_fold :
    (rf.adoptLog term L).fold F index data = (rf.follow term).fold F index data :=
  rfl

variable {L F index}

theorem fold_adoptLog (h : termAt F index = termAt L index) :
    (rf.fold L index data).adoptLog term F = (rf.follow term).fold F index data := by
  rw [adoptLog, fold_follow]
  simp only [fold, saved, withLog, replaceLogs, rebuildEncodedLogs, raftState, h]

end

/-! ### Snapshot and request -/

def snapshotThenEntries (rf : Raft n C) (index : ℕ) (data : Bytes) (args : AppendEntriesArgs n C) :
    Option (Raft n C × AppendEntriesReply) := do
  let rf ← rf.takeSnapshot index data
  rf.appendEntries args

def entriesThenSnapshot (rf : Raft n C) (index : ℕ) (data : Bytes) (args : AppendEntriesArgs n C) :
    Option (Raft n C × AppendEntriesReply) := do
  let (rf, reply) ← rf.appendEntries args
  let rf ← rf.takeSnapshot index data
  some (rf, reply)

def snapshotThenVote (rf : Raft n C) (index : ℕ) (data : Bytes) (args : RequestVoteArgs n) :
    Option (Raft n C × RequestVoteReply) := do
  let rf ← rf.takeSnapshot index data
  rf.requestVote args

def voteThenSnapshot (rf : Raft n C) (index : ℕ) (data : Bytes) (args : RequestVoteArgs n) :
    Option (Raft n C × RequestVoteReply) := do
  let (rf, reply) ← rf.requestVote args
  let rf ← rf.takeSnapshot index data
  some (rf, reply)

variable {rf : Raft n C} {L : List (LogEntry C)} {index : ℕ}

/-- What `Snapshot` looks at, besides the log. -/
structure SameGuard (rf rf' : Raft n C) : Prop where
  dead : rf'.dead = rf.dead
  base : rf'.lastIncludedIndex = rf.lastIncludedIndex
  applied : rf'.lastApplied = rf.lastApplied

/-- The condition under which `Snapshot` folds the log `L`. -/
def Folds (rf : Raft n C) (L : List (LogEntry C)) (index : ℕ) : Prop :=
  rf.dead = false ∧ rf.lastIncludedIndex < index ∧ index ≤ rf.lastApplied ∧ index ≤ L.length

instance (rf : Raft n C) (L : List (LogEntry C)) (index : ℕ) : Decidable (rf.Folds L index) :=
  inferInstanceAs (Decidable (_ ∧ _))

theorem Holds.takeSnapshot_folds (h : Holds rf L) (hfolds : rf.Folds L index) (data : Bytes) :
    rf.takeSnapshot index data = some (rf.fold L index data) := by
  rw [h.takeSnapshot_eq]
  exact congrArg some (if_pos hfolds)

theorem Holds.takeSnapshot_skips (h : Holds rf L) (hskips : ¬ rf.Folds L index) (data : Bytes) :
    rf.takeSnapshot index data = some rf := by
  rw [h.takeSnapshot_eq]
  exact congrArg some (if_neg hskips)

/-! ### Votes -/

theorem answerVote_spec (h : Holds rf L) (args : RequestVoteArgs n) :
    Holds (rf.answerVote L args).1 L ∧ SameGuard rf (rf.answerVote L args).1 := by
  have henter : Holds (rf.enter args.term) L ∧ SameGuard rf (rf.enter args.term) := by
    refine ⟨h.enter _, ?_⟩
    unfold enter
    split
    · constructor <;> simp
    · exact ⟨rfl, rfl, rfl⟩
  obtain ⟨hholds, hsame⟩ := henter
  unfold answerVote
  split_ifs
  · exact ⟨h, rfl, rfl, rfl⟩
  · exact ⟨h, rfl, rfl, rfl⟩
  · exact ⟨⟨hholds.base_le, hholds.base_term, hholds.logs, hholds.encoded⟩, hsame.dead, hsame.base,
      hsame.applied⟩
  · exact ⟨hholds, hsame⟩

theorem answerVote_fold (rf : Raft n C) (L : List (LogEntry C)) (index : ℕ) (data : Bytes)
    (args : RequestVoteArgs n) :
    (rf.fold L index data).answerVote L args =
      ((rf.answerVote L args).1.fold L index data, (rf.answerVote L args).2) := by
  have hdead : (rf.fold L index data).dead = rf.dead := rfl
  have hterm : (rf.fold L index data).currentTerm = rf.currentTerm := rfl
  have hvote : ((rf.enter args.term).fold L index data).votedFor =
      (rf.enter args.term).votedFor := rfl
  have henter : ((rf.enter args.term).fold L index data).currentTerm =
      (rf.enter args.term).currentTerm := rfl
  simp only [answerVote, hdead, hterm, fold_enter, hvote, henter, fold_voteFor]
  split_ifs <;> rfl

theorem Holds.vote_commutes (h : Holds rf L) (index : ℕ) (data : Bytes) (args : RequestVoteArgs n) :
    ∃ result, rf.snapshotThenVote index data args = some result ∧
      rf.voteThenSnapshot index data args = some result := by
  obtain ⟨hholds, hdead, hbase, happlied⟩ := answerVote_spec h args
  simp only [snapshotThenVote, voteThenSnapshot, h.requestVote_eq, Option.bind_eq_bind,
    Option.bind_some]
  by_cases hfolds : rf.Folds L index
  · have hfolds' : (rf.answerVote L args).1.Folds L index := by
      rw [Folds, hdead, hbase, happlied]
      exact hfolds
    simp only [h.takeSnapshot_folds hfolds, hholds.takeSnapshot_folds hfolds', Option.bind_some,
      (holds_fold hfolds.2.2.2 data).requestVote_eq, answerVote_fold]
    exact ⟨_, rfl, rfl⟩
  · have hskips : ¬ (rf.answerVote L args).1.Folds L index := by
      rw [Folds, hdead, hbase, happlied]
      exact hfolds
    simp only [h.takeSnapshot_skips hfolds, hholds.takeSnapshot_skips hskips, Option.bind_some,
      h.requestVote_eq]
    exact ⟨_, rfl, rfl⟩

/-! ### Entries -/

/-- The log after a request, of a server that held `L`. -/
def logAfter (L : List (LogEntry C)) (args : AppendEntriesArgs n C) (reply : AppendEntriesReply) :
    List (LogEntry C) :=
  if reply.success then splice L args.prevLogIndex args.entries else L

theorem answerEntries_spec (h : Holds rf L) {changed : Bool} {args : AppendEntriesArgs n C}
    (hchanged : changed = false → splice L args.prevLogIndex args.entries = L) :
    Holds (rf.answerEntries L changed args).1
      (logAfter L args (rf.answerEntries L changed args).2) ∧
      SameGuard rf (rf.answerEntries L changed args).1 := by
  have hfollow : Holds (rf.follow args.term) L ∧ SameGuard rf (rf.follow args.term) :=
    ⟨h.follow _, by constructor <;> simp⟩
  unfold answerEntries
  split_ifs with hdead hstale hlong hcut hmatch
  · exact ⟨h, rfl, rfl, rfl⟩
  · exact ⟨h, rfl, rfl, rfl⟩
  · exact hfollow
  · exact hfollow
  · exact hfollow
  · -- the log that was merged agrees with the old one up to the boundary
    have hbase : rf.lastIncludedIndex ≤ (splice L args.prevLogIndex args.entries).length :=
      (not_lt.mp hcut).trans (le_length_splice L _ (not_lt.mp hlong))
    have htake := take_splice L args.entries (not_lt.mp hlong) (not_lt.mp hcut)
    have hmerged : Holds (rf.adoptLog args.term (splice L args.prevLogIndex args.entries)) _ :=
      (hfollow.1.withLog (by simpa using hbase) (by simpa using htake)).saved
    rw [followCommit_eq]
    exact ⟨⟨hmerged.base_le, hmerged.base_term, hmerged.logs, hmerged.encoded⟩, hfollow.2.dead,
      hfollow.2.base, hfollow.2.applied⟩
  · rename_i hfalse
    rw [followCommit_eq, logAfter, if_pos rfl, hchanged (by simpa using hfalse)]
    obtain ⟨hholds, hsame⟩ := hfollow
    exact ⟨⟨hholds.base_le, hholds.base_term, hholds.logs, hholds.encoded⟩, hsame.dead, hsame.base,
      hsame.applied⟩

/-- The answers before and after the log was folded differ at most in the
conflict index, which stops at the boundary. -/
structure SameAnswer (index : ℕ) (reply reply' : AppendEntriesReply) : Prop where
  term : reply'.term = reply.term
  success : reply'.success = reply.success
  stopped : reply'.stopped = reply.stopped
  conflictTerm : reply'.conflictTerm = reply.conflictTerm
  conflictIndex : reply'.conflictIndex = reply.conflictIndex ∨
    reply.conflictIndex < index ∧ reply'.conflictIndex = index

theorem answerEntries_fold (hfolds : rf.Folds L index) {changed changed' : Bool}
    {args : AppendEntriesArgs n C} (hprev : index ≤ args.prevLogIndex)
    (hchanged' : changed' = false → splice L args.prevLogIndex args.entries = L) (data : Bytes) :
    ((rf.fold L index data).answerEntries L changed' args).1 =
        (rf.answerEntries L changed args).1.fold
          (logAfter L args (rf.answerEntries L changed args).2) index data ∧
      SameAnswer index (rf.answerEntries L changed args).2
        ((rf.fold L index data).answerEntries L changed' args).2 := by
  obtain ⟨hlive, hbase, happlied, hlength⟩ := hfolds
  have hdead : (rf.fold L index data).dead = rf.dead := rfl
  have hterm : (rf.fold L index data).currentTerm = rf.currentTerm := rfl
  have hindex : (rf.fold L index data).lastIncludedIndex = index := rfl
  simp only [answerEntries, hdead, hterm, hindex, hlive, Bool.false_eq_true, if_false,
    if_neg (not_lt.mpr hprev), if_neg (show ¬ args.prevLogIndex < rf.lastIncludedIndex by omega),
    fold_follow]
  by_cases hstale : args.term < rf.currentTerm
  · simp only [if_pos hstale]
    exact ⟨rfl, rfl, rfl, rfl, rfl, Or.inl rfl⟩
  by_cases hlong : L.length < args.prevLogIndex
  · simp only [if_neg hstale, if_pos hlong]
    exact ⟨rfl, rfl, rfl, rfl, rfl, Or.inl rfl⟩
  by_cases hmatch : termAt L args.prevLogIndex ≠ args.prevLogTerm
  · simp only [if_neg hstale, if_neg hlong, if_pos hmatch]
    refine ⟨rfl, rfl, rfl, rfl, rfl, ?_⟩
    rw [runStart_base L _ hbase.le hprev]
    rcases Nat.lt_or_ge (runStart L rf.lastIncludedIndex (termAt L args.prevLogIndex)
      args.prevLogIndex) index with hlt | hge
    · exact Or.inr ⟨hlt, max_eq_left hlt.le⟩
    · exact Or.inl (max_eq_right hge)
  · simp only [if_neg hstale, if_neg hlong, if_neg hmatch]
    refine ⟨?_, rfl, rfl, rfl, rfl, Or.inl rfl⟩
    have hsame : termAt (splice L args.prevLogIndex args.entries) index = termAt L index := by
      rw [← termAt_take le_rfl, take_splice L _ (not_lt.mp hlong) hprev, termAt_take le_rfl]
    -- folding overwrites the log, whether it was rewritten before or not
    have hfirst : (if changed' then (rf.fold L index data).adoptLog args.term
          (splice L args.prevLogIndex args.entries) else (rf.follow args.term).fold L index data) =
        (rf.follow args.term).fold (splice L args.prevLogIndex args.entries) index data := by
      split
      · exact fold_adoptLog rf data args.term hsame
      · rw [hchanged' (by simp_all)]
    have hafter : (if changed then rf.adoptLog args.term (splice L args.prevLogIndex args.entries)
          else rf.follow args.term).fold (splice L args.prevLogIndex args.entries) index data =
        (rf.follow args.term).fold (splice L args.prevLogIndex args.entries) index data := by
      split
      · exact adoptLog_fold ..
      · rfl
    rw [hfirst, logAfter, if_pos rfl, ← fold_followCommit, hafter]

omit [Labgob C] in
theorem reach_of_success [Labgob C] {changed : Bool} {args : AppendEntriesArgs n C}
    (hsuccess : (rf.answerEntries L changed args).2.success = true) :
    args.prevLogIndex ≤ L.length := by
  by_contra hlong
  unfold answerEntries at hsuccess
  rw [if_pos (not_le.mp hlong)] at hsuccess
  split_ifs at hsuccess

/-- A request that is at or above `index` does not change whether the log
reaches `index`. -/
theorem folds_answerEntries {changed : Bool} {args : AppendEntriesArgs n C}
    (hsame : SameGuard rf (rf.answerEntries L changed args).1) (hprev : index ≤ args.prevLogIndex) :
    (rf.answerEntries L changed args).1.Folds
      (logAfter L args (rf.answerEntries L changed args).2) index ↔ rf.Folds L index := by
  obtain ⟨hdead, hbase, happlied⟩ := hsame
  have hlength : index ≤ (logAfter L args (rf.answerEntries L changed args).2).length ↔
      index ≤ L.length := by
    rw [logAfter]
    split
    · rename_i hsuccess
      have hreach := reach_of_success hsuccess
      exact iff_of_true (hprev.trans (le_length_splice L _ hreach)) (hprev.trans hreach)
    · rfl
  rw [Folds, Folds, hdead, hbase, happlied, hlength]

theorem Holds.entries_commute (h : Holds rf L) {args : AppendEntriesArgs n C}
    (hprev : index ≤ args.prevLogIndex) (data : Bytes) :
    ∃ rf' reply reply', rf.entriesThenSnapshot index data args = some (rf', reply) ∧
      rf.snapshotThenEntries index data args = some (rf', reply') ∧
      SameAnswer index reply reply' := by
  obtain ⟨changed, hchanged, heq⟩ := h.appendEntries_eq args
  obtain ⟨hholds, hsame⟩ := answerEntries_spec h hchanged
  have hguard := folds_answerEntries hsame hprev
  simp only [snapshotThenEntries, entriesThenSnapshot, heq, Option.bind_eq_bind, Option.bind_some]
  by_cases hfolds : rf.Folds L index
  · obtain ⟨changed', hchanged', heq'⟩ := (holds_fold hfolds.2.2.2 data).appendEntries_eq args
    obtain ⟨hstate, hanswer⟩ := answerEntries_fold hfolds hprev hchanged' data
    simp only [h.takeSnapshot_folds hfolds, hholds.takeSnapshot_folds (hguard.mpr hfolds),
      Option.bind_some]
    exact ⟨_, _, _, rfl, heq'.trans (congrArg some (Prod.ext hstate rfl)), hanswer⟩
  · simp only [h.takeSnapshot_skips hfolds, hholds.takeSnapshot_skips (mt hguard.mp hfolds),
      Option.bind_some, heq]
    exact ⟨_, _, _, rfl, rfl, rfl, rfl, rfl, rfl, Or.inl rfl⟩

/-- Whether `Snapshot` comes before or after a request, the server is the same
afterwards, and so is the answer, except that a conflict may be reported at the
new boundary and no longer below it. -/
theorem compaction_invisible (h : Holds rf L) (index : ℕ) (data : Bytes) :
    (∀ args : AppendEntriesArgs n C, index ≤ args.prevLogIndex →
      ∃ rf' reply reply', rf.entriesThenSnapshot index data args = some (rf', reply) ∧
        rf.snapshotThenEntries index data args = some (rf', reply') ∧
        SameAnswer index reply reply') ∧
    ∀ args : RequestVoteArgs n, ∃ rf' reply,
      rf.voteThenSnapshot index data args = some (rf', reply) ∧
      rf.snapshotThenVote index data args = some (rf', reply) := by
  refine ⟨fun args hprev => h.entries_commute hprev data, fun args => ?_⟩
  obtain ⟨⟨rf', reply⟩, hfirst, hafter⟩ := h.vote_commutes index data args
  exact ⟨rf', reply, hafter, hfirst⟩

/-- A server that has applied three entries of its first leader. -/
def appliedServer : Raft 2 Bool :=
  { Raft.withLog (Raft.initial 1 ⟨none, []⟩)
      [⟨1, some true⟩, ⟨1, some false⟩, ⟨1, some true⟩, ⟨1, some false⟩] with
    currentTerm := 1
    commitIndex := 3
    lastApplied := 3 }

/-- The request does not match at index 4. The run of term 1 starts at index 1, and
at the boundary once the log is folded. -/
theorem compaction_invisible_conflict :
    let args : AppendEntriesArgs 2 Bool := ⟨2, 0, 4, 2, [], 0⟩
    (∃ rf' reply reply', appliedServer.entriesThenSnapshot 2 [7] args = some (rf', reply) ∧
      appliedServer.snapshotThenEntries 2 [7] args = some (rf', reply') ∧
      SameAnswer 2 reply reply') ∧
    (appliedServer.entriesThenSnapshot 2 [7] args).map (fun r => r.2.conflictIndex) = some 1 ∧
    (appliedServer.snapshotThenEntries 2 [7] args).map (fun r => r.2.conflictIndex) = some 2 := by
  have hholds : Holds appliedServer
      [⟨1, some true⟩, ⟨1, some false⟩, ⟨1, some true⟩, ⟨1, some false⟩] :=
    ⟨by decide, by decide, by decide, by decide⟩
  exact ⟨(compaction_invisible hholds 2 [7]).1 _ (by decide), by decide, by decide⟩

end RaftShardedKv.Raft
