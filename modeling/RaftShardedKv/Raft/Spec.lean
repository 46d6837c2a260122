import RaftShardedKv.Raft.Log

/-!
What each critical section does, in terms of the log a server holds.

Every function of the source that can panic is shown here not to, on a
server that holds a log, and its result is given without the checks:
one lemma for each function, which later modules cite instead of the
function's body.
-/

namespace RaftShardedKv

open TermLog Consensus

variable {n : ℕ} {C : Type} [Labgob C]

/-! ### Storage -/

theorem decode_encoded (logs : List (LogEntry C)) :
    (logs.map Labgob.encodeLogEntry).mapM Labgob.decodeLogEntry = some logs := by
  induction logs with
  | nil => rfl
  | cons e logs ih =>
      rw [List.map_cons, List.mapM_cons, Labgob.decode_encode, ih]
      rfl

theorem encoded_injective : Function.Injective (List.map (Labgob.encodeLogEntry (C := C))) := by
  intro logs logs' h
  have hdecode := decode_encoded logs
  rw [h, decode_encoded] at hdecode
  exact (Option.some.inj hdecode).symm

/-- The values `Make` starts from when nothing was saved. -/
def RaftState.initial (n : ℕ) (C : Type) [Labgob C] : RaftState n where
  currentTerm := 0
  votedFor := none
  lastIncludedIndex := 0
  lastIncludedTerm := 0
  encodedLogs := [Labgob.encodeLogEntry (⟨0, none⟩ : LogEntry C)]

namespace Raft

/-- The storage of a server says what its memory says. -/
structure Synced (rf : Raft n C) : Prop where
  state : rf.persister.raftstate.getD (RaftState.initial n C) = rf.raftState
  snapshot : rf.persister.snapshot = rf.snapshot

theorem synced_saved (rf : Raft n C) : Synced rf.saved := ⟨rfl, rfl⟩

theorem Holds.saved {rf : Raft n C} {L : List (LogEntry C)} (h : Holds rf L) :
    Holds rf.saved L := ⟨h.base_le, h.base_term, h.logs, h.encoded⟩

/-- What `Make` restores of a server. -/
def remade (rf : Raft n C) (me : Fin n) : Raft n C :=
  { (initial me rf.persister : Raft n C) with
    currentTerm := rf.currentTerm
    votedFor := rf.votedFor
    logs := rf.logs
    encodedLogs := rf.encodedLogs
    lastIncludedIndex := rf.lastIncludedIndex
    lastIncludedTerm := rf.lastIncludedTerm
    snapshot := rf.snapshot
    commitIndex := rf.lastIncludedIndex
    lastApplied := rf.lastIncludedIndex }

theorem Holds.make {rf : Raft n C} {L : List (LogEntry C)} (h : Holds rf L) (hs : Synced rf)
    (me : Fin n) : Raft.make me rf.persister = some (rf.remade me) := by
  have hstate := hs.state
  have hsnap := hs.snapshot
  cases hp : rf.persister.raftstate with
  | none =>
      rw [hp, Option.getD_none] at hstate
      simp only [RaftState.initial, raftState, RaftState.mk.injEq] at hstate
      obtain ⟨hterm, hvote, hbase, hbaseTerm, henc⟩ := hstate
      have hlogs : rf.logs = [⟨0, none⟩] := by
        apply encoded_injective
        rw [← h.encoded, ← henc]
        rfl
      simp only [Raft.make, readPersist, hp, Option.bind_eq_bind, Option.bind_some, remade,
        initial, rebuildEncodedLogs, hsnap, ← hterm, ← hvote, ← hbase, ← hbaseTerm, hlogs, ← henc,
        List.map_cons, List.map_nil]
  | some data =>
      rw [hp, Option.getD_some] at hstate
      subst hstate
      have hne : rf.encodedLogs ≠ [] := by
        rw [h.encoded, h.logs]
        simp [compacted]
      have hdecode : rf.encodedLogs.mapM Labgob.decodeLogEntry = some rf.logs := by
        rw [h.encoded, decode_encoded]
      simp only [Raft.make, readPersist, hp, raftState, if_neg hne, hdecode, Option.bind_eq_bind,
        Option.bind_some, remade, hsnap]

theorem Holds.remade {rf : Raft n C} {L : List (LogEntry C)} (h : Holds rf L) (me : Fin n) :
    Holds (rf.remade me) L := ⟨h.base_le, h.base_term, h.logs, h.encoded⟩

theorem Synced.remade {rf : Raft n C} (h : Synced rf) (me : Fin n) : Synced (rf.remade me) :=
  ⟨h.state, h.snapshot⟩

/-! ### Following a leader -/

/-- The server after `becomeFollowerLocked(term)`. -/
def follow (rf : Raft n C) (term : ℕ) : Raft n C :=
  { (if rf.currentTerm < term then
      saved { rf with currentTerm := term, votedFor := none } else rf) with state := .follower }

section follow

variable (rf : Raft n C) (t : ℕ)

omit [Labgob C]

@[simp] theorem follow_state : (rf.follow t).state = .follower := rfl

@[simp] theorem follow_currentTerm : (rf.follow t).currentTerm = max rf.currentTerm t := by
  unfold follow; split <;> simp [saved] <;> omega

theorem follow_votedFor :
    (rf.follow t).votedFor = if rf.currentTerm < t then none else rf.votedFor := by
  unfold follow; split <;> rfl

@[simp] theorem follow_me : (rf.follow t).me = rf.me := by unfold follow; split <;> rfl
@[simp] theorem follow_dead : (rf.follow t).dead = rf.dead := by unfold follow; split <;> rfl
@[simp] theorem follow_logs : (rf.follow t).logs = rf.logs := by unfold follow; split <;> rfl
@[simp] theorem follow_encodedLogs : (rf.follow t).encodedLogs = rf.encodedLogs := by
  unfold follow; split <;> rfl
@[simp] theorem follow_lastIncludedIndex :
    (rf.follow t).lastIncludedIndex = rf.lastIncludedIndex := by unfold follow; split <;> rfl
@[simp] theorem follow_lastIncludedTerm :
    (rf.follow t).lastIncludedTerm = rf.lastIncludedTerm := by unfold follow; split <;> rfl
@[simp] theorem follow_commitIndex : (rf.follow t).commitIndex = rf.commitIndex := by
  unfold follow; split <;> rfl
@[simp] theorem follow_lastApplied : (rf.follow t).lastApplied = rf.lastApplied := by
  unfold follow; split <;> rfl
@[simp] theorem follow_snapshot : (rf.follow t).snapshot = rf.snapshot := by
  unfold follow; split <;> rfl
@[simp] theorem follow_pendingSnapshot :
    (rf.follow t).pendingSnapshot = rf.pendingSnapshot := by unfold follow; split <;> rfl

end follow

theorem Holds.becomeFollowerLocked {rf : Raft n C} {L : List (LogEntry C)} (h : Holds rf L)
    (t : ℕ) : rf.becomeFollowerLocked t = some (rf.follow t) := by
  have hpersist : ({ rf with currentTerm := t, votedFor := none } : Raft n C).persist =
      some (Raft.saved { rf with currentTerm := t, votedFor := none }) :=
    Holds.persist (L := L) ⟨h.base_le, h.base_term, h.logs, h.encoded⟩
  unfold Raft.becomeFollowerLocked Raft.follow
  split
  · rw [hpersist]; rfl
  · rfl

theorem Holds.follow {rf : Raft n C} {L : List (LogEntry C)} (h : Holds rf L) (t : ℕ) :
    Holds (rf.follow t) L := by
  constructor <;> simp [h.base_le, ← h.base_term, ← h.logs, h.encoded]

theorem Synced.follow {rf : Raft n C} (h : Synced rf) (t : ℕ) : Synced (rf.follow t) := by
  unfold Raft.follow
  split
  · exact ⟨rfl, rfl⟩
  · exact ⟨h.state, h.snapshot⟩

/-! ### Votes -/

/-- The first part of `RequestVote`: the term of the request. -/
def enter (rf : Raft n C) (term : ℕ) : Raft n C :=
  if rf.currentTerm < term then rf.follow term else rf

/-- The server after it voted for `c`. -/
def voteFor (rf : Raft n C) (c : Fin n) : Raft n C :=
  saved { rf with votedFor := some c }

theorem Holds.enter {rf : Raft n C} {L : List (LogEntry C)} (h : Holds rf L) (t : ℕ) :
    Holds (rf.enter t) L := by
  unfold Raft.enter
  split
  · exact h.follow t
  · exact h

theorem Holds.persist_voteFor {rf : Raft n C} {L : List (LogEntry C)} (h : Holds rf L)
    (c : Fin n) : ({ rf with votedFor := some c } : Raft n C).persist = some (rf.voteFor c) :=
  Holds.persist (L := L) ⟨h.base_le, h.base_term, h.logs, h.encoded⟩

/-- The server and the answer after a vote request, in terms of the log `L`
that the server holds. -/
def answerVote (rf : Raft n C) (L : List (LogEntry C)) (args : RequestVoteArgs n) :
    Raft n C × RequestVoteReply :=
  if rf.dead then (rf, ⟨rf.currentTerm, false⟩)
  else if args.term < rf.currentTerm then (rf, ⟨rf.currentTerm, false⟩)
  else if ((rf.enter args.term).votedFor = none ∨
        (rf.enter args.term).votedFor = some args.candidateId) ∧
      (lastTerm L < args.lastLogTerm ∨
        args.lastLogTerm = lastTerm L ∧ L.length ≤ args.lastLogIndex) then
    ((rf.enter args.term).voteFor args.candidateId, ⟨(rf.enter args.term).currentTerm, true⟩)
  else (rf.enter args.term, ⟨(rf.enter args.term).currentTerm, false⟩)

theorem Holds.requestVote_eq {rf : Raft n C} {L : List (LogEntry C)} (h : Holds rf L)
    (args : RequestVoteArgs n) : rf.requestVote args = some (rf.answerVote L args) := by
  have henter : (if rf.currentTerm < args.term then rf.becomeFollowerLocked args.term
      else some rf) = some (rf.enter args.term) := by
    unfold Raft.enter
    split
    · exact h.becomeFollowerLocked _
    · rfl
  simp only [Raft.requestVote, answerVote, h.lastLogTerm, h.lastLogIndex, Option.bind_eq_bind,
    Option.bind_some, henter, (h.enter args.term).persist_voteFor]
  split_ifs <;> rfl

theorem Holds.requestVote {rf : Raft n C} {L : List (LogEntry C)} (h : Holds rf L)
    (args : RequestVoteArgs n) :
    ∃ rf' reply, rf.requestVote args = some (rf', reply) ∧
      ((rf.dead ∨ args.term < rf.currentTerm) ∧ rf' = rf ∧ reply.voteGranted = false ∨
        rf.dead = false ∧ rf.currentTerm ≤ args.term ∧ rf' = rf.enter args.term ∧
          reply.voteGranted = false ∨
        rf.dead = false ∧ rf.currentTerm ≤ args.term ∧
          ((rf.enter args.term).votedFor = none ∨
            (rf.enter args.term).votedFor = some args.candidateId) ∧
          (lastTerm L < args.lastLogTerm ∨
            args.lastLogTerm = lastTerm L ∧ L.length ≤ args.lastLogIndex) ∧
          rf' = (rf.enter args.term).voteFor args.candidateId ∧ reply.voteGranted = true) := by
  refine ⟨(rf.answerVote L args).1, (rf.answerVote L args).2, h.requestVote_eq args, ?_⟩
  unfold answerVote
  by_cases hdead : rf.dead
  · exact Or.inl (by simp [hdead])
  by_cases hstale : args.term < rf.currentTerm
  · exact Or.inl (by simp [hdead, hstale])
  have hlive : rf.dead = false := by simpa using hdead
  simp only [if_neg hdead, if_neg hstale]
  split
  · rename_i hvote
    exact Or.inr (Or.inr ⟨hlive, by omega, hvote.1, hvote.2, rfl, rfl⟩)
  · exact Or.inr (Or.inl ⟨hlive, by omega, rfl, rfl⟩)

/-- The server after it stood for election. -/
def stand (rf : Raft n C) : Raft n C :=
  saved { rf with
    state := .candidate
    currentTerm := rf.currentTerm + 1
    votedFor := some rf.me }

theorem Holds.stand {rf : Raft n C} {L : List (LogEntry C)} (h : Holds rf L) :
    Holds rf.stand L := ⟨h.base_le, h.base_term, h.logs, h.encoded⟩

theorem Holds.startElection {rf : Raft n C} {L : List (LogEntry C)} (h : Holds rf L) :
    rf.startElection = some (if n / 2 + 1 ≤ 1 then (rf.stand.becomeLeaderLocked, none)
      else (rf.stand, some ⟨rf.currentTerm + 1, rf.me, L.length, lastTerm L⟩)) := by
  have hpersist : ({ rf with
      state := .candidate
      currentTerm := rf.currentTerm + 1
      votedFor := some rf.me } : Raft n C).persist = some rf.stand :=
    Holds.persist (L := L) ⟨h.base_le, h.base_term, h.logs, h.encoded⟩
  simp only [Raft.startElection, hpersist, Option.bind_eq_bind, Option.bind_some,
    h.stand.lastLogTerm, h.stand.lastLogIndex]
  split <;> rfl

theorem Holds.requestVoteReply {rf : Raft n C} {L : List (LogEntry C)} (h : Holds rf L)
    (term votes : ℕ) (reply : RequestVoteReply) :
    ∃ rf' votes', rf.requestVoteReply term votes reply = some (rf', votes') ∧
      (rf' = rf ∧ votes' = votes ∨
        rf.currentTerm < reply.term ∧ rf' = rf.follow reply.term ∧ votes' = votes ∨
        rf.state = .candidate ∧ rf.currentTerm = term ∧ reply.voteGranted = true ∧
          votes' = votes + 1 ∧
          (n / 2 + 1 ≤ votes + 1 ∧ rf' = rf.becomeLeaderLocked ∨
            votes + 1 < n / 2 + 1 ∧ rf' = rf)) := by
  simp only [Raft.requestVoteReply, h.becomeFollowerLocked, Option.bind_eq_bind,
    Option.bind_some]
  by_cases hdead : rf.dead
  · exact ⟨_, _, if_pos hdead, Or.inl ⟨rfl, rfl⟩⟩
  rw [if_neg hdead]
  by_cases hterm : rf.currentTerm < reply.term
  · exact ⟨_, _, if_pos hterm, Or.inr (Or.inl ⟨hterm, rfl, rfl⟩)⟩
  rw [if_neg hterm]
  by_cases hcand : rf.state ≠ .candidate ∨ rf.currentTerm ≠ term
  · exact ⟨_, _, if_pos hcand, Or.inl ⟨rfl, rfl⟩⟩
  rw [if_neg hcand]
  push Not at hcand
  by_cases hgranted : reply.voteGranted
  · rw [if_neg (not_not.mpr hgranted)]
    by_cases hwon : n / 2 + 1 ≤ votes + 1
    · exact ⟨_, _, if_pos hwon, Or.inr (Or.inr ⟨hcand.1, hcand.2, hgranted, rfl,
        Or.inl ⟨hwon, rfl⟩⟩)⟩
    · exact ⟨_, _, if_neg hwon, Or.inr (Or.inr ⟨hcand.1, hcand.2, hgranted, rfl,
        Or.inr ⟨by omega, rfl⟩⟩)⟩
  · exact ⟨_, _, if_pos hgranted, Or.inl ⟨rfl, rfl⟩⟩

/-! ### Entries from a leader -/

omit [Labgob C] in
theorem followCommit_eq (rf : Raft n C) (leaderCommit lastNewIndex : ℕ) :
    rf.followCommit leaderCommit lastNewIndex =
      { rf with commitIndex := max rf.commitIndex (min leaderCommit lastNewIndex) } := by
  have hkeep : ∀ c, rf.commitIndex = c → rf = { rf with commitIndex := c } := by
    rintro c rfl
    rfl
  have hmin : (if lastNewIndex < leaderCommit then lastNewIndex else leaderCommit) =
      min leaderCommit lastNewIndex := by
    split <;> omega
  simp only [followCommit, hmin]
  split_ifs with hlt hnew
  · rw [max_eq_right hnew.le]
  · exact hkeep _ (by omega)
  · exact hkeep _ (by omega)

/-- The server after it took over `L` as its log on a request of `term`. -/
def adoptLog (rf : Raft n C) (term : ℕ) (L : List (LogEntry C)) : Raft n C :=
  ((rf.follow term).withLog L).saved

omit [Labgob C] in
theorem Holds.conflictStart_eq [Labgob C] {rf : Raft n C} {L : List (LogEntry C)} (h : Holds rf L)
    (t : ℕ) {k : ℕ} (hk : k ≤ L.length) :
    rf.conflictStart t k = runStart L rf.lastIncludedIndex t k := by
  induction k with
  | zero => rfl
  | succ k ih =>
      rw [Raft.conflictStart, runStart, firstLogIndexLocked]
      by_cases hbase : rf.lastIncludedIndex < k + 1
      · rw [h.termAtLocked_some (by omega) (by omega), ih (by omega)]
        simp only [Option.some.injEq]
      · rw [if_neg (by simp [hbase]), if_neg (by simp [hbase])]

/-- The server and the answer after a request, in terms of the log `L` that the
server holds; `changed` is what the merge loop reports. -/
def answerEntries (rf : Raft n C) (L : List (LogEntry C)) (changed : Bool)
    (args : AppendEntriesArgs n C) : Raft n C × AppendEntriesReply :=
  if rf.dead then (rf, ⟨rf.currentTerm, false, true, none, 0⟩)
  else if args.term < rf.currentTerm then (rf, ⟨rf.currentTerm, false, false, none, 0⟩)
  else if L.length < args.prevLogIndex then
    (rf.follow args.term, ⟨args.term, false, false, none, L.length + 1⟩)
  else if args.prevLogIndex < rf.lastIncludedIndex then
    (rf.follow args.term, ⟨args.term, false, false, none, rf.lastIncludedIndex + 1⟩)
  else if termAt L args.prevLogIndex ≠ args.prevLogTerm then
    (rf.follow args.term, ⟨args.term, false, false, some (termAt L args.prevLogIndex),
      runStart L rf.lastIncludedIndex (termAt L args.prevLogIndex) args.prevLogIndex⟩)
  else
    ((if changed then rf.adoptLog args.term (splice L args.prevLogIndex args.entries)
      else rf.follow args.term).followCommit args.leaderCommit
        (args.prevLogIndex + args.entries.length), ⟨args.term, true, false, none, 0⟩)

theorem Holds.appendEntries_eq {rf : Raft n C} {L : List (LogEntry C)} (h : Holds rf L)
    (args : AppendEntriesArgs n C) :
    ∃ changed, (changed = false → splice L args.prevLogIndex args.entries = L) ∧
      rf.appendEntries args = some (rf.answerEntries L changed args) := by
  have hf := h.follow args.term
  simp only [Raft.appendEntries, answerEntries, hf.lastLogIndex, firstLogIndexLocked,
    follow_lastIncludedIndex, h.becomeFollowerLocked, Option.bind_eq_bind, Option.bind_some,
    follow_currentTerm]
  by_cases hdead : rf.dead
  · exact ⟨true, by simp, by simp [hdead]⟩
  by_cases hstale : args.term < rf.currentTerm
  · exact ⟨true, by simp, by simp [hdead, hstale]⟩
  have hterm : max rf.currentTerm args.term = args.term := by omega
  simp only [if_neg hstale, hterm, show rf.dead = false by simpa using hdead, Bool.false_eq_true,
    if_false]
  by_cases hlong : L.length < args.prevLogIndex
  · exact ⟨true, by simp, by simp [hlong]⟩
  by_cases hcut : args.prevLogIndex < rf.lastIncludedIndex
  · exact ⟨true, by simp, by simp [hlong, hcut]⟩
  have hprev : (rf.follow args.term).termAtLocked args.prevLogIndex =
      some (termAt L args.prevLogIndex) := by
    refine hf.termAtLocked_some ?_ (by omega)
    rw [follow_lastIncludedIndex]
    omega
  simp only [if_neg hlong, if_neg hcut, hprev]
  by_cases hmatch : termAt L args.prevLogIndex = args.prevLogTerm
  · -- the log is consistent up to the request, so the entries are merged
    obtain ⟨changed, hmerge, hsame⟩ := hf.mergeEntries args.entries args.prevLogIndex
      (by rw [follow_lastIncludedIndex]; omega) (by omega)
    refine ⟨changed, hsame, ?_⟩
    have hsave : ((rf.follow args.term).withLog
        (splice L args.prevLogIndex args.entries)).persist =
          some (rf.adoptLog args.term (splice L args.prevLogIndex args.entries)) := by
      rw [Raft.persist, if_pos (by simp [Raft.withLog, replaceLogs, rebuildEncodedLogs])]
      rfl
    simp only [ne_eq, hmatch, not_true_eq_false, if_false, hmerge, Option.bind_some]
    cases changed with
    | true => simp only [if_true, hsave, Option.bind_some]
    | false =>
        simp only [Bool.false_eq_true, if_false, Option.bind_some, hsame rfl, hf.withLog_self]
  · refine ⟨true, by simp, ?_⟩
    rw [if_pos hmatch, if_pos hmatch, hf.conflictStart_eq _ (by omega), follow_lastIncludedIndex]

theorem Holds.appendEntries {rf : Raft n C} {L : List (LogEntry C)} (h : Holds rf L)
    (args : AppendEntriesArgs n C) :
    ∃ rf' reply, rf.appendEntries args = some (rf', reply) ∧
      ((rf.dead ∨ args.term < rf.currentTerm) ∧ rf' = rf ∧ reply.success = false ∨
        rf.dead = false ∧ rf.currentTerm ≤ args.term ∧ rf' = rf.follow args.term ∧
          reply.success = false ∨
        rf.dead = false ∧ rf.currentTerm ≤ args.term ∧
          rf.lastIncludedIndex ≤ args.prevLogIndex ∧ args.prevLogIndex ≤ L.length ∧
          termAt L args.prevLogIndex = args.prevLogTerm ∧ reply.success = true ∧
          ∃ rf₁, rf' = rf₁.followCommit args.leaderCommit
              (args.prevLogIndex + args.entries.length) ∧
            (rf₁ = rf.adoptLog args.term (splice L args.prevLogIndex args.entries) ∨
              splice L args.prevLogIndex args.entries = L ∧ rf₁ = rf.follow args.term)) := by
  obtain ⟨changed, hchanged, hrun⟩ := h.appendEntries_eq args
  refine ⟨(rf.answerEntries L changed args).1, (rf.answerEntries L changed args).2, hrun, ?_⟩
  unfold answerEntries
  by_cases hdead : rf.dead
  · exact Or.inl (by simp [hdead])
  by_cases hstale : args.term < rf.currentTerm
  · exact Or.inl (by simp [hdead, hstale])
  have hlive : rf.dead = false := by simpa using hdead
  simp only [if_neg hdead, if_neg hstale]
  by_cases hlong : L.length < args.prevLogIndex
  · exact Or.inr (Or.inl (by simp [hlong, hlive]; omega))
  by_cases hcut : args.prevLogIndex < rf.lastIncludedIndex
  · exact Or.inr (Or.inl (by simp [hlong, hcut, hlive]; omega))
  simp only [if_neg hlong, if_neg hcut]
  by_cases hmatch : termAt L args.prevLogIndex = args.prevLogTerm
  · refine Or.inr (Or.inr ⟨hlive, by omega, by omega, by omega, hmatch, ?_⟩)
    rw [if_neg (not_not.mpr hmatch)]
    refine ⟨rfl, _, rfl, ?_⟩
    cases changed with
    | true => exact Or.inl rfl
    | false => exact Or.inr ⟨hchanged rfl, rfl⟩
  · exact Or.inr (Or.inl (by simp [hmatch, hlive]; omega))

/-! ### Snapshots -/

/-- The server with its log `L` folded up to `index` into `data`. -/
def fold (rf : Raft n C) (L : List (LogEntry C)) (index : ℕ) (data : Bytes) : Raft n C :=
  saved { rf with
    lastIncludedIndex := index
    lastIncludedTerm := termAt L index
    logs := compacted L index
    encodedLogs := (compacted L index).map Labgob.encodeLogEntry
    snapshot := data }

theorem holds_fold {rf : Raft n C} {L : List (LogEntry C)} {index : ℕ} (hi : index ≤ L.length)
    (data : Bytes) : Holds (rf.fold L index data) L := ⟨hi, rfl, rfl, rfl⟩

theorem Holds.takeSnapshot_eq {rf : Raft n C} {L : List (LogEntry C)} (h : Holds rf L)
    (index : ℕ) (data : Bytes) :
    rf.takeSnapshot index data = some (if rf.dead = false ∧ rf.lastIncludedIndex < index ∧
      index ≤ rf.lastApplied ∧ index ≤ L.length then rf.fold L index data else rf) := by
  unfold Raft.takeSnapshot
  by_cases hdead : rf.dead
  · simp [hdead]
  rw [if_neg hdead]
  by_cases hold : index ≤ rf.lastIncludedIndex
  · rw [if_pos hold, if_neg (by omega)]
  rw [if_neg hold, h.lastLogIndex]
  by_cases hnew : rf.lastApplied < index ∨ L.length < index
  · rw [if_pos hnew, if_neg (by omega)]
  rw [if_neg hnew]
  push Not at hold hnew
  have hadd : rf.lastIncludedIndex + (index - rf.lastIncludedIndex) = index := by omega
  have hterm : rf.logs[index - rf.lastIncludedIndex]?.map LogEntry.term =
      some (termAt L index) := by
    rw [h.logs, compacted_term (by omega), hadd]
  have htail : sliceFrom rf.logs (index - rf.lastIncludedIndex + 1) = some (L.drop index) := by
    rw [sliceFrom, if_pos (by rw [h.length_logs]; omega), h.logs, compacted_drop, hadd]
  rw [if_pos ⟨by simpa using hdead, hold, hnew⟩]
  simp only [hterm, htail, Option.bind_eq_bind, Option.bind_some, replaceLogs,
    rebuildEncodedLogs, Raft.persist, List.length_map, if_true]
  rfl

theorem Holds.takeSnapshot {rf : Raft n C} {L : List (LogEntry C)} (h : Holds rf L)
    (index : ℕ) (data : Bytes) :
    ∃ rf', rf.takeSnapshot index data = some rf' ∧
      (rf' = rf ∨ rf.dead = false ∧ rf.lastIncludedIndex < index ∧ index ≤ rf.lastApplied ∧
        index ≤ L.length ∧ rf' = rf.fold L index data) := by
  refine ⟨_, h.takeSnapshot_eq index data, ?_⟩
  split
  · rename_i htaken
    obtain ⟨hlive, hold, happlied, hlength⟩ := htaken
    exact Or.inr ⟨hlive, hold, happlied, hlength, rfl⟩
  · exact Or.inl rfl

/-- The server after it installed the snapshot of `args`, its log now `L`. -/
def install (rf : Raft n C) (L : List (LogEntry C)) (args : InstallSnapshotArgs n) : Raft n C :=
  { fold { rf.follow args.term with
      commitIndex := args.lastIncludedIndex
      lastApplied := args.lastIncludedIndex } L args.lastIncludedIndex args.data with
    pendingSnapshot := some ⟨args.data, args.lastIncludedTerm, args.lastIncludedIndex⟩ }

/-- `InstallSnapshot`, when the snapshot stands for the entries `P`: the
log becomes `P`, or stays as it is if it has the boundary entry. -/
theorem Holds.installSnapshot {rf : Raft n C} {L : List (LogEntry C)} (h : Holds rf L)
    (hcommit : rf.lastIncludedIndex ≤ rf.commitIndex) (args : InstallSnapshotArgs n)
    {P : List (LogEntry C)} (hP : P.length = args.lastIncludedIndex)
    (hPterm : termAt P args.lastIncludedIndex = args.lastIncludedTerm) :
    ∃ rf' reply, rf.installSnapshot args = some (rf', reply) ∧
      (rf.dead ∧ rf' = rf ∧ reply.stopped = true ∨
        rf.dead = false ∧ args.term < rf.currentTerm ∧ rf' = rf ∧ args.term < reply.term ∨
        rf.dead = false ∧ rf.currentTerm ≤ args.term ∧
          args.lastIncludedIndex ≤ rf.commitIndex ∧ rf' = rf.follow args.term ∨
        rf.dead = false ∧ rf.currentTerm ≤ args.term ∧
          rf.commitIndex < args.lastIncludedIndex ∧
          rf' = rf.install (if args.lastIncludedIndex ≤ L.length ∧
            termAt L args.lastIncludedIndex = args.lastIncludedTerm then L else P) args) := by
  have hf := h.follow args.term
  simp only [Raft.installSnapshot, h.becomeFollowerLocked, Option.bind_eq_bind, Option.bind_some]
  by_cases hdead : rf.dead
  · exact ⟨_, _, if_pos hdead, Or.inl ⟨hdead, rfl, rfl⟩⟩
  rw [if_neg hdead]
  have hlive : rf.dead = false := by simpa using hdead
  by_cases hstale : args.term < rf.currentTerm
  · exact ⟨_, _, if_pos hstale, Or.inr (Or.inl ⟨hlive, hstale, rfl, hstale⟩)⟩
  rw [if_neg hstale, follow_commitIndex]
  have hle : rf.currentTerm ≤ args.term := by omega
  by_cases hold : args.lastIncludedIndex ≤ rf.commitIndex
  · exact ⟨_, _, if_pos hold, Or.inr (Or.inr (Or.inl ⟨hlive, hle, hold, rfl⟩))⟩
  rw [if_neg hold]
  have hbase : rf.lastIncludedIndex ≤ args.lastIncludedIndex := by omega
  have hterm : (rf.follow args.term).termAtLocked args.lastIncludedIndex =
      if args.lastIncludedIndex ≤ L.length then some (termAt L args.lastIncludedIndex)
      else none := by
    rw [hf.termAtLocked, follow_lastIncludedIndex]
    simp only [hbase, true_and]
  -- both ways the new log is the stored form of a log with the right boundary
  have hlogs : ∃ suffix, (rf.follow args.term).snapshotSuffix args = some suffix ∧
      (⟨args.lastIncludedTerm, none⟩ : LogEntry C) :: suffix =
        compacted (if args.lastIncludedIndex ≤ L.length ∧
          termAt L args.lastIncludedIndex = args.lastIncludedTerm then L else P)
          args.lastIncludedIndex := by
    by_cases hkeep : args.lastIncludedIndex ≤ L.length ∧
        termAt L args.lastIncludedIndex = args.lastIncludedTerm
    · refine ⟨L.drop args.lastIncludedIndex, ?_, ?_⟩
      · have hadd : rf.lastIncludedIndex + (args.lastIncludedIndex - rf.lastIncludedIndex) =
            args.lastIncludedIndex := by omega
        rw [snapshotSuffix, hterm, if_pos hkeep.1, hkeep.2, if_pos rfl, toOffsetLocked,
          follow_lastIncludedIndex, if_pos hbase]
        simp only [Option.bind_eq_bind, Option.bind_some, follow_logs]
        rw [sliceFrom, if_pos (by rw [h.length_logs]; omega), h.logs, compacted_drop, hadd]
      · rw [if_pos hkeep, compacted, hkeep.2]
    · refine ⟨[], ?_, ?_⟩
      · rw [snapshotSuffix, if_neg]
        rw [hterm]
        split
        · rename_i hlen
          exact fun heq => hkeep ⟨hlen, Option.some.inj heq⟩
        · simp
      · rw [if_neg hkeep, compacted, hPterm, ← hP, List.drop_length]
  have hboundary : args.lastIncludedTerm =
      termAt (if args.lastIncludedIndex ≤ L.length ∧
        termAt L args.lastIncludedIndex = args.lastIncludedTerm then L else P)
        args.lastIncludedIndex := by
    split
    · rename_i hkeep; exact hkeep.2.symm
    · exact hPterm.symm
  obtain ⟨suffix, hsuffix, hnew⟩ := hlogs
  simp only [hsuffix, Option.bind_some, hnew, replaceLogs, rebuildEncodedLogs, Raft.persist,
    List.length_map, if_true]
  refine ⟨_, _, rfl, Or.inr (Or.inr (Or.inr ⟨hlive, hle, by omega, ?_⟩))⟩
  simp only [install, fold, Raft.saved, raftState, ← hboundary]

/-! ### Leading -/

/-- The loop of `advanceCommitIndexLocked` finds an entry of the current
term that a majority holds, or leaves the server as it is. -/
theorem Holds.advanceFrom {rf : Raft n C} {L : List (LogEntry C)} (h : Holds rf L)
    (hcommit : rf.lastIncludedIndex ≤ rf.commitIndex) (k : ℕ) (hk : k ≤ L.length) :
    rf.advanceFrom k = rf ∨
      ∃ N, rf.commitIndex < N ∧ N ≤ L.length ∧ termAt L N = rf.currentTerm ∧
        n / 2 + 1 ≤ rf.replicated N ∧ rf.advanceFrom k = { rf with commitIndex := N } := by
  induction k with
  | zero => exact Or.inl rfl
  | succ k ih =>
      rw [Raft.advanceFrom]
      by_cases hlt : rf.commitIndex < k + 1
      · rw [if_pos hlt, h.termAtLocked_some (by omega) hk]
        by_cases hfound : some (termAt L (k + 1)) = some rf.currentTerm ∧
            n / 2 + 1 ≤ rf.replicated (k + 1)
        · rw [if_pos hfound]
          exact Or.inr ⟨k + 1, hlt, hk, Option.some.inj hfound.1, hfound.2, rfl⟩
        · rw [if_neg hfound]
          exact ih (by omega)
      · rw [if_neg hlt]
        exact Or.inl rfl

theorem Holds.advanceCommitIndexLocked {rf : Raft n C} {L : List (LogEntry C)} (h : Holds rf L)
    (hcommit : rf.lastIncludedIndex ≤ rf.commitIndex) :
    rf.advanceCommitIndexLocked = rf ∨
      ∃ N, rf.state = .leader ∧ rf.commitIndex < N ∧ N ≤ L.length ∧
        termAt L N = rf.currentTerm ∧ n / 2 + 1 ≤ rf.replicated N ∧
        rf.advanceCommitIndexLocked = { rf with commitIndex := N } := by
  unfold Raft.advanceCommitIndexLocked
  by_cases hlead : rf.state = .leader
  · rw [if_neg (not_not.mpr hlead)]
    rcases h.advanceFrom hcommit _ h.lastLogIndex.le with hsame | ⟨N, hN⟩
    · exact Or.inl hsame
    · exact Or.inr ⟨N, hlead, hN⟩
  · exact Or.inl (if_pos hlead)

/-- The leader after it added a command to its log `L`. -/
def appended (rf : Raft n C) (L : List (LogEntry C)) (command : C) : Raft n C :=
  { (rf.withLog (L ++ [⟨rf.currentTerm, some command⟩])).saved with
    matchIndex := Function.update rf.matchIndex rf.me (L.length + 1)
    nextIndex := Function.update rf.nextIndex rf.me (L.length + 2) }

theorem Holds.appended {rf : Raft n C} {L : List (LogEntry C)} (h : Holds rf L) (command : C) :
    Holds (rf.appended L command) (L ++ [⟨rf.currentTerm, some command⟩]) := by
  have hnew : Holds (rf.withLog (L ++ [⟨rf.currentTerm, some command⟩])) _ := h.withLog
    (by simp; exact h.base_le.trans (Nat.le_succ _)) (List.take_append_of_le_length h.base_le)
  exact ⟨hnew.base_le, hnew.base_term, hnew.logs, hnew.encoded⟩

theorem Holds.start {rf : Raft n C} {L : List (LogEntry C)} (h : Holds rf L) (command : C) :
    rf.start command = some (if rf.dead = true ∨ rf.state ≠ .leader
      then (rf, none, rf.currentTerm, false)
      else (if n = 1 then (rf.appended L command).advanceCommitIndexLocked
        else rf.appended L command, some (L.length + 1), rf.currentTerm, true)) := by
  unfold Raft.start
  by_cases hlead : rf.dead = true ∨ rf.state ≠ .leader
  · simp only [if_pos hlead]
  · have hsave : (rf.withLog (L ++ [⟨rf.currentTerm, some command⟩])).persist =
        some (rf.withLog (L ++ [⟨rf.currentTerm, some command⟩])).saved := by
      rw [Raft.persist, if_pos (by simp [Raft.withLog, replaceLogs, rebuildEncodedLogs])]
    simp only [if_neg hlead, h.appendLogs, hsave, Option.bind_eq_bind, Option.bind_some,
      h.lastLogIndex]
    rfl

/-! ### Replication -/

theorem Holds.replicationRequest_eq {rf : Raft n C} {L : List (LogEntry C)} (h : Holds rf L)
    (peer : Fin n) :
    rf.replicationRequest peer = some (
      if rf.dead = true ∨ rf.state ≠ .leader then none
      else if rf.nextIndex peer ≤ rf.lastIncludedIndex then
        some (.installSnapshot ⟨rf.currentTerm, rf.me, rf.lastIncludedIndex, rf.lastIncludedTerm,
          rf.snapshot⟩)
      else if rf.nextIndex peer - 1 ≤ L.length then
        some (.appendEntries ⟨rf.currentTerm, rf.me, rf.nextIndex peer - 1,
          termAt L (rf.nextIndex peer - 1), L.drop (rf.nextIndex peer - 1), rf.commitIndex⟩)
      else none) := by
  unfold Raft.replicationRequest
  by_cases hlead : rf.dead = true ∨ rf.state ≠ .leader
  · rw [if_pos hlead, if_pos hlead]
  rw [if_neg hlead, if_neg hlead]
  by_cases hold : rf.nextIndex peer ≤ rf.lastIncludedIndex
  · rw [if_pos hold, if_pos hold]
  rw [if_neg hold, if_neg hold]
  obtain ⟨prev, hprev⟩ : ∃ prev, rf.nextIndex peer = prev + 1 :=
    ⟨rf.nextIndex peer - 1, by omega⟩
  rw [hprev, Nat.add_sub_cancel, h.termAtLocked]
  by_cases hin : prev ≤ L.length
  · have hadd : rf.lastIncludedIndex + (prev - rf.lastIncludedIndex) = prev := by omega
    have hoff : rf.toOffsetLocked (prev + 1) = some (prev - rf.lastIncludedIndex + 1) := by
      rw [toOffsetLocked, if_pos (by omega)]
      exact congrArg some (by omega)
    have hslice : sliceFrom rf.logs (prev - rf.lastIncludedIndex + 1) = some (L.drop prev) := by
      rw [sliceFrom, if_pos (by rw [h.length_logs]; omega), h.logs, compacted_drop, hadd]
    simp only [if_pos (show rf.lastIncludedIndex ≤ prev ∧ prev ≤ L.length by omega), hoff, hslice,
      Option.bind_eq_bind, Option.bind_some, if_pos hin]
  · simp only [if_neg (fun hboth : rf.lastIncludedIndex ≤ prev ∧ prev ≤ L.length => hin hboth.2),
      if_neg hin]

theorem Holds.replicationRequest {rf : Raft n C} {L : List (LogEntry C)} (h : Holds rf L)
    (peer : Fin n) :
    ∃ request, rf.replicationRequest peer = some request ∧
      (request = none ∨
        rf.state = .leader ∧ rf.nextIndex peer ≤ rf.lastIncludedIndex ∧
          request = some (.installSnapshot ⟨rf.currentTerm, rf.me, rf.lastIncludedIndex,
            rf.lastIncludedTerm, rf.snapshot⟩) ∨
        ∃ prev, rf.state = .leader ∧ rf.nextIndex peer = prev + 1 ∧
          rf.lastIncludedIndex ≤ prev ∧ prev ≤ L.length ∧
          request = some (.appendEntries ⟨rf.currentTerm, rf.me, prev, termAt L prev,
            L.drop prev, rf.commitIndex⟩)) := by
  refine ⟨_, h.replicationRequest_eq peer, ?_⟩
  split_ifs with hlead hold hin
  · exact Or.inl rfl
  · push Not at hlead
    exact Or.inr (Or.inl ⟨hlead.2, hold, rfl⟩)
  · push Not at hlead
    exact Or.inr (Or.inr ⟨rf.nextIndex peer - 1, hlead.2, by omega, by omega, hin, rfl⟩)
  · exact Or.inl rfl

theorem Holds.heartbeatRequest {rf : Raft n C} {L : List (LogEntry C)} (h : Holds rf L) :
    rf.heartbeatRequest = some (if rf.dead = true ∨ rf.state ≠ .leader then none
      else some ⟨rf.currentTerm, rf.me, L.length, termAt L L.length, [], rf.commitIndex⟩) := by
  unfold Raft.heartbeatRequest
  split
  · rfl
  · simp only [h.lastLogTerm, h.lastLogIndex, Option.bind_eq_bind, Option.bind_some, lastTerm]

theorem Holds.heartbeatReply {rf : Raft n C} {L : List (LogEntry C)} (h : Holds rf L)
    (reply : AppendEntriesReply) :
    ∃ rf', rf.heartbeatReply reply = some rf' ∧
      (rf' = rf ∨ rf.currentTerm < reply.term ∧ rf' = rf.follow reply.term) := by
  unfold Raft.heartbeatReply
  rw [h.becomeFollowerLocked]
  split_ifs with hdead hterm
  · exact ⟨_, rfl, Or.inl rfl⟩
  · exact ⟨_, rfl, Or.inr ⟨hterm, rfl⟩⟩
  · exact ⟨_, rfl, Or.inl rfl⟩

theorem Holds.installSnapshotReply {rf : Raft n C} {L : List (LogEntry C)} (h : Holds rf L)
    (peer : Fin n) (args : InstallSnapshotArgs n) (reply : InstallSnapshotReply) :
    ∃ rf', rf.installSnapshotReply peer args reply = some rf' ∧
      (rf' = rf ∨ rf.currentTerm < reply.term ∧ rf' = rf.follow reply.term ∨
        reply.stopped = false ∧ reply.term ≤ args.term ∧ rf.state = .leader ∧
          rf.currentTerm = args.term ∧ rf' = rf.progress peer args.lastIncludedIndex) := by
  unfold Raft.installSnapshotReply
  rw [h.becomeFollowerLocked]
  split_ifs with hdead hterm hlead
  · exact ⟨_, rfl, Or.inl rfl⟩
  · exact ⟨_, rfl, Or.inr (Or.inl ⟨hterm, rfl⟩)⟩
  · exact ⟨_, rfl, Or.inl rfl⟩
  · push Not at hdead hlead
    exact ⟨_, rfl, Or.inr (Or.inr ⟨by simpa using hdead.2, by omega, hlead.1, hlead.2, rfl⟩)⟩

theorem Holds.appendEntriesReply {rf : Raft n C} {L : List (LogEntry C)} (h : Holds rf L)
    (peer : Fin n) (args : AppendEntriesArgs n C) (reply : AppendEntriesReply) :
    ∃ rf', rf.appendEntriesReply peer args reply = some rf' ∧
      (rf' = rf ∨ rf.currentTerm < reply.term ∧ rf' = rf.follow reply.term ∨
        reply.success = true ∧ rf.state = .leader ∧ rf.currentTerm = args.term ∧
          (rf' = rf.progress peer (args.prevLogIndex + args.entries.length) ∨
            rf' = (rf.progress peer
              (args.prevLogIndex + args.entries.length)).advanceCommitIndexLocked) ∨
        reply.success = false ∧ rf.state = .leader ∧ rf.currentTerm = args.term ∧
          rf.nextIndex peer = args.prevLogIndex + 1 ∧
          rf' = { rf with nextIndex :=
            Function.update rf.nextIndex peer (rf.backOff peer reply) }) := by
  unfold Raft.appendEntriesReply
  rw [h.becomeFollowerLocked]
  split_ifs with hdead hterm hlead hsucc hnext
  · exact ⟨_, rfl, Or.inl rfl⟩
  · exact ⟨_, rfl, Or.inr (Or.inl ⟨hterm, rfl⟩)⟩
  · exact ⟨_, rfl, Or.inl rfl⟩
  · push Not at hlead
    refine ⟨_, rfl, Or.inr (Or.inr (Or.inl ⟨hsucc, hlead.1, hlead.2, ?_⟩))⟩
    split
    · exact Or.inr rfl
    · exact Or.inl rfl
  · exact ⟨_, rfl, Or.inl rfl⟩
  · push Not at hlead hnext
    exact ⟨_, rfl, Or.inr (Or.inr (Or.inr ⟨by simpa using hsucc, hlead.1, hlead.2, hnext, rfl⟩))⟩

/-! ### Applying -/

omit [Labgob C] in
/-- The messages for the entries of `L` from `start` to `stop`. -/
def commandsOf (L : List (LogEntry C)) (start stop : ℕ) : List (ApplyMsg C) :=
  (List.range' start (stop + 1 - start)).map fun index =>
    .command (L[index - 1]?.bind LogEntry.command) index

theorem Holds.commandMessages {rf : Raft n C} {L : List (LogEntry C)} (h : Holds rf L)
    {start stop : ℕ} (hstart : rf.lastIncludedIndex < start) (hstop : stop ≤ L.length)
    (hle : start ≤ stop + 1) :
    rf.commandMessages start stop = some (commandsOf L start stop) := by
  rw [Raft.commandMessages, if_neg (by omega)]
  have hentry : ∀ index ∈ List.range' start (stop + 1 - start),
      ((rf.entryAt index).map fun entry => ApplyMsg.command entry.command index) =
        some (.command (L[index - 1]?.bind LogEntry.command) index) := by
    intro index hindex
    rw [List.mem_range'_1] at hindex
    have hlt : index - 1 < L.length := by omega
    rw [h.entryAt (by omega), List.getElem?_eq_getElem hlt]
    rfl
  unfold commandsOf
  generalize List.range' start (stop + 1 - start) = indices at hentry ⊢
  induction indices with
  | nil => rfl
  | cons index indices ih =>
      rw [List.mapM_cons, hentry index (by simp), ih fun k hk => hentry k (by simp [hk])]
      rfl

theorem Holds.applierClaim {rf : Raft n C} {L : List (LogEntry C)} (h : Holds rf L)
    (hbase : rf.lastIncludedIndex ≤ rf.lastApplied) (hcommit : rf.commitIndex ≤ L.length)
    (hready : rf.applierReady) :
    ∃ rf' messages, rf.applierClaim = some (rf', messages) ∧
      ((∃ message, rf.pendingSnapshot = some message ∧ messages = [.snapshot message] ∧
          rf' = { rf with
            pendingSnapshot := none
            lastApplied := max rf.lastApplied message.snapshotIndex }) ∨
        rf.pendingSnapshot = none ∧ rf.lastApplied < rf.commitIndex ∧
          messages = commandsOf L (rf.lastApplied + 1) rf.commitIndex ∧
          rf' = { rf with lastApplied := rf.commitIndex }) := by
  unfold Raft.applierClaim
  cases hp : rf.pendingSnapshot with
  | some message => exact ⟨_, _, rfl, Or.inl ⟨message, rfl, rfl, rfl⟩⟩
  | none =>
      have hlt : rf.lastApplied < rf.commitIndex := by
        simpa [applierReady, hp] using (Bool.and_eq_true_iff.mp hready).2
      have hmax : max (rf.lastApplied + 1) (rf.lastIncludedIndex + 1) = rf.lastApplied + 1 := by
        omega
      have hmessages : rf.commandMessages (rf.lastApplied + 1) rf.commitIndex = some _ :=
        h.commandMessages (by omega) hcommit (by omega)
      simp only [hmax, hmessages, Option.bind_eq_bind, Option.bind_some]
      exact ⟨_, _, rfl, Or.inr ⟨trivial, hlt, rfl, rfl⟩⟩

end Raft

end RaftShardedKv
