import RaftShardedKv.Raft.Delivery

/-!
A server that has been killed.

Goroutines and handlers of a server may still run after `Kill`: requests that
have just arrived, replies to requests from before, timers, the applier. Each
of them takes the lock and looks at the flag before anything else, so that a
killed server is a constant, and what it answers is a refusal that no leader
takes for progress.

`EntryPoint` lists the critical sections of a server, with any arguments. In a
cluster these are the steps of one process, so a killed server stays as it is
until its process is replaced.
-/

namespace RaftShardedKv

open Consensus Transition

variable {n : ℕ} {C : Type}

/-! ### Entry points -/

variable [Labgob C]

/-- Where a server may be entered. `due` says whether the election deadline
has passed. -/
inductive EntryPoint (n : ℕ) (C : Type)
  | requestVote (args : RequestVoteArgs n)
  | appendEntries (args : AppendEntriesArgs n C)
  | installSnapshot (args : InstallSnapshotArgs n)
  | start (command : C)
  | snapshot (index : ℕ) (data : Bytes)
  | getState
  | startElection (due : Bool)
  | requestVoteReply (term votes : ℕ) (reply : RequestVoteReply)
  | replicate (peer : Fin n)
  | appendEntriesReply (peer : Fin n) (args : AppendEntriesArgs n C) (reply : AppendEntriesReply)
  | installSnapshotReply (peer : Fin n) (args : InstallSnapshotArgs n)
      (reply : InstallSnapshotReply)
  | heartbeat
  | heartbeatReply (reply : AppendEntriesReply)
  | applier
  | kill

/-- What comes out. -/
inductive Response (n : ℕ) (C : Type)
  | nothing
  | vote (reply : RequestVoteReply)
  | append (reply : AppendEntriesReply)
  | install (reply : InstallSnapshotReply)
  | start (index : Option ℕ) (term : ℕ) (isleader : Bool)
  | state (term : ℕ) (isleader : Bool)
  | election (args : Option (RequestVoteArgs n))
  | votes (votes : ℕ)
  | request (request : Option (Raft.ReplicationRequest n C))
  | beat (args : Option (AppendEntriesArgs n C))
  | messages (messages : List (ApplyMsg C))

namespace Raft

/-- The server after an entry point has run, and what came out. -/
def run (rf : Raft n C) : EntryPoint n C → Option (Raft n C × Response n C)
  | .requestVote args => (rf.requestVote args).map fun r => (r.1, .vote r.2)
  | .appendEntries args => (rf.appendEntries args).map fun r => (r.1, .append r.2)
  | .installSnapshot args => (rf.installSnapshot args).map fun r => (r.1, .install r.2)
  | .start command => (rf.start command).map fun r => (r.1, .start r.2.1 r.2.2.1 r.2.2.2)
  | .snapshot index data => (rf.takeSnapshot index data).map fun rf => (rf, .nothing)
  | .getState => some (rf, .state rf.getState.1 rf.getState.2)
  | .startElection due =>
      if rf.dead ∨ rf.state = .leader ∨ due = false then some (rf, .election none)
      else rf.startElection.map fun r => (r.1, .election r.2)
  | .requestVoteReply term votes reply =>
      (rf.requestVoteReply term votes reply).map fun r => (r.1, .votes r.2)
  | .replicate peer => (rf.replicationRequest peer).map fun request => (rf, .request request)
  | .appendEntriesReply peer args reply =>
      (rf.appendEntriesReply peer args reply).map fun rf => (rf, .nothing)
  | .installSnapshotReply peer args reply =>
      (rf.installSnapshotReply peer args reply).map fun rf => (rf, .nothing)
  | .heartbeat => rf.heartbeatRequest.map fun args => (rf, .beat args)
  | .heartbeatReply reply => (rf.heartbeatReply reply).map fun rf => (rf, .nothing)
  | .applier =>
      if rf.applierReady then rf.applierClaim.map fun r => (r.1, .messages r.2)
      else some (rf, .messages [])
  | .kill => some (rf.kill, .nothing)

def runAll (rf : Raft n C) : List (EntryPoint n C) → Option (Raft n C × List (Response n C))
  | [] => some (rf, [])
  | p :: points => do
      let (rf, response) ← rf.run p
      let (rf, responses) ← rf.runAll points
      some (rf, response :: responses)

end Raft

/-- Nothing is granted, acknowledged, promised or sent. -/
def Response.Refused : Response n C → Prop
  | .nothing => True
  | .vote reply => reply.voteGranted = false
  | .append reply => reply.success = false ∧ reply.stopped = true
  | .install reply => reply.stopped = true
  | .start index _ isleader => index = none ∧ isleader = false
  | .state _ isleader => isleader = false
  | .election args => args = none
  | .votes _ => True
  | .request r => r = none
  | .beat args => args = none
  | .messages ms => ms = []

/-- Another server takes a response in that was sent to it. -/
inductive TakesIn (rf : Raft n C) : Response n C → Raft n C → Prop
  | vote {term votes votes' : ℕ} {reply : RequestVoteReply} {rf' : Raft n C}
      (h : rf.requestVoteReply term votes reply = some (rf', votes')) : TakesIn rf (.vote reply) rf'
  | append {peer : Fin n} {args : AppendEntriesArgs n C} {reply : AppendEntriesReply}
      {rf' : Raft n C} (h : rf.appendEntriesReply peer args reply = some rf') :
      TakesIn rf (.append reply) rf'
  | heartbeat {reply : AppendEntriesReply} {rf' : Raft n C}
      (h : rf.heartbeatReply reply = some rf') : TakesIn rf (.append reply) rf'
  | install {peer : Fin n} {args : InstallSnapshotArgs n} {reply : InstallSnapshotReply}
      {rf' : Raft n C} (h : rf.installSnapshotReply peer args reply = some rf') :
      TakesIn rf (.install reply) rf'

/-! ### A killed server -/

namespace Raft

variable {rf rf' : Raft n C}

/-- **A killed server is a constant.** The one entry point that may panic is
the vote request, which looks at the end of the log before it looks at the
flag. -/
theorem run_dead (hdead : rf.dead = true) (p : EntryPoint n C) :
    (∀ r, rf.run p = some r → r.1 = rf ∧ r.2.Refused) ∧
      (rf.logs ≠ [] → ∃ response, rf.run p = some (rf, response)) := by
  -- all but the vote request have a value here
  have hvalue : ∀ response, rf.run p = some (rf, response) → response.Refused →
      (∀ r, rf.run p = some r → r.1 = rf ∧ r.2.Refused) ∧
        (rf.logs ≠ [] → ∃ response, rf.run p = some (rf, response)) := by
    intro response hrun hrefused
    refine ⟨fun r hr => ?_, fun _ => ⟨response, hrun⟩⟩
    obtain rfl := Option.some.inj (hrun.symm.trans hr)
    exact ⟨rfl, hrefused⟩
  cases p with
  | requestVote args =>
      have hrun : rf.run (.requestVote args) =
          rf.lastLogTermLocked.map fun _ => (rf, .vote ⟨rf.currentTerm, false⟩) := by
        cases hterm : rf.lastLogTermLocked <;> simp [run, requestVote, hterm, hdead]
      rw [hrun]
      refine ⟨fun r hr => ?_, fun hlogs => ?_⟩
      · obtain ⟨-, -, rfl⟩ := Option.map_eq_some_iff.mp hr
        exact ⟨rfl, rfl⟩
      · have hlt : rf.logs.length - 1 < rf.logs.length :=
          Nat.sub_lt (List.length_pos_iff.mpr hlogs) one_pos
        have hterm : rf.lastLogTermLocked = some rf.logs[rf.logs.length - 1].term := by
          rw [lastLogTermLocked, List.getElem?_eq_getElem hlt, Option.map_some]
        exact ⟨_, by rw [hterm, Option.map_some]⟩
  | appendEntries args =>
      exact hvalue (.append ⟨rf.currentTerm, false, rf.dead, none, 0⟩)
        (by simp [run, appendEntries, hdead]) ⟨rfl, hdead⟩
  | installSnapshot args =>
      exact hvalue (.install ⟨rf.currentTerm, true⟩) (by simp [run, installSnapshot, hdead]) rfl
  | start command =>
      exact hvalue (.start none rf.currentTerm false) (by simp [run, start, hdead]) ⟨rfl, rfl⟩
  | snapshot index data => exact hvalue .nothing (by simp [run, takeSnapshot, hdead]) trivial
  | getState =>
      exact hvalue (.state rf.currentTerm false) (by simp [run, getState, hdead]) rfl
  | startElection due => exact hvalue (.election none) (by simp [run, hdead]) rfl
  | requestVoteReply term votes reply =>
      exact hvalue (.votes votes) (by simp [run, requestVoteReply, hdead]) trivial
  | replicate peer => exact hvalue (.request none) (by simp [run, replicationRequest, hdead]) rfl
  | appendEntriesReply peer args reply =>
      exact hvalue .nothing (by simp [run, appendEntriesReply, hdead]) trivial
  | installSnapshotReply peer args reply =>
      exact hvalue .nothing (by simp [run, installSnapshotReply, hdead]) trivial
  | heartbeat => exact hvalue (.beat none) (by simp [run, heartbeatRequest, hdead]) rfl
  | heartbeatReply reply => exact hvalue .nothing (by simp [run, heartbeatReply, hdead]) trivial
  | applier => exact hvalue (.messages []) (by simp [run, applierReady, hdead]) rfl
  | kill => exact hvalue .nothing (by simp [run, kill, hdead]) trivial

theorem runAll_dead (hdead : rf.dead = true) (points : List (EntryPoint n C)) :
    (∀ r, rf.runAll points = some r → r.1 = rf ∧ ∀ response ∈ r.2, response.Refused) ∧
      (rf.logs ≠ [] → ∃ responses, rf.runAll points = some (rf, responses)) := by
  induction points with
  | nil =>
      refine ⟨fun r hr => ?_, fun _ => ⟨[], rfl⟩⟩
      cases hr
      exact ⟨rfl, fun response h => by cases h⟩
  | cons p points ih =>
      obtain ⟨hone, hreturns⟩ := run_dead hdead p
      refine ⟨fun r hr => ?_, fun hlogs => ?_⟩
      · obtain ⟨⟨rf₁, response⟩, hp, hr⟩ := Option.bind_eq_some_iff.mp hr
        obtain ⟨⟨rf₂, responses⟩, hpoints, hr⟩ := Option.bind_eq_some_iff.mp hr
        cases hr
        obtain ⟨rfl, hrefused⟩ := hone _ hp
        obtain ⟨rfl, hall⟩ := ih.1 _ hpoints
        exact ⟨rfl, List.forall_mem_cons.mpr ⟨hrefused, hall⟩⟩
      · obtain ⟨response, hp⟩ := hreturns hlogs
        obtain ⟨responses, hpoints⟩ := ih.2 hlogs
        exact ⟨response :: responses, by simp [runAll, hp, hpoints]⟩

omit [Labgob C] in
theorem indices_becomeFollowerLocked {term : ℕ} (h : rf.becomeFollowerLocked term = some rf') :
    rf'.matchIndex = rf.matchIndex ∧ rf'.nextIndex = rf.nextIndex := by
  obtain ⟨rf₁, hpersist, h⟩ := Option.bind_eq_some_iff.mp h
  cases h
  split at hpersist
  · unfold persist at hpersist
    split at hpersist
    · cases hpersist
      exact ⟨rfl, rfl⟩
    · cases hpersist
  · cases hpersist
    exact ⟨rfl, rfl⟩

omit [Labgob C] in
/-- A server that takes a refusal in may step down, but does not change what it
believes of its peers. -/
theorem indices_takesIn {response : Response n C} (hrefused : response.Refused)
    (h : TakesIn rf response rf') :
    rf'.matchIndex = rf.matchIndex ∧ rf'.nextIndex = rf.nextIndex := by
  cases h with
  | @vote term votes votes' reply rf' h =>
      have hno : ¬ reply.voteGranted = true := Bool.not_eq_true _ ▸ hrefused
      unfold requestVoteReply at h
      split_ifs at h
      · cases h
        exact ⟨rfl, rfl⟩
      · obtain ⟨rf₁, hfollow, h⟩ := Option.bind_eq_some_iff.mp h
        cases h
        exact indices_becomeFollowerLocked hfollow
      · cases h
        exact ⟨rfl, rfl⟩
      · cases h
        exact ⟨rfl, rfl⟩
  | append h =>
      rw [appendEntriesReply, if_pos (Or.inr hrefused.2)] at h
      cases h
      exact ⟨rfl, rfl⟩
  | heartbeat h =>
      unfold heartbeatReply at h
      split_ifs at h
      · cases h
        exact ⟨rfl, rfl⟩
      · exact indices_becomeFollowerLocked h
      · cases h
        exact ⟨rfl, rfl⟩
  | @install peer args reply rf' h =>
      have hstopped : reply.stopped = true := hrefused
      rw [installSnapshotReply, if_pos (Or.inr hstopped)] at h
      cases h
      exact ⟨rfl, rfl⟩

end Raft

/-! ### In a cluster -/

section

variable {s s' : System n C} {i : Fin n}

omit [Labgob C] in
theorem System.rf_update {j : Fin n} {p : Proc n C}
    (hprocs : s'.procs = Function.update s.procs j p) (hp : j = i → p.rf = s.rf i) :
    s'.rf i = s.rf i := by
  unfold System.rf
  rw [hprocs]
  rcases eq_or_ne i j with rfl | hne
  · rw [Function.update_self]
    exact hp rfl
  · rw [Function.update_of_ne hne]

theorem System.rf_run (hdead : (s.rf i).dead = true) {j : Fin n} (p : EntryPoint n C) {α : Type}
    {x : Option α} {r : α} {f : α → Raft n C × Response n C} (hrun : (s.rf j).run p = x.map f)
    (hr : x = some r) (hj : j = i) : (f r).1 = s.rf i := by
  subst hj
  rw [hr, Option.map_some] at hrun
  exact ((Raft.run_dead hdead p).1 _ hrun).1

theorem System.rf_deliver (hdead : (s.rf i).dead = true) {k : ℕ} {c : Call n C}
    (hs : s.deliver k c = some s') : s'.rf i = s.rf i := by
  obtain ⟨src, incarnation, dst, rpc⟩ := c
  cases rpc with
  | requestVote args reply =>
      cases reply with
      | none =>
          obtain ⟨r, hr, hs⟩ := Option.bind_eq_some_iff.mp hs
          cases hs
          exact rf_update rfl (rf_run hdead (.requestVote args) rfl hr)
      | some reply =>
          obtain ⟨r, hr, hs⟩ := Option.bind_eq_some_iff.mp hs
          cases hs
          exact rf_update (s.setVotes_procs src r.1 args.term r.2)
            (rf_run hdead (.requestVoteReply args.term ((s.procs src).votes args.term) reply)
              rfl hr)
  | appendEntries args reply =>
      cases reply with
      | none =>
          obtain ⟨r, hr, hs⟩ := Option.bind_eq_some_iff.mp hs
          cases hs
          exact rf_update rfl (rf_run hdead (.appendEntries args) rfl hr)
      | some reply =>
          obtain ⟨rf, hr, hs⟩ := Option.bind_eq_some_iff.mp hs
          cases hs
          exact rf_update rfl (rf_run hdead (.appendEntriesReply dst args reply) rfl hr)
  | heartbeat args reply =>
      cases reply with
      | none =>
          obtain ⟨r, hr, hs⟩ := Option.bind_eq_some_iff.mp hs
          cases hs
          exact rf_update rfl (rf_run hdead (.appendEntries args) rfl hr)
      | some reply =>
          obtain ⟨rf, hr, hs⟩ := Option.bind_eq_some_iff.mp hs
          cases hs
          exact rf_update rfl (rf_run hdead (.heartbeatReply reply) rfl hr)
  | installSnapshot args entries reply =>
      cases reply with
      | none =>
          obtain ⟨r, hr, hs⟩ := Option.bind_eq_some_iff.mp hs
          cases hs
          exact rf_update rfl (rf_run hdead (.installSnapshot args) rfl hr)
      | some reply =>
          obtain ⟨rf, hr, hs⟩ := Option.bind_eq_some_iff.mp hs
          cases hs
          exact rf_update rfl (rf_run hdead (.installSnapshotReply dst args reply) rfl hr)

omit [Labgob C] in
theorem Remade.rf_or {j : Fin n} (h : Remade s s' j) :
    s'.rf i = s.rf i ∨ (s.procs i).incarnation < (s'.procs i).incarnation := by
  rcases eq_or_ne i j with rfl | hne
  · right
    rw [h.fresh]
    exact Nat.lt_succ_self _
  · left
    unfold System.rf
    rw [h.other i hne]

/-- A step leaves a killed server as it is or replaces its process. -/
theorem System.step_dead (hdead : (s.rf i).dead = true) {a : Action n C} (hs : s.step a = some s') :
    s'.rf i = s.rf i ∨ (s.procs i).incarnation < (s'.procs i).incarnation := by
  cases a with
  | startElection j =>
      simp only [step] at hs
      split at hs
      · cases hs
      · rename_i hlive
        obtain ⟨⟨rf, args⟩, -, hs⟩ := Option.bind_eq_some_iff.mp hs
        have hj : j ≠ i := by
          rintro rfl
          exact hlive (Or.inl hdead)
        cases args <;> cases hs <;>
          exact Or.inl (rf_update (s.setVotes_procs _ _ _ _) fun heq => absurd heq hj)
  | start j command =>
      obtain ⟨⟨rf, index, term, ok⟩, hr, hs⟩ := Option.bind_eq_some_iff.mp hs
      have hrf : j = i → rf = s.rf i := rf_run hdead (.start command) rfl hr
      cases index <;> cases hs <;> exact Or.inl (rf_update rfl hrf)
  | snapshot j index data =>
      obtain ⟨rf, hr, hs⟩ := Option.bind_eq_some_iff.mp hs
      have hrf : j = i → rf = s.rf i := rf_run hdead (.snapshot index data) rfl hr
      dsimp only at hs
      split at hs <;> cases hs <;> exact Or.inl (rf_update rfl hrf)
  | replicate j peer =>
      simp only [step] at hs
      split at hs
      · cases hs
      · obtain ⟨request, -, hs⟩ := Option.bind_eq_some_iff.mp hs
        split at hs <;> cases hs <;> exact Or.inl rfl
  | heartbeat j peer =>
      simp only [step] at hs
      split at hs
      · cases hs
      · obtain ⟨request, -, hs⟩ := Option.bind_eq_some_iff.mp hs
        obtain ⟨args, -, hs⟩ := Option.bind_eq_some_iff.mp hs
        cases hs
        exact Or.inl rfl
  | deliver k =>
      obtain ⟨c, -, hs⟩ := Option.bind_eq_some_iff.mp hs
      split at hs
      · cases hs
      · exact Or.inl (rf_deliver hdead hs)
  | drop k =>
      simp only [step] at hs
      split at hs <;> cases hs
      exact Or.inl rfl
  | claim j =>
      simp only [step] at hs
      split at hs
      · rename_i hready
        obtain ⟨r, -, hs⟩ := Option.bind_eq_some_iff.mp hs
        cases hs
        have hj : j ≠ i := by
          rintro rfl
          simp [Raft.applierReady, hdead] at hready
        refine Or.inl (rf_update (j := j) (p := { s.procs j with rf := r.1, applying := r.2 }) ?_
          fun heq => absurd heq hj)
        simp [setRf, setRfFrom, setProc]
      · cases hs
  | send j =>
      simp only [step] at hs
      split at hs
      · cases hs
      · cases hs
        refine Or.inl (rf_update (j := j) rfl ?_)
        rintro rfl
        rfl
  | kill j =>
      cases hs
      have hrun : (s.rf j).run .kill = (some (s.rf j).kill).map fun rf => (rf, .nothing) := rfl
      exact Or.inl (rf_update rfl (rf_run hdead .kill hrun rfl))
  | restart j =>
      exact (Remade.restart (Or.inl rfl) hs).1.rf_or
  | crashDuring k =>
      obtain ⟨c, hk, -⟩ := Option.bind_eq_some_iff.mp hs
      exact (Remade.restart (Or.inr ⟨k, c, rfl, hk, rfl⟩) hs).1.rf_or

theorem System.incarnation_le {a : Action n C} (hs : s.step a = some s') :
    (s.procs i).incarnation ≤ (s'.procs i).incarnation := by
  have hremade : ∀ {j : Fin n}, Remade s s' j →
      (s.procs i).incarnation ≤ (s'.procs i).incarnation := by
    intro j h
    rcases eq_or_ne i j with rfl | hne
    · rw [h.fresh]
      exact Nat.le_succ _
    · rw [h.other i hne]
  cases Effect.of_step hs with
  | silent h => exact (h.incarnation i).ge
  | start _ h => exact (h.incarnation i).ge
  | snapshot h => exact (h.incarnation i).ge
  | @send j m rest s' happlying hprocs =>
      rw [hprocs]
      rcases eq_or_ne i j with rfl | hne
      · rw [Function.update_self]
      · rw [Function.update_of_ne hne]
  | restart h => exact hremade h
  | crash h => exact hremade h

theorem rf_star_dead (hs : (raftSys n C).Star s s') (hdead : (s.rf i).dead = true) :
    (s.procs i).incarnation ≤ (s'.procs i).incarnation ∧
      ((s'.procs i).incarnation = (s.procs i).incarnation → s'.rf i = s.rf i) := by
  induction hs with
  | refl => exact ⟨le_rfl, fun _ => rfl⟩
  | @tail s₁ s₂ _ hn ih =>
      obtain ⟨a, ha⟩ := hn
      have hle : (s₁.procs i).incarnation ≤ (s₂.procs i).incarnation := System.incarnation_le ha
      refine ⟨ih.1.trans hle, fun heq => ?_⟩
      have hsame := ih.2 (le_antisymm (heq ▸ hle) ih.1)
      rcases System.step_dead (hsame ▸ hdead) ha with hstep | hlt
      · rw [hstep, hsame]
      · exact absurd (hlt.trans_le heq.le) (not_lt.mpr ih.1)

end

/-! ### Inertness -/

/-- **A killed server is inert.** Whatever entry points of it run, with whatever arguments and in
whatever order, it stays as it is in all of its variables and its storage, every answer is a
refusal, no server that takes such an answer in changes an index, and none of the entry points
panics as long as the log has its dummy entry. In a cluster it stays as it is through every run
for as long as its process is not replaced. -/
theorem killed_inert {rf : Raft n C} (hdead : rf.dead = true) (points : List (EntryPoint n C)) :
    (∀ rf' responses, rf.runAll points = some (rf', responses) → rf' = rf ∧
      ∀ response ∈ responses, response.Refused ∧
        ∀ other other' : Raft n C, TakesIn other response other' →
          other'.matchIndex = other.matchIndex ∧ other'.nextIndex = other.nextIndex) ∧
    (rf.logs ≠ [] → ∃ responses, rf.runAll points = some (rf, responses)) ∧
    ∀ (s s' : System n C) (i : Fin n), s.rf i = rf → (raftSys n C).Star s s' →
      (s'.procs i).incarnation = (s.procs i).incarnation → s'.rf i = rf := by
  obtain ⟨hrefused, hreturns⟩ := Raft.runAll_dead hdead points
  refine ⟨fun rf' responses hrun => ?_, hreturns, fun s s' i hrf hs hlife => ?_⟩
  · obtain ⟨hsame, hall⟩ := hrefused _ hrun
    exact ⟨hsame, fun response hmem => ⟨hall response hmem, fun other other' htakes =>
      Raft.indices_takesIn (hall response hmem) htakes⟩⟩
  · subst hrf
    exact (rf_star_dead hs hdead).2 hlife

/-- The leader of `twoLeaders` is killed after three steps, and asked to vote, to follow and to
take a command. -/
theorem killed_inert_twoLeaders :
    ((twoLeadersRun.state 3).rf 0).kill.dead = true ∧ ∃ responses,
      ((twoLeadersRun.state 3).rf 0).kill.runAll [.requestVote ⟨99, 1, 9, 99⟩,
          .appendEntries ⟨99, 1, 0, 0, [⟨99, some true⟩], 1⟩, .start true] =
        some (((twoLeadersRun.state 3).rf 0).kill, responses) ∧
      ∀ response ∈ responses, response.Refused := by
  have hdead : ((twoLeadersRun.state 3).rf 0).kill.dead = true := by decide +kernel
  obtain ⟨hinert, hreturns, -⟩ := killed_inert hdead [.requestVote ⟨99, 1, 9, 99⟩,
    .appendEntries ⟨99, 1, 0, 0, [⟨99, some true⟩], 1⟩, .start true]
  obtain ⟨responses, hrun⟩ := hreturns (by decide +kernel)
  exact ⟨hdead, responses, hrun, fun response h => ((hinert _ _ hrun).2 response h).1⟩

end RaftShardedKv
