import RaftShardedKv.Raft.Safety

/-!
What a service sees of its server: the committed log, which only grows,
and a stream of messages without gaps.

The applier claims a batch of messages and sends them one by one, and a
snapshot may be installed between any two sends. `Stream` says how the
messages still to be sent, the snapshot still to be claimed and
`lastApplied` hang together; `Next` is what it means for the service.
-/

namespace RaftShardedKv

open TermLog Consensus Transition

variable {n : ℕ} {C : Type}

/-! ### The committed log -/

def System.consumed (s : System n C) (j : Fin n) : ℕ := (s.procs j).consumed

/-- What a step leaves in the records: the committed log may get longer,
and the services have got as far as `consumed`. -/
structure Recorded (s s' : System n C) (consumed : Fin n → ℕ) (started : List (ℕ × ℕ × C))
    (taken : List (Taken C)) : Prop where
  committed : s.committed.length ≤ s'.committed.length
  consumed : s'.consumed = consumed
  started : s'.started = started
  taken : s'.taken = taken

abbrev Unrecorded (s s' : System n C) (consumed : Fin n → ℕ) : Prop :=
  Recorded s s' consumed s.started s.taken

/-- The action starts server `i` again. -/
def Action.Restarts (a : Action n C) (s : System n C) (i : Fin n) : Prop :=
  a = .restart i ∨ ∃ k c, a = .crashDuring k ∧ s.net[k]? = some c ∧ c.dst = i

theorem length_le_longer {α : Type} (l l' : List α) : l.length ≤ (longer l l').length := by
  unfold longer
  split
  · rename_i hlt
    exact hlt.le
  · exact le_rfl

/-! ### What a step is to the services -/

/-- No process is replaced and no message sent. -/
structure Silent (s s' : System n C) : Prop where
  applied : s'.applied = s.applied
  incarnation : ∀ j, (s'.procs j).incarnation = (s.procs j).incarnation
  consumed : ∀ j, (s'.procs j).consumed = (s.procs j).consumed

theorem Silent.update {s s' : System n C} {i : Fin n} {p : Proc n C}
    (hprocs : s'.procs = Function.update s.procs i p) (happlied : s'.applied = s.applied)
    (hincarnation : p.incarnation = (s.procs i).incarnation)
    (hconsumed : p.consumed = (s.procs i).consumed) : Silent s s' := by
  refine ⟨happlied, fun j => ?_, fun j => ?_⟩
  all_goals
    rw [hprocs]
    rcases eq_or_ne j i with rfl | hj
    · rwa [Function.update_self]
    · rw [Function.update_of_ne hj]

theorem Silent.recorded {s s' : System n C} {started : List (ℕ × ℕ × C)} {taken : List (Taken C)}
    (h : Silent s s') (hcommitted : s.committed.length ≤ s'.committed.length)
    (hstarted : s'.started = started) (htaken : s'.taken = taken) :
    Recorded s s' s.consumed started taken :=
  ⟨hcommitted, funext h.consumed, hstarted, htaken⟩

/-- The process of server `i` is a new one, which has sent nothing. -/
structure Remade (s s' : System n C) (i : Fin n) : Prop where
  applied : s'.applied = s.applied
  fresh : s'.procs i = .fresh (s'.rf i) ((s.procs i).incarnation + 1)
  other : ∀ j, j ≠ i → s'.procs j = s.procs j

theorem Remade.consumed {s s' : System n C} {i : Fin n} (h : Remade s s' i) :
    s'.consumed = Function.update s.consumed i (s'.rf i).lastIncludedIndex := by
  funext j
  unfold System.consumed
  rcases eq_or_ne j i with rfl | hj
  · rw [Function.update_self, h.fresh]
    rfl
  · rw [Function.update_of_ne hj, h.other j hj]

variable [Labgob C]

theorem Remade.reboot {s s' : System n C} {i : Fin n} (hs : s.reboot i = some s') :
    Remade s s' i ∧ Unrecorded s s' (Function.update s.consumed i (s'.rf i).lastIncludedIndex) := by
  obtain ⟨rf, -, hs⟩ := Option.bind_eq_some_iff.mp hs
  cases hs
  have hmade : Remade s ((s.setRf i rf).setProc i (.fresh rf ((s.procs i).incarnation + 1))) i := by
    refine ⟨rfl, ?_, fun j hj => ?_⟩
    · simp [System.rf, System.setRf, System.setRfFrom, System.setProc, Proc.fresh]
    · simp [System.setRf, System.setRfFrom, System.setProc, hj]
  exact ⟨hmade, length_le_longer _ _, hmade.consumed, rfl, rfl⟩

theorem Remade.restart {s s' : System n C} {a : Action n C} {i : Fin n}
    (ha : a.Restarts s i) (hs : s.step a = some s') :
    Remade s s' i ∧ Unrecorded s s' (Function.update s.consumed i (s'.rf i).lastIncludedIndex) := by
  rcases ha with rfl | ⟨k, c, rfl, hk, rfl⟩
  · exact Remade.reboot hs
  · obtain ⟨c', hk', hs⟩ := Option.bind_eq_some_iff.mp hs
    obtain rfl : c = c' := Option.some.inj (hk.symm.trans hk')
    obtain ⟨term, -, hs⟩ := Option.bind_eq_some_iff.mp hs
    split at hs
    · cases hs
    · obtain ⟨rf, -, hs⟩ := Option.bind_eq_some_iff.mp hs
      obtain ⟨hboot, hrecord⟩ := Remade.reboot hs
      have hmade : Remade s s' c.dst := by
        refine ⟨hboot.applied, ?_, fun j hj => ?_⟩
        · simpa [System.close, System.setRf, System.setRfFrom] using hboot.fresh
        · simpa [System.close, System.setRf, System.setRfFrom, hj] using hboot.other j hj
      exact ⟨hmade, (length_le_longer _ _).trans hrecord.committed, hmade.consumed,
        hrecord.started, hrecord.taken⟩

theorem Unrecorded.send {s s' : System n C} {i : Fin n} {m : ApplyMsg C}
    {rest : List (ApplyMsg C)} (h : (s.procs i).applying = m :: rest)
    (hs : s.step (.send i) = some s') :
    Unrecorded s s' (Function.update s.consumed i m.index) := by
  simp only [System.step, h] at hs
  cases hs
  refine ⟨le_rfl, ?_, rfl, rfl⟩
  funext j
  unfold System.consumed System.setProc
  rcases eq_or_ne j i with rfl | hj
  · simp
  · simp [hj]

/-- What a step is to the services: nothing, a call of `Start` that is
accepted, a snapshot that is taken, a message, or a new start. -/
inductive Effect (s : System n C) : Action n C → System n C → Prop
  | silent {a : Action n C} {s' : System n C} (h : Silent s s')
      (hrecord : Unrecorded s s' s.consumed) : Effect s a s'
  | start {i : Fin n} {c : C} {rf : Raft n C} {index term : ℕ} {ok : Bool} {s' : System n C}
      (hrun : (s.rf i).start c = some (rf, some index, term, ok)) (h : Silent s s')
      (hrecord : Recorded s s' s.consumed ((term, index, c) :: s.started) s.taken) :
      Effect s (.start i c) s'
  | snapshot {i : Fin n} {index : ℕ} {data : Bytes} {s' : System n C} (h : Silent s s')
      (hrecord : Recorded s s' s.consumed s.started
        (⟨index, data, (s.entries i).take index⟩ :: s.taken)) :
      Effect s (.snapshot i index data) s'
  | send {i : Fin n} {m : ApplyMsg C} {rest : List (ApplyMsg C)} {s' : System n C}
      (happlying : (s.procs i).applying = m :: rest)
      (hprocs : s'.procs =
        Function.update s.procs i { s.procs i with applying := rest, consumed := m.index })
      (happlied : s'.applied = s.applied ++ [(i, (s.procs i).incarnation, m)])
      (hrecord : Unrecorded s s' (Function.update s.consumed i m.index)) : Effect s (.send i) s'
  | restart {i : Fin n} {s' : System n C} (h : Remade s s' i)
      (hrecord : Unrecorded s s' (Function.update s.consumed i (s'.rf i).lastIncludedIndex)) :
      Effect s (.restart i) s'
  | crash {k : ℕ} {i : Fin n} {s' : System n C} (h : Remade s s' i)
      (hrecord : Unrecorded s s' (Function.update s.consumed i (s'.rf i).lastIncludedIndex)) :
      Effect s (.crashDuring k) s'

theorem Effect.update {s s' : System n C} {a : Action n C} {i : Fin n} {p : Proc n C}
    (hprocs : s'.procs = Function.update s.procs i p)
    (hincarnation : p.incarnation = (s.procs i).incarnation)
    (hconsumed : p.consumed = (s.procs i).consumed)
    (hcommitted : s.committed.length ≤ s'.committed.length) (happlied : s'.applied = s.applied)
    (hstarted : s'.started = s.started) (htaken : s'.taken = s.taken) : Effect s a s' := by
  have hsilent : Silent s s' := .update hprocs happlied hincarnation hconsumed
  exact .silent hsilent (hsilent.recorded hcommitted hstarted htaken)

theorem Effect.network {s s' : System n C} {a : Action n C} (hprocs : s'.procs = s.procs)
    (hcommitted : s'.committed = s.committed) (happlied : s'.applied = s.applied)
    (hstarted : s'.started = s.started) (htaken : s'.taken = s.taken) : Effect s a s' := by
  have hsilent : Silent s s' := ⟨happlied, fun j => by rw [hprocs], fun j => by rw [hprocs]⟩
  exact .silent hsilent (hsilent.recorded (congrArg List.length hcommitted).ge hstarted htaken)

theorem Effect.deliver {s s' : System n C} {k : ℕ} {c : Call n C}
    (hs : s.deliver k c = some s') : Effect s (.deliver k) s' := by
  unfold System.deliver at hs
  split at hs
  case h_5 =>
    obtain ⟨out, -, hs⟩ := Option.bind_eq_some_iff.mp hs
    cases hs
    exact .update (s.setVotes_procs _ _ _ _) rfl rfl (length_le_longer _ _) rfl rfl rfl
  all_goals
    obtain ⟨out, -, hs⟩ := Option.bind_eq_some_iff.mp hs
    cases hs
    exact .update rfl rfl rfl (length_le_longer _ _) rfl rfl rfl

theorem Effect.of_step {s s' : System n C} {a : Action n C} (hs : s.step a = some s') :
    Effect s a s' := by
  cases a with
  | startElection i =>
      simp only [System.step] at hs
      split at hs
      · cases hs
      · obtain ⟨⟨rf, args⟩, -, hs⟩ := Option.bind_eq_some_iff.mp hs
        cases args <;> cases hs <;>
          exact .update (s.setVotes_procs _ _ _ _) rfl rfl (length_le_longer _ _) rfl rfl rfl
  | start i command =>
      obtain ⟨⟨rf, index, term, ok⟩, hrun, hs⟩ := Option.bind_eq_some_iff.mp hs
      cases index <;> cases hs
      · exact .update rfl rfl rfl (length_le_longer _ _) rfl rfl rfl
      · exact .start hrun (.update rfl rfl rfl rfl)
          (Silent.recorded (.update rfl rfl rfl rfl) (length_le_longer _ _) rfl rfl)
  | snapshot i index data =>
      obtain ⟨rf, -, hs⟩ := Option.bind_eq_some_iff.mp hs
      dsimp only at hs
      split at hs <;> cases hs
      · exact .update rfl rfl rfl (length_le_longer _ _) rfl rfl rfl
      · exact .snapshot (.update rfl rfl rfl rfl)
          (Silent.recorded (.update rfl rfl rfl rfl) (length_le_longer _ _) rfl rfl)
  | replicate i peer =>
      simp only [System.step] at hs
      split at hs
      · cases hs
      · obtain ⟨request, -, hs⟩ := Option.bind_eq_some_iff.mp hs
        split at hs <;> cases hs <;> exact .network rfl rfl rfl rfl rfl
  | heartbeat i peer =>
      simp only [System.step] at hs
      split at hs
      · cases hs
      · obtain ⟨request, -, hs⟩ := Option.bind_eq_some_iff.mp hs
        obtain ⟨args, -, hs⟩ := Option.bind_eq_some_iff.mp hs
        cases hs
        exact .network rfl rfl rfl rfl rfl
  | deliver k =>
      obtain ⟨c, -, hs⟩ := Option.bind_eq_some_iff.mp hs
      split at hs
      · cases hs
      · exact .deliver hs
  | drop k =>
      simp only [System.step] at hs
      split at hs <;> cases hs
      exact .network rfl rfl rfl rfl rfl
  | claim i =>
      simp only [System.step] at hs
      split at hs
      · obtain ⟨⟨rf, messages⟩, -, hs⟩ := Option.bind_eq_some_iff.mp hs
        cases hs
        refine .update (i := i) (p := { s.procs i with rf := rf, applying := messages })
          ?_ rfl rfl (length_le_longer _ _) rfl rfl rfl
        simp [System.setRf, System.setRfFrom, System.setProc]
      · cases hs
  | send i =>
      cases happlying : (s.procs i).applying with
      | nil =>
          simp only [System.step, happlying] at hs
          cases hs
      | cons m rest =>
          have hrecord := Unrecorded.send happlying hs
          simp only [System.step, happlying] at hs
          cases hs
          exact .send happlying rfl rfl hrecord
  | kill i =>
      cases hs
      exact .update rfl rfl rfl (length_le_longer _ _) rfl rfl rfl
  | restart i =>
      obtain ⟨hmade, hrecord⟩ := Remade.restart (Or.inl rfl) hs
      exact .restart hmade hrecord
  | crashDuring k =>
      obtain ⟨c, hk, -⟩ := Option.bind_eq_some_iff.mp hs
      obtain ⟨hmade, hrecord⟩ := Remade.restart (Or.inr ⟨k, c, rfl, hk, rfl⟩) hs
      exact .crash hmade hrecord

theorem Effect.committed {s s' : System n C} {a : Action n C} (h : Effect s a s') :
    s.committed.length ≤ s'.committed.length := by
  cases h with
  | silent _ hrecord => exact hrecord.committed
  | start _ _ hrecord => exact hrecord.committed
  | snapshot _ hrecord => exact hrecord.committed
  | send _ _ _ hrecord => exact hrecord.committed
  | restart _ hrecord => exact hrecord.committed
  | crash _ hrecord => exact hrecord.committed

/-- **The committed log only grows.** -/
theorem committed_step {s s' : System n C} {a : Action n C} (hs : (raftSys n C).Reachable s)
    (hstep : s.step a = some s') : s.committed <+: s'.committed := by
  obtain ⟨A, hA, h⟩ := exists_rel hs
  obtain ⟨A', hstar, h'⟩ := h.step hA hstep
  obtain ⟨u, hu⟩ := h.agreed.committed
  obtain ⟨u', hu'⟩ := h'.agreed.committed
  have hinv := Inv.reachable (hA.star hstar)
  rcases (committedPrefix_star hA hstar hu).comparable hu' hinv.election hinv.logs hinv.acks with
    hpre | hpre
  · exact hpre
  · rw [hpre.eq_of_length_le (Effect.of_step hstep).committed]

def System.operations (s : System n C) : List C := s.committed.filterMap LogEntry.command

/-- Every committed entry carries a command that `Start` accepted at its
term and index. -/
theorem committed_started {s : System n C} (hs : (raftSys n C).Reachable s) {k : ℕ}
    {e : LogEntry C} (he : s.committed[k]? = some e) :
    ∃ c, e.command = some c ∧ (e.term, k + 1, c) ∈ s.started := by
  obtain ⟨A, hA, h⟩ := exists_rel hs
  have hlogs := (Inv.reachable hA).logs
  obtain ⟨u, hu⟩ := h.agreed.committed
  have hlt := (List.getElem?_eq_some_iff.mp he).1
  rcases hu with hnil | ⟨T, N, -, -, hpre⟩
  · rw [hnil] at hlt
    simp at hlt
  -- the entry is where its own leader wrote it
  have hfollows := (hlogs.lead_follows T).of_initial (hpre.trans (List.take_prefix _ _))
  obtain ⟨R, hR⟩ := hfollows (k + 1) (Nat.le_add_left 1 k) hlt
  rw [termAt_of_getElem? he, LogEntry.termed] at hR
  refine h.agreed.started e.term k e ?_ rfl
  rw [← hR, List.getElem?_append_left (by simp; omega), List.getElem?_take_of_lt (by omega), he]

/-- No committed entry is without a command, so operations and committed
entries have the same places. -/
theorem map_operations {s : System n C} (hs : (raftSys n C).Reachable s) :
    s.operations.map some = s.committed.map LogEntry.command := by
  have hcommand : ∀ e ∈ s.committed, ∃ c, e.command = some c := by
    intro e he
    obtain ⟨k, hk⟩ := List.mem_iff_getElem?.mp he
    obtain ⟨c, hc, -⟩ := committed_started hs hk
    exact ⟨c, hc⟩
  unfold System.operations
  generalize s.committed = L at hcommand
  induction L with
  | nil => rfl
  | cons e L ih =>
      obtain ⟨c, hc⟩ := hcommand e List.mem_cons_self
      rw [List.filterMap_cons, hc, List.map_cons, List.map_cons, hc,
        ih fun e he => hcommand e (List.mem_cons_of_mem _ he)]

theorem length_operations {s : System n C} (hs : (raftSys n C).Reachable s) :
    s.operations.length = s.committed.length := by
  simpa using congrArg List.length (map_operations hs)

theorem getElem?_operations {s : System n C} (hs : (raftSys n C).Reachable s) {k : ℕ} {c : C} :
    s.operations[k]? = some c ↔ ∃ e, s.committed[k]? = some e ∧ e.command = some c := by
  have hk := congrArg (fun L => L[k]?) (map_operations hs)
  simp only [List.getElem?_map] at hk
  cases he : s.committed[k]? with
  | none =>
      have hlen : s.operations.length ≤ k := by simpa [he] using hk
      simp [List.getElem?_eq_none hlen]
  | some e =>
      rw [he] at hk
      cases hop : s.operations[k]? with
      | none => simp [hop] at hk
      | some c' =>
          rw [hop] at hk
          have hc' : some c' = e.command := Option.some.inj hk
          simp [← hc']

theorem operations_step {s s' : System n C} {a : Action n C} (hs : (raftSys n C).Reachable s)
    (hstep : s.step a = some s') : s.operations <+: s'.operations :=
  (committed_step hs hstep).filterMap _

theorem operation_started {s : System n C} (hs : (raftSys n C).Reachable s) {k : ℕ} {c : C}
    (hc : s.operations[k]? = some c) : ∃ T, (T, k + 1, c) ∈ s.started := by
  obtain ⟨e, he, hec⟩ := (getElem?_operations hs).mp hc
  obtain ⟨c', hc', hmem⟩ := committed_started hs he
  obtain rfl : c = c' := Option.some.inj (hec.symm.trans hc')
  exact ⟨e.term, hmem⟩

/-! ### The stream of messages -/

/-- What may follow when everything up to index `a` has been delivered. -/
def Next (a : ℕ) : ApplyMsg C → Prop
  | .command _ index => index = a + 1
  | .snapshot m => a < m.snapshotIndex

/-- The messages lead from index `a` to index `b`. -/
def Delivers (a : ℕ) : List (ApplyMsg C) → ℕ → Prop
  | [], b => a = b
  | m :: ms, b => Next a m ∧ Delivers m.index ms b

omit [Labgob C] in
theorem delivers_commandsOf (L : List (LogEntry C)) {a b : ℕ} (h : a ≤ b) :
    Delivers a (Raft.commandsOf L (a + 1) b) b := by
  obtain ⟨d, rfl⟩ := Nat.exists_eq_add_of_le h
  have hrange : ∀ d a : ℕ, Delivers a ((List.range' (a + 1) d).map fun index =>
      ApplyMsg.command (L[index - 1]?.bind LogEntry.command) index) (a + d) := by
    intro d
    induction d with
    | zero => exact fun _ => rfl
    | succ d ih =>
        intro a
        rw [List.range'_succ, List.map_cons, show a + (d + 1) = a + 1 + d by omega]
        exact ⟨rfl, ih (a + 1)⟩
  rw [Raft.commandsOf, show a + d + 1 - (a + 1) = d by omega]
  exact hrange d a

/-- The messages claimed lead to `lastApplied`, or to a point before the
snapshot that is still to be claimed. -/
def Stream (p : Proc n C) : Prop :=
  ∃ b, Delivers p.consumed p.applying b ∧
    match p.rf.pendingSnapshot with
    | none => b = p.rf.lastApplied
    | some m => b < m.snapshotIndex ∧ m.snapshotIndex = p.rf.lastApplied

/-- What a critical section does to the snapshot and to what is to be
delivered: nothing, or it folds the log, or it installs a snapshot. -/
theorem LocalStep.service {rf rf' : Raft n C} {L : List (LogEntry C)} (h : LocalStep rf L rf') :
    (rf'.lastApplied = rf.lastApplied ∧ rf'.pendingSnapshot = rf.pendingSnapshot) ∧
        (rf'.lastIncludedIndex = rf.lastIncludedIndex ∧ rf'.snapshot = rf.snapshot ∨
          0 < rf'.lastIncludedIndex) ∨
      ∃ m, rf'.pendingSnapshot = some m ∧ rf'.lastApplied = m.snapshotIndex ∧
        rf.commitIndex < m.snapshotIndex ∧ 0 < rf'.lastIncludedIndex := by
  have henter : ∀ t, ((rf.enter t).lastApplied = rf.lastApplied ∧
      (rf.enter t).pendingSnapshot = rf.pendingSnapshot) ∧
      (rf.enter t).lastIncludedIndex = rf.lastIncludedIndex ∧
      (rf.enter t).snapshot = rf.snapshot := by
    intro t
    unfold Raft.enter
    split <;> simp
  cases h with
  | follow t => simp
  | enter t => exact Or.inl ⟨(henter t).1, Or.inl (henter t).2⟩
  | vote t c => exact Or.inl ⟨(henter t).1, Or.inl (henter t).2⟩
  | merge t leaderCommit lastNewIndex L' =>
      rw [Raft.followCommit_eq]
      simp [Raft.adoptLog, Raft.saved, Raft.withLog, Raft.replaceLogs, Raft.rebuildEncodedLogs]
  | heard t leaderCommit lastNewIndex =>
      rw [Raft.followCommit_eq]
      simp
  | install L' args hlt =>
      have hpos : 0 < args.lastIncludedIndex := by omega
      exact Or.inr ⟨_, rfl, rfl, hlt, hpos⟩
  | appendAlone command =>
      obtain ⟨c, -, heq⟩ := (rf.appended L command).advance_eq
      rw [heq]
      exact Or.inl ⟨⟨rfl, rfl⟩, Or.inl ⟨rfl, rfl⟩⟩
  | fold index data hbase happlied =>
      have hpos : 0 < index := by omega
      exact Or.inl ⟨⟨rfl, rfl⟩, Or.inr hpos⟩
  | progressAdvance peer index hindex =>
      obtain ⟨c, -, heq⟩ := (rf.progress peer index).advance_eq
      rw [heq]
      exact Or.inl ⟨⟨rfl, rfl⟩, Or.inl ⟨rfl, rfl⟩⟩
  | kill =>
      unfold Raft.kill
      split <;> exact Or.inl ⟨⟨rfl, rfl⟩, Or.inl ⟨rfl, rfl⟩⟩
  | _ => exact Or.inl ⟨⟨rfl, rfl⟩, Or.inl ⟨rfl, rfl⟩⟩

theorem Stream.step {i : Fin n} {p p' : Proc n C} {L : List (LogEntry C)} (h : Stream p)
    (happlied : p.rf.lastApplied ≤ p.rf.commitIndex) (hstep : ProcStep i p L p') : Stream p' := by
  obtain ⟨b, hb, hrest⟩ := h
  cases hstep with
  | act rf votes hlocal =>
      refine ⟨b, hb, ?_⟩
      rcases hlocal.service with ⟨⟨hlast, hpending⟩, -⟩ | ⟨m, hpending, hlast, hlt, -⟩
      · show match rf.pendingSnapshot with | none => _ | some m => _
        rw [hpending, hlast]
        exact hrest
      · show match rf.pendingSnapshot with | none => _ | some m => _
        rw [hpending]
        refine ⟨?_, hlast.symm⟩
        have hle : b ≤ p.rf.lastApplied := by
          split at hrest
          · exact hrest.le
          · omega
        omega
  | claimSnapshot m hidle hpending =>
      rw [hidle] at hb
      rw [hpending] at hrest
      obtain rfl : p.consumed = b := hb
      exact ⟨m.snapshotIndex, ⟨hrest.1, rfl⟩, hrest.2⟩
  | claimCommands hidle hpending hlt =>
      rw [hidle] at hb
      rw [hpending] at hrest
      have hconsumed : p.consumed = p.rf.lastApplied := Eq.trans hb hrest
      refine ⟨p.rf.commitIndex, ?_, ?_⟩
      · show Delivers p.consumed _ _
        rw [hconsumed]
        exact delivers_commandsOf L hlt.le
      · show match p.rf.pendingSnapshot with | none => _ | some m => _
        rw [hpending]
  | send m rest happlying =>
      rw [happlying] at hb
      exact ⟨b, hb.2, hrest⟩
  | restart rf hrf => exact ⟨_, rfl, rfl⟩

theorem stream_reachable {s : System n C} (hs : (raftSys n C).Reachable s) (i : Fin n) :
    Stream (s.procs i) := by
  refine hs.invariant (I := fun s => ∀ i, Stream (s.procs i)) ?_ ?_ i
  · rintro s rfl i
    exact ⟨0, rfl, rfl⟩
  · intro s a s' hs ih hstep i
    obtain ⟨A, hA, h⟩ := exists_rel hs
    rcases h.proc_step hA hstep i with heq | hproc
    · rw [heq]
      exact ih i
    · exact (ih i).step (h.server i).applied_le hproc

/-! ### Snapshots -/

/-- There is no snapshot of an empty log. -/
theorem snapshot_nil {s : System n C} (hs : (raftSys n C).Reachable s) (i : Fin n)
    (h : (s.rf i).lastIncludedIndex = 0) : (s.rf i).snapshot = [] := by
  refine hs.invariant (I := fun s => ∀ i, (s.rf i).lastIncludedIndex = 0 →
    (s.rf i).snapshot = []) ?_ ?_ i h
  · rintro s rfl i -
    rfl
  · intro s a s' hs ih hstep i hzero
    obtain ⟨A, hA, h⟩ := exists_rel hs
    have hi := ih i
    unfold System.rf at hzero hi ⊢
    rcases h.proc_step hA hstep i with heq | hproc
    · rw [heq] at hzero ⊢
      exact hi hzero
    · generalize s'.procs i = p at hproc hzero
      cases hproc with
      | act rf votes hlocal =>
          change rf.lastIncludedIndex = 0 at hzero
          rcases hlocal.service with ⟨-, ⟨hbase, hsnapshot⟩ | hpos⟩ | ⟨m, -, -, -, hpos⟩
          · show rf.snapshot = []
            rw [hsnapshot]
            exact hi (hbase ▸ hzero)
          · omega
          · omega
      | restart rf hrf =>
          change rf.lastIncludedIndex = 0 at hzero
          show rf.snapshot = []
          rcases hrf with rfl | ⟨t, rfl⟩
          · exact hi hzero
          · rw [Raft.follow_snapshot]
            exact hi (by simpa using hzero)
      | _ => exact hi hzero

theorem persisted_snapshot {s : System n C} (hs : (raftSys n C).Reachable s) (i : Fin n) :
    (s.rf i).lastIncludedIndex = 0 ∧ (s.rf i).persister.snapshot = [] ∨
      ∃ P, (⟨(s.rf i).lastIncludedIndex, (s.rf i).persister.snapshot, P⟩ : Taken C) ∈ s.taken := by
  obtain ⟨A, hA, h⟩ := exists_rel hs
  rw [(h.server i).synced.snapshot]
  rcases (h.records.server i).1 with hzero | htaken
  · exact Or.inl ⟨hzero, snapshot_nil hs i hzero⟩
  · exact Or.inr ⟨_, htaken⟩

theorem taken_le {s : System n C} (hs : (raftSys n C).Reachable s) {t : Taken C}
    (ht : t ∈ s.taken) : t.index ≤ s.operations.length := by
  obtain ⟨A, hA, h⟩ := exists_rel hs
  obtain ⟨hlen, hpre⟩ := h.records.taken t ht
  rw [length_operations hs, ← hlen]
  exact hpre.length_le

/-- **What a server puts on its apply channel** follows on what it sent
before, and tells the truth about the committed log. -/
theorem message_next {s : System n C} (hs : (raftSys n C).Reachable s) {i : Fin n}
    {m : ApplyMsg C} {rest : List (ApplyMsg C)} (h : (s.procs i).applying = m :: rest) :
    Next (s.procs i).consumed m ∧ Stands s.taken s.committed m := by
  obtain ⟨b, hb, -⟩ := stream_reachable hs i
  rw [h] at hb
  obtain ⟨A, hA, hrel⟩ := exists_rel hs
  exact ⟨hb.1, hrel.records.applying i m (by rw [h]; exact List.mem_cons_self)⟩

end RaftShardedKv
