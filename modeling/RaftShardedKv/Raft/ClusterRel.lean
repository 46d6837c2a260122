import RaftShardedKv.Raft.LeaderMoves

/-!
The relation between a whole cluster and the protocol, and how it
survives a step of one server.

Besides the servers and the calls it keeps facts of three kinds. `Ballots`
is about elections: a candidate's count is the number of servers that
voted for it and whose call is closed, so that a reply still to come is
always a vote not yet counted. `Agreed` is about the committed log: it is
what the protocol has committed, and no server knows more of it; and an
entry that a leader wrote was handed to `Start`. `Records` is about what
left the cluster: every snapshot in sight was taken by a service at a
committed point, and every command delivered is a committed one.
-/

namespace RaftShardedKv

open TermLog Consensus Transition

variable {n : ℕ} {C : Type} [Labgob C]

/-- A vote call by its caller, incarnation, term and receiver. -/
def Call.ballot (c : Call n C) : Option (Fin n × ℕ × ℕ × Fin n) :=
  match c.rpc with
  | .requestVote args _ => some (c.src, c.incarnation, args.term, c.dst)
  | _ => none

def ballots (net : List (Call n C)) : List (Fin n × ℕ × ℕ × Fin n) :=
  net.filterMap Call.ballot

/-- The votes counted by process `p` of server `i`. -/
def Counted (A : Abstract n C) (i : Fin n) (p : Proc n C) (net : List (Call n C)) : Prop :=
  ∃ Q : Finset (Fin n), p.votes p.rf.currentTerm = Q.card ∧
    ∀ v ∈ Q, A.vote p.rf.currentTerm v = some i ∧
      (i, p.incarnation, p.rf.currentTerm, v) ∉ ballots net

structure Ballots (s : System n C) (A : Abstract n C) : Prop where
  nodup : (ballots s.net).Nodup
  -- no call of an incarnation to come, and none of a term to come in this one
  fresh : ∀ i k t v, (i, k, t, v) ∈ ballots s.net → k < (s.procs i).incarnation ∨
    k = (s.procs i).incarnation ∧ t ≤ (s.rf i).currentTerm
  counted : ∀ i, (s.rf i).state = .candidate → Counted A i (s.procs i) s.net

structure Agreed (s : System n C) (A : Abstract n C) : Prop where
  committed : ∃ u, CommittedPrefix A u s.committed
  known : ∀ i, (A.log i).take (s.rf i).commitIndex <+: s.committed
  started : ∀ T k e, (A.lead T)[k]? = some e → e.term = T →
    ∃ c, e.command = some c ∧ (T, k + 1, c) ∈ s.started

/-- A message to a service tells the truth. -/
def Stands (taken : List (Taken C)) (committed : List (LogEntry C)) : ApplyMsg C → Prop
  | .command command index => 1 ≤ index ∧
      ∃ e, committed[index - 1]? = some e ∧ e.command = command
  | .snapshot m => ∃ P, (⟨m.snapshotIndex, m.snapshot, P⟩ : Taken C) ∈ taken

/-- The snapshot in a call was taken by some service. -/
def CallRecord (taken : List (Taken C)) (c : Call n C) : Prop :=
  match c.rpc with
  | .installSnapshot args P _ =>
      args.lastIncludedIndex = 0 ∨ (⟨args.lastIncludedIndex, args.data, P⟩ : Taken C) ∈ taken
  | _ => True

/-- So were the snapshot of a server and the one it has yet to deliver. -/
def ServerRecord (taken : List (Taken C)) (rf : Raft n C) (L : List (LogEntry C)) : Prop :=
  (rf.lastIncludedIndex = 0 ∨
    (⟨rf.lastIncludedIndex, rf.snapshot, L.take rf.lastIncludedIndex⟩ : Taken C) ∈ taken) ∧
  ∀ m, rf.pendingSnapshot = some m →
    ∃ P, (⟨m.snapshotIndex, m.snapshot, P⟩ : Taken C) ∈ taken

structure Records (s : System n C) : Prop where
  taken : ∀ t ∈ s.taken, t.entries.length = t.index ∧ t.entries <+: s.committed
  server : ∀ i, ServerRecord s.taken (s.rf i) (s.entries i)
  call : ∀ c ∈ s.net, CallRecord s.taken c
  applying : ∀ i, ∀ m ∈ (s.procs i).applying, Stands s.taken s.committed m
  applied : ∀ x ∈ s.applied, Stands s.taken s.committed x.2.2

structure Rel (s : System n C) (A : Abstract n C) : Prop where
  entries : ∀ i, s.entries i = A.log i
  server : ∀ i, ServerRel A i (s.rf i)
  call : ∀ c ∈ s.net, CallRel A c
  ballots : Ballots s A
  agreed : Agreed s A
  records : Records s

/-! ### Facts about vote calls -/

section

omit [Labgob C]

theorem ballots_set {net : List (Call n C)} {k : ℕ} {c c' : Call n C} (hk : net[k]? = some c)
    (hb : c'.ballot = c.ballot) : ballots (net.set k c') = ballots net := by
  induction net generalizing k with
  | nil => rfl
  | cons d net ih =>
      cases k with
      | zero =>
          have hd : d = c := by simpa using hk
          subst hd
          simp only [ballots, List.set_cons_zero, List.filterMap_cons, hb]
      | succ k =>
          have hset := ih (k := k) (by simpa using hk)
          simp only [ballots, List.set_cons_succ, List.filterMap_cons] at hset ⊢
          rw [hset]

theorem ballots_eraseIdx (net : List (Call n C)) (k : ℕ) :
    (ballots (net.eraseIdx k)).Sublist (ballots net) :=
  (List.eraseIdx_sublist net k).filterMap _

/-- Closing a vote call leaves no other call for the same vote. -/
theorem ballot_not_mem_eraseIdx {net : List (Call n C)} {k : ℕ} {c : Call n C}
    {b : Fin n × ℕ × ℕ × Fin n} (hk : net[k]? = some c) (hb : c.ballot = some b)
    (hnodup : (ballots net).Nodup) : b ∉ ballots (net.eraseIdx k) := by
  induction net generalizing k with
  | nil => simp at hk
  | cons d net ih =>
      cases k with
      | zero =>
          have hd : d = c := by simpa using hk
          subst hd
          simp only [ballots, List.filterMap_cons, hb, List.nodup_cons] at hnodup
          simpa [ballots] using hnodup.1
      | succ k =>
          have hmem : b ∈ ballots net := by
            refine List.mem_filterMap.mpr ⟨c, ?_, hb⟩
            exact List.mem_of_getElem? (by simpa using hk)
          have htail : (ballots net).Nodup := by
            cases hd : d.ballot <;>
              simp only [ballots, List.filterMap_cons, hd, List.nodup_cons] at hnodup
            · exact hnodup
            · exact hnodup.2
          have hrest := ih (k := k) (by simpa using hk) htail
          rw [List.eraseIdx_cons_succ]
          cases hd : d.ballot with
          | none => simpa [ballots, List.filterMap_cons, hd] using hrest
          | some b' =>
              simp only [ballots, List.filterMap_cons, hd, List.nodup_cons] at hnodup
              simp only [ballots, List.filterMap_cons, hd, List.mem_cons, not_or]
              exact ⟨fun heq => hnodup.1 (heq ▸ hmem), hrest⟩

end

/-! ### One server steps -/

/-- The process of server `i` is now `p`, which stands for the log `L`,
and the calls in flight are `net`. -/
def System.become (s : System n C) (i : Fin n) (p : Proc n C) (L : List (LogEntry C))
    (net : List (Call n C)) : System n C :=
  { s with
    procs := Function.update s.procs i p
    entries := Function.update s.entries i L
    committed := longer s.committed (L.take p.rf.commitIndex)
    net := net }

section become

variable (s : System n C) {i j : Fin n} (p : Proc n C) (L : List (LogEntry C))
  (net : List (Call n C))

section

omit [Labgob C]

@[simp] theorem System.become_procs_self : (s.become i p L net).procs i = p := by
  simp [System.become]

@[simp] theorem System.become_rf_self : (s.become i p L net).rf i = p.rf := by
  simp [System.become, System.rf]

@[simp] theorem System.become_entries_self : (s.become i p L net).entries i = L := by
  simp [System.become]

@[simp] theorem System.become_net : (s.become i p L net).net = net := rfl

@[simp] theorem System.become_taken : (s.become i p L net).taken = s.taken := rfl

@[simp] theorem System.become_applied : (s.become i p L net).applied = s.applied := rfl

@[simp] theorem System.become_started : (s.become i p L net).started = s.started := rfl

theorem System.become_procs_ne (h : j ≠ i) : (s.become i p L net).procs j = s.procs j := by
  simp [System.become, h]

theorem System.become_rf_ne (h : j ≠ i) : (s.become i p L net).rf j = s.rf j := by
  simp [System.become, System.rf, h]

theorem System.become_entries_ne (h : j ≠ i) :
    (s.become i p L net).entries j = s.entries j := by
  simp [System.become, h]

end

end become

omit [Labgob C] in
theorem Stands.mono {taken : List (Taken C)} {L L' : List (LogEntry C)} {m : ApplyMsg C}
    (h : Stands taken L m) (hL : L <+: L') : Stands taken L' m := by
  cases m with
  | command command index =>
      obtain ⟨hpos, e, hget, hcmd⟩ := h
      refine ⟨hpos, e, ?_, hcmd⟩
      obtain ⟨R, rfl⟩ := hL
      rw [List.getElem?_append_left (List.getElem?_eq_some_iff.mp hget).1, hget]
  | snapshot m => exact h

theorem longer_of_comparable {α : Type} {l l' : List α} (h : l <+: l' ∨ l' <+: l) :
    l <+: longer l l' ∧ l' <+: longer l l' ∧ (longer l l' = l ∨ longer l l' = l') := by
  unfold longer
  split
  · rename_i hlt
    refine ⟨h.resolve_right fun hpre => ?_, List.prefix_rfl, Or.inr rfl⟩
    exact absurd hpre.length_le (by omega)
  · rename_i hle
    refine ⟨List.prefix_rfl, ?_, Or.inl rfl⟩
    rcases h with hpre | hpre
    · rw [hpre.eq_of_length_le (by omega)]
    · exact hpre

section star

variable {A A' : Abstract n C} (hA : (abstractSys n C).Reachable A)
  (hs : (abstractSys n C).Star A A')

include hA hs

omit [Labgob C] in
theorem Ballots.become {s : System n C} {i : Fin n} {p : Proc n C} {L : List (LogEntry C)}
    {net : List (Call n C)} (h : Ballots s A) (hnodup : (ballots net).Nodup)
    (hinc : (s.procs i).incarnation < p.incarnation ∨
      (s.procs i).incarnation = p.incarnation ∧ (s.rf i).currentTerm ≤ p.rf.currentTerm)
    (hnew : ∀ j k t v, (j, k, t, v) ∈ ballots net → (j, k, t, v) ∈ ballots s.net ∨
      j = i ∧ k = p.incarnation ∧ t ≤ p.rf.currentTerm)
    (hcount : p.rf.state = .candidate → Counted A' i p net) :
    Ballots (s.become i p L net) A' where
  nodup := hnodup
  fresh j k t v hb := by
    rcases hnew j k t v hb with hold | ⟨rfl, rfl, ht⟩
    · have hfresh := h.fresh j k t v hold
      rcases eq_or_ne j i with rfl | hj
      · rw [System.become_procs_self, System.become_rf_self]
        omega
      · rw [System.become_procs_ne _ _ _ _ hj, System.become_rf_ne _ _ _ _ hj]
        exact hfresh
    · rw [System.become_procs_self, System.become_rf_self]
      exact Or.inr ⟨rfl, ht⟩
  counted j hc := by
    rcases eq_or_ne j i with rfl | hj
    · rw [System.become_rf_self] at hc
      rw [System.become_procs_self]
      exact hcount hc
    · rw [System.become_rf_ne _ _ _ _ hj] at hc
      rw [System.become_procs_ne _ _ _ _ hj]
      obtain ⟨Q, hcard, hQ⟩ := h.counted j hc
      refine ⟨Q, hcard, fun v hv => ⟨vote_star hA hs (hQ v hv).1, fun hb => ?_⟩⟩
      rcases hnew _ _ _ _ hb with hold | ⟨hji, -⟩
      · exact (hQ v hv).2 hold
      · exact hj hji

end star

omit [Labgob C] in
theorem Records.become {s : System n C} {i : Fin n} {p : Proc n C} {L : List (LogEntry C)}
    {net : List (Call n C)} (h : Records s)
    (hgrow : s.committed <+: (s.become i p L net).committed)
    (hserver : ServerRecord s.taken p.rf L)
    (hcall : ∀ c ∈ net, c ∈ s.net ∨ CallRecord s.taken c)
    (happlying : ∀ m ∈ p.applying, Stands s.taken s.committed m) :
    Records (s.become i p L net) where
  taken t ht := ⟨(h.taken t ht).1, (h.taken t ht).2.trans hgrow⟩
  server j := by
    rcases eq_or_ne j i with rfl | hj
    · simpa using hserver
    · rw [System.become_rf_ne _ _ _ _ hj, System.become_entries_ne _ _ _ _ hj]
      exact h.server j
  call c hc := (hcall c hc).elim (h.call c) id
  applying j m hm := by
    rcases eq_or_ne j i with rfl | hj
    · rw [System.become_procs_self] at hm
      exact (happlying m hm).mono hgrow
    · rw [System.become_procs_ne _ _ _ _ hj] at hm
      exact (h.applying j m hm).mono hgrow
  applied x hx := (h.applied x hx).mono hgrow

theorem Agreed.become {w : ℕ → ℕ → LogEntry C → Prop} {s : System n C} {A A' : Abstract n C}
    {i : Fin n} {p : Proc n C} {base : List (LogEntry C)} {net : List (Call n C)}
    (h : Agreed s A) (hA : (abstractSys n C).Reachable A) (hm : Writes w A i base p.rf A')
    (hw : ∀ T k e, w T k e → ∃ c, e.command = some c ∧ (T, k + 1, c) ∈ s.started) :
    Agreed (s.become i p (A'.log i) net) A' ∧
      s.committed <+: (s.become i p (A'.log i) net).committed := by
  have hA' := hA.star hm.star
  have hinv := Inv.reachable hA'
  obtain ⟨u, hu⟩ := h.committed
  have hold := committedPrefix_star hA hm.star hu
  have hown := hm.rel.committedPrefix hA' le_rfl
  obtain ⟨hgrow, hknown, hone⟩ := longer_of_comparable
    (hold.comparable hown hinv.election hinv.logs hinv.acks)
  refine ⟨⟨?_, fun j => ?_, fun T k e he hT => ?_⟩, hgrow⟩
  · rcases hone with heq | heq
    · exact ⟨u, by rw [show (s.become i p (A'.log i) net).committed = _ from heq]; exact hold⟩
    · exact ⟨_, by rw [show (s.become i p (A'.log i) net).committed = _ from heq]; exact hown⟩
  · rcases eq_or_ne j i with rfl | hj
    · rw [System.become_rf_self]
      exact hknown
    · rw [System.become_rf_ne _ _ _ _ hj, hm.only.log j hj]
      exact (h.known j).trans hgrow
  · exact (hm.wrote T k e he hT).elim (fun hold => h.started T k e hold hT) (hw T k e)

/-- **Assembling the relation** after a step of server `i`. -/
theorem Rel.become {w : ℕ → ℕ → LogEntry C → Prop} {s : System n C} {A A' : Abstract n C}
    {i : Fin n} {p : Proc n C} {base : List (LogEntry C)} {net : List (Call n C)} (h : Rel s A)
    (hA : (abstractSys n C).Reachable A) (hm : Writes w A i base p.rf A')
    (hw : ∀ T k e, w T k e → ∃ c, e.command = some c ∧ (T, k + 1, c) ∈ s.started)
    (hcall : ∀ c ∈ net, c ∈ s.net ∨ CallRel A' c ∧ CallRecord s.taken c)
    (hballots : Ballots (s.become i p (A'.log i) net) A')
    (hserver : ServerRecord s.taken p.rf (A'.log i))
    (happlying : ∀ m ∈ p.applying, Stands s.taken s.committed m) :
    Rel (s.become i p (A'.log i) net) A' where
  entries j := by
    rcases eq_or_ne j i with rfl | hj
    · simp
    · rw [System.become_entries_ne _ _ _ _ hj, h.entries j, hm.only.log j hj]
  server j := by
    rcases eq_or_ne j i with rfl | hj
    · simpa using hm.rel
    · rw [System.become_rf_ne _ _ _ _ hj]
      exact (h.server j).frame hA hm.star hm.only hj
  call c hc := (hcall c hc).elim (fun hold => (h.call c hold).star hA hm.star) And.left
  ballots := hballots
  agreed := (h.agreed.become hA hm hw).1
  records := h.records.become (h.agreed.become hA hm hw).2 hserver
    (fun c hc => (hcall c hc).imp_right And.right) happlying

theorem Rel.term_le {w : ℕ → ℕ → LogEntry C → Prop} {s : System n C} {A A' : Abstract n C}
    {i : Fin n} {rf : Raft n C} {base : List (LogEntry C)} (h : Rel s A)
    (hA : (abstractSys n C).Reachable A) (hm : Writes w A i base rf A') :
    (s.rf i).currentTerm ≤ rf.currentTerm := by
  rw [← (h.server i).term, ← hm.rel.term]
  exact term_star hA hm.star i

theorem Rel.serverRecord {w : ℕ → ℕ → LogEntry C → Prop} {s : System n C} {A A' : Abstract n C}
    {i : Fin n} {rf : Raft n C} (h : Rel s A) (hm : Writes w A i (A.log i) rf A')
    (hbase : rf.lastIncludedIndex = (s.rf i).lastIncludedIndex)
    (hsnapshot : rf.snapshot = (s.rf i).snapshot)
    (hpending : ∀ m, rf.pendingSnapshot = some m → (s.rf i).pendingSnapshot = some m) :
    ServerRecord s.taken rf (A'.log i) := by
  obtain ⟨hown, hpend⟩ := h.records.server i
  refine ⟨?_, fun m hm => hpend m (hpending m hm)⟩
  rw [← hm.kept, hbase, hsnapshot, ← h.entries i]
  exact hown

/-- A move that neither starts an election nor touches a snapshot, while
calls are answered, closed, or made that are not for votes. -/
theorem Rel.quiet {w : ℕ → ℕ → LogEntry C → Prop} {s : System n C} {A A' : Abstract n C}
    {i : Fin n} {rf : Raft n C} {net : List (Call n C)} (h : Rel s A)
    (hA : (abstractSys n C).Reachable A) (hm : Writes w A i (A.log i) rf A')
    (hw : ∀ T k e, w T k e → ∃ c, e.command = some c ∧ (T, k + 1, c) ∈ s.started)
    (hq : Quiet (s.rf i) rf)
    (hsub : (RaftShardedKv.ballots net).Sublist (RaftShardedKv.ballots s.net))
    (hcall : ∀ c ∈ net, c ∈ s.net ∨ CallRel A' c ∧ CallRecord s.taken c) :
    Rel (s.become i { s.procs i with rf := rf } (A'.log i) net) A' := by
  refine h.become hA hm hw hcall ?_ (h.serverRecord hm hq.base hq.snapshot hq.pending)
    fun m hmem => h.records.applying i m hmem
  refine h.ballots.become hA hm.star (hsub.nodup h.ballots.nodup)
    (Or.inr ⟨rfl, h.term_le hA hm⟩) (fun j k t v hb => Or.inl (hsub.subset hb)) ?_
  intro hc
  obtain ⟨hcand, hterm⟩ := hq.candidate hc
  obtain ⟨Q, hcard, hQ⟩ := h.ballots.counted i hcand
  refine ⟨Q, ?_, fun v hv => ⟨?_, fun hb => (hQ v hv).2 ?_⟩⟩
  · show (s.procs i).votes rf.currentTerm = Q.card
    rw [hterm]; exact hcard
  · show A'.vote rf.currentTerm v = some i
    rw [hterm]; exact vote_star hA hm.star (hQ v hv).1
  · have hmem := hsub.subset hb
    rwa [show ({ s.procs i with rf := rf } : Proc n C).rf.currentTerm = _ from hterm] at hmem

end RaftShardedKv
