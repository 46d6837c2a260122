import RaftShardedKv.Raft.ClusterRel

/-!
The cluster refines the consensus protocol: `raft_simulation`. For each
action the server that acts makes a move, and the calls in flight stay
true; the proofs put the two together.
-/

namespace RaftShardedKv

open TermLog Consensus Transition

variable {n : ℕ} {C : Type}

variable {s : System n C} {A A' : Abstract n C} {i : Fin n} {rf : Raft n C}

/-! ### The ways a step writes its result -/

variable [Labgob C]

theorem Rel.setRfFrom_eq {w : ℕ → ℕ → LogEntry C → Prop} {base : List (LogEntry C)}
    (hm : Writes w A i base rf A') :
    s.setRfFrom i rf base = s.become i { s.procs i with rf := rf } (A'.log i) s.net := by
  rw [System.setRfFrom, hm.rel.holds.entries hm.kept]
  rfl

theorem Rel.setRf_eq {w : ℕ → ℕ → LogEntry C → Prop} (h : Rel s A)
    (hm : Writes w A i (A.log i) rf A') :
    s.setRf i rf = s.become i { s.procs i with rf := rf } (A'.log i) s.net := by
  rw [System.setRf, h.entries i, Rel.setRfFrom_eq hm]

omit [Labgob C] in
theorem System.become_setProc (p p' : Proc n C) (L : List (LogEntry C)) (net : List (Call n C))
    (h : p'.rf = p.rf) : (s.become i p L net).setProc i p' = s.become i p' L net := by
  simp [System.become, System.setProc, h]

/-! ### Calls that are answered and closed -/

omit [Labgob C] in
theorem mem_set_call {net : List (Call n C)} {k : ℕ} {c d : Call n C} (h : d ∈ net.set k c) :
    d ∈ net ∨ d = c := by
  rcases List.mem_or_eq_of_mem_set h with hd | hd
  · exact Or.inl hd
  · exact Or.inr hd

theorem Rel.answer (h : Rel s A) (hA : (abstractSys n C).Reachable A) {k : ℕ} {c : Call n C}
    (hk : s.net[k]? = some c) (rpc : Rpc n C) (hm : Move A c.dst (A.log c.dst) rf A')
    (hq : Quiet (s.rf c.dst) rf) (hb : ({ c with rpc := rpc } : Call n C).ballot = c.ballot)
    (hcall : CallRel A' { c with rpc := rpc })
    (hrecord : CallRecord s.taken { c with rpc := rpc }) :
    Rel ((s.setRf c.dst rf).answer k c rpc) A' := by
  have heq : (s.setRf c.dst rf).answer k c rpc =
      s.become c.dst { s.procs c.dst with rf := rf } (A'.log c.dst)
        (s.net.set k { c with rpc := rpc }) := by
    rw [h.setRf_eq hm]
    rfl
  rw [heq]
  refine h.quiet hA hm (fun _ _ _ => False.elim) hq ?_ fun d hd => ?_
  · rw [ballots_set hk hb]
  · rcases mem_set_call hd with hold | rfl
    · exact Or.inl hold
    · exact Or.inr ⟨hcall, hrecord⟩

theorem Rel.close (h : Rel s A) (hA : (abstractSys n C).Reachable A) (k : ℕ)
    (hm : Move A i (A.log i) rf A') (hq : Quiet (s.rf i) rf) :
    Rel ((s.setRf i rf).close k) A' := by
  have heq : (s.setRf i rf).close k =
      s.become i { s.procs i with rf := rf } (A'.log i) (s.net.eraseIdx k) := by
    rw [h.setRf_eq hm]
    rfl
  rw [heq]
  exact h.quiet hA hm (fun _ _ _ => False.elim) hq (ballots_eraseIdx _ _)
    fun d hd => Or.inl (List.mem_of_mem_eraseIdx hd)

theorem Rel.call_made (h : Rel s A) {i peer : Fin n} {rpc : Rpc n C}
    (hb : ∀ k, (⟨i, k, peer, rpc⟩ : Call n C).ballot = none)
    (hcall : ∀ k, CallRel A ⟨i, k, peer, rpc⟩)
    (hrecord : ∀ k, CallRecord s.taken ⟨i, k, peer, rpc⟩) :
    Rel (s.call i peer rpc) A := by
  have hballots : RaftShardedKv.ballots (s.call i peer rpc).net =
      RaftShardedKv.ballots s.net := by
    simp only [System.call, RaftShardedKv.ballots, List.filterMap_append, List.filterMap_cons, hb,
      List.filterMap_nil, List.append_nil]
  refine ⟨h.entries, h.server, fun c hc => ?_, ⟨?_, ?_, ?_⟩,
    ⟨h.agreed.committed, h.agreed.known, h.agreed.started⟩,
    ⟨h.records.taken, h.records.server, fun c hc => ?_, h.records.applying, h.records.applied⟩⟩
  · rcases List.mem_append.mp hc with hold | hnew
    · exact h.call c hold
    · rw [List.mem_singleton.mp hnew]
      exact hcall _
  · rw [hballots]; exact h.ballots.nodup
  · rw [hballots]; exact h.ballots.fresh
  · intro j hj
    obtain ⟨Q, hcard, hQ⟩ := h.ballots.counted j hj
    exact ⟨Q, hcard, fun v hv => ⟨(hQ v hv).1, by rw [hballots]; exact (hQ v hv).2⟩⟩
  · rcases List.mem_append.mp hc with hold | hnew
    · exact h.records.call c hold
    · rw [List.mem_singleton.mp hnew]
      exact hrecord _

/-! ### Requests arrive -/

theorem Rel.deliver_request (h : Rel s A) (hA : (abstractSys n C).Reachable A) {k : ℕ}
    {c : Call n C} (hk : s.net[k]? = some c) (hreq : c.rpc.requestTerm ≠ none)
    {s' : System n C} (hs : s.deliver k c = some s') :
    ∃ A', (abstractSys n C).Star A A' ∧ Rel s' A' := by
  have hc := h.call c (List.mem_of_getElem? hk)
  have hrecord := h.records.call c (List.mem_of_getElem? hk)
  have hserver := h.server c.dst
  obtain ⟨src, incarnation, dst, rpc⟩ := c
  cases rpc with
  | requestVote args reply =>
      cases reply with
      | some r => exact absurd rfl hreq
      | none =>
          obtain ⟨rf, reply, A', hrun, hm, hq, hvote⟩ := hserver.requestVote hA hc.1
          simp only [System.deliver, hrun, Option.bind_eq_bind, Option.bind_some,
            Option.some.injEq] at hs
          subst hs
          refine ⟨A', hm.star, h.answer hA hk _ hm hq rfl ⟨hc.1.star hA hm.star, ?_⟩ trivial⟩
          rintro r ⟨⟩ hgranted
          exact hvote hgranted
  | appendEntries args reply =>
      cases reply with
      | some r => exact absurd rfl hreq
      | none =>
          obtain ⟨rf, reply, A', hrun, hm, hq, hacked⟩ := hserver.appendEntries hA hc.1
          simp only [System.deliver, hrun, Option.bind_eq_bind, Option.bind_some,
            Option.some.injEq] at hs
          subst hs
          refine ⟨A', hm.star, h.answer hA hk _ hm hq rfl ⟨hc.1.star hA hm.star, ?_⟩ trivial⟩
          rintro r ⟨⟩ hsuccess
          exact hacked hsuccess
  | heartbeat args reply =>
      cases reply with
      | some r => exact absurd rfl hreq
      | none =>
          obtain ⟨rf, reply, A', hrun, hm, hq, -⟩ := hserver.appendEntries hA hc
          simp only [System.deliver, hrun, Option.bind_eq_bind, Option.bind_some,
            Option.some.injEq] at hs
          subst hs
          exact ⟨A', hm.star, h.answer hA hk _ hm hq rfl (EntriesRel.star hA hm.star hc) trivial⟩
  | installSnapshot args P reply =>
      cases reply with
      | some r => exact absurd rfl hreq
      | none =>
          obtain ⟨rf, reply, A', hrun, hm, hsnap, hacked⟩ := hserver.installSnapshot hA hc.1
          simp only [System.deliver, hrun, Option.bind_eq_bind, Option.bind_some,
            Option.some.injEq, h.entries dst] at hs
          subst hs
          have hcall : CallRel A'
              ⟨src, incarnation, dst, .installSnapshot args P (some reply)⟩ := by
            refine ⟨hc.1.star hA hm.star, ?_⟩
            rintro r ⟨⟩ hstop hterm
            exact hacked hstop hterm
          rcases hsnap with hq | ⟨hfollower, hbase, hdata, hpending, hlen, hpos, hmoved⟩
          · rw [if_pos hq.base] at hm ⊢
            have hrel := h.answer hA hk (.installSnapshot args P (some reply)) hm hq rfl
              hcall hrecord
            rw [System.setRf, h.entries dst] at hrel
            exact ⟨A', hm.star, hrel⟩
          · rw [if_neg hmoved] at hm ⊢
            have htaken : (⟨args.lastIncludedIndex, args.data, P⟩ : Taken C) ∈ s.taken :=
              hrecord.resolve_left hpos
            have heq : (s.setRfFrom dst rf P).answer k
                ⟨src, incarnation, dst, .installSnapshot args P none⟩
                (.installSnapshot args P (some reply)) =
                s.become dst { s.procs dst with rf := rf } (A'.log dst)
                  (s.net.set k ⟨src, incarnation, dst, .installSnapshot args P (some reply)⟩) := by
              rw [Rel.setRfFrom_eq hm]
              rfl
            have hballots : RaftShardedKv.ballots (s.net.set k
                ⟨src, incarnation, dst, .installSnapshot args P (some reply)⟩) =
                RaftShardedKv.ballots s.net := ballots_set hk rfl
            rw [heq]
            refine ⟨A', hm.star, h.become hA hm (fun _ _ _ => False.elim) (fun d hd => ?_) ?_
              ⟨Or.inr ?_, ?_⟩ fun m hmem => h.records.applying dst m hmem⟩
            · rcases mem_set_call hd with hold | rfl
              · exact Or.inl hold
              · exact Or.inr ⟨hcall, hrecord⟩
            · refine h.ballots.become hA hm.star ?_ (Or.inr ⟨rfl, h.term_le hA hm⟩) ?_
                (by simp [hfollower])
              · rw [hballots]; exact h.ballots.nodup
              · rw [hballots]; exact fun _ _ _ _ hb => Or.inl hb
            · show (⟨rf.lastIncludedIndex, rf.snapshot, _⟩ : Taken C) ∈ s.taken
              rw [← hm.kept, hbase, hdata, ← hlen, List.take_length, hlen]
              exact htaken
            · intro m hmem
              have heqm := hpending.symm.trans hmem
              cases heqm
              exact ⟨P, htaken⟩

/-! ### Replies arrive -/

/-- A candidate takes in the reply to one of its vote calls. That the
call was still open means that its receiver has not been counted. -/
theorem Rel.deliver_vote (h : Rel s A) (hA : (abstractSys n C).Reachable A) {k : ℕ}
    {src dst : Fin n} {args : RequestVoteArgs n} {reply : RequestVoteReply}
    (hk : s.net[k]? = some
      ⟨src, (s.procs src).incarnation, dst, .requestVote args (some reply)⟩) :
    ∃ rf votes A', (s.rf src).requestVoteReply args.term ((s.procs src).votes args.term) reply =
        some (rf, votes) ∧ (abstractSys n C).Star A A' ∧
      Rel (((s.setRf src rf).setVotes src args.term votes).close k) A' := by
  have hc := h.call _ (List.mem_of_getElem? hk)
  have hserver := h.server src
  have hopen : (src, (s.procs src).incarnation, args.term, dst) ∈
      RaftShardedKv.ballots s.net :=
    List.mem_filterMap.mpr ⟨_, List.mem_of_getElem? hk, rfl⟩
  have hclosed := ballot_not_mem_eraseIdx hk (b := (src, (s.procs src).incarnation, args.term, dst))
    rfl h.ballots.nodup
  have hsub := ballots_eraseIdx s.net k
  -- the counted voters together with the one that has now replied
  have hcounted : (s.rf src).state = .candidate → (s.rf src).currentTerm = args.term →
      reply.voteGranted → ∃ Q : Finset (Fin n), (s.procs src).votes args.term + 1 = Q.card ∧
        ∀ v ∈ Q, A.vote args.term v = some src ∧
          (src, (s.procs src).incarnation, args.term, v) ∉
            RaftShardedKv.ballots (s.net.eraseIdx k) := by
    intro hcand hterm hgranted
    obtain ⟨Q, hcard, hQ⟩ := h.ballots.counted src hcand
    change (s.procs src).votes (s.rf src).currentTerm = Q.card at hcard
    change ∀ v ∈ Q, A.vote (s.rf src).currentTerm v = some src ∧
      (src, (s.procs src).incarnation, (s.rf src).currentTerm, v) ∉ _ at hQ
    rw [hterm] at hcard hQ
    have hfresh : dst ∉ Q := fun hmem => (hQ dst hmem).2 hopen
    refine ⟨insert dst Q, by rw [Finset.card_insert_of_notMem hfresh, hcard], fun v hv => ?_⟩
    rcases Finset.mem_insert.mp hv with rfl | hv
    · exact ⟨hc.2 reply rfl hgranted, hclosed⟩
    · exact ⟨(hQ v hv).1, fun hb => (hQ v hv).2 (hsub.subset hb)⟩
  obtain ⟨rf, votes, A', hrun, hm, hq, hvotes⟩ := hserver.requestVoteReply hA args.term
    ((s.procs src).votes args.term) reply fun hcand hterm hgranted hmajority => by
      obtain ⟨Q, hcard, hQ⟩ := hcounted hcand hterm hgranted
      refine ⟨Q, by rw [Fintype.card_fin, ← hcard]; exact hmajority, fun v hv => ?_⟩
      rw [hterm]
      exact (hQ v hv).1
  refine ⟨rf, votes, A', hrun, hm.star, ?_⟩
  have heq : ((s.setRf src rf).setVotes src args.term votes).close k =
      s.become src { s.procs src with
        rf := rf
        votes := Function.update (s.procs src).votes args.term votes } (A'.log src)
        (s.net.eraseIdx k) := by
    rw [h.setRf_eq hm, System.setVotes, System.become_procs_self,
      System.become_setProc _ _ _ _ (by rfl)]
    rfl
  rw [heq]
  refine h.become hA hm (fun _ _ _ => False.elim)
    (fun d hd => Or.inl (List.mem_of_mem_eraseIdx hd)) ?_
    (h.serverRecord hm hq.base hq.snapshot hq.pending)
    fun m hmem => h.records.applying src m hmem
  refine h.ballots.become hA hm.star (hsub.nodup h.ballots.nodup)
    (Or.inr ⟨rfl, h.term_le hA hm⟩) (fun j l t v hb => Or.inl (hsub.subset hb)) fun hcand => ?_
  obtain ⟨hcand', hterm⟩ := hq.candidate hcand
  change ∃ Q : Finset (Fin n),
    Function.update (s.procs src).votes args.term votes rf.currentTerm = Q.card ∧
      ∀ v ∈ Q, A'.vote rf.currentTerm v = some src ∧
        (src, (s.procs src).incarnation, rf.currentTerm, v) ∉ _
  rw [hterm]
  rcases hvotes hcand with rfl | ⟨hargs, hgranted, rfl⟩
  · rw [Function.update_eq_self]
    obtain ⟨Q, hcard, hQ⟩ := h.ballots.counted src hcand'
    exact ⟨Q, hcard, fun v hv => ⟨vote_star hA hm.star (hQ v hv).1,
      fun hb => (hQ v hv).2 (hsub.subset hb)⟩⟩
  · obtain ⟨Q, hcard, hQ⟩ := hcounted hcand' hargs hgranted
    rw [hargs, Function.update_self]
    exact ⟨Q, hcard, fun v hv => ⟨vote_star hA hm.star (hQ v hv).1, (hQ v hv).2⟩⟩

theorem Rel.deliver_reply (h : Rel s A) (hA : (abstractSys n C).Reachable A) {k : ℕ}
    {c : Call n C} (hk : s.net[k]? = some c) (hreply : c.rpc.requestTerm = none)
    (hinc : c.incarnation = (s.procs c.src).incarnation)
    {s' : System n C} (hs : s.deliver k c = some s') :
    ∃ A', (abstractSys n C).Star A A' ∧ Rel s' A' := by
  have hc := h.call c (List.mem_of_getElem? hk)
  have hserver := h.server c.src
  obtain ⟨src, incarnation, dst, rpc⟩ := c
  change incarnation = (s.procs src).incarnation at hinc
  subst hinc
  cases rpc with
  | requestVote args reply =>
      cases reply with
      | none => simp [Rpc.requestTerm] at hreply
      | some reply =>
          obtain ⟨rf, votes, A', hrun, hstar, hrel⟩ := h.deliver_vote hA hk
          simp only [System.deliver, hrun, Option.bind_eq_bind, Option.bind_some,
            Option.some.injEq] at hs
          subst hs
          exact ⟨A', hstar, hrel⟩
  | appendEntries args reply =>
      cases reply with
      | none => simp [Rpc.requestTerm] at hreply
      | some reply =>
          obtain ⟨rf, A', hrun, hm, hq⟩ := hserver.appendEntriesReply hA dst args reply
            fun hsuccess => hc.2 reply rfl hsuccess
          simp only [System.deliver, hrun, Option.bind_eq_bind, Option.bind_some,
            Option.some.injEq] at hs
          subst hs
          exact ⟨A', hm.star, h.close hA k hm hq⟩
  | heartbeat args reply =>
      cases reply with
      | none => simp [Rpc.requestTerm] at hreply
      | some reply =>
          obtain ⟨rf, A', hrun, hm, hq⟩ := hserver.heartbeatReply hA reply
          simp only [System.deliver, hrun, Option.bind_eq_bind, Option.bind_some,
            Option.some.injEq] at hs
          subst hs
          exact ⟨A', hm.star, h.close hA k hm hq⟩
  | installSnapshot args P reply =>
      cases reply with
      | none => simp [Rpc.requestTerm] at hreply
      | some reply =>
          obtain ⟨rf, A', hrun, hm, hq⟩ := hserver.installSnapshotReply hA dst args reply
            fun hstop hterm => hc.2 reply rfl hstop hterm
          simp only [System.deliver, hrun, Option.bind_eq_bind, Option.bind_some,
            Option.some.injEq] at hs
          subst hs
          exact ⟨A', hm.star, h.close hA k hm hq⟩

/-! ### The other actions -/

theorem Rel.startElection (h : Rel s A) (hA : (abstractSys n C).Reachable A) (i : Fin n)
    {s' : System n C} (hs : s.step (.startElection i) = some s') :
    ∃ A', (abstractSys n C).Star A A' ∧ Rel s' A' := by
  obtain ⟨rf, args, A', hrun, hm, hbase, hsnapshot, hpending, hterm, hself, hargs⟩ :=
    (h.server i).startElection hA
  set p : Proc n C := { s.procs i with
    rf := rf
    votes := Function.update (s.procs i).votes rf.currentTerm 1 } with hp
  have heq : (s.setRf i rf).setVotes i rf.currentTerm 1 = s.become i p (A'.log i) s.net := by
    rw [h.setRf_eq hm, System.setVotes, System.become_procs_self,
      System.become_setProc _ _ _ _ (by rfl)]
  have hrecord := h.serverRecord hm hbase hsnapshot fun m hmem => hpending ▸ hmem
  have happlying : ∀ m ∈ p.applying, Stands s.taken s.committed m :=
    fun m hmem => h.records.applying i m hmem
  -- the server has never made a vote call for the new term
  have hunused : ∀ v, (i, p.incarnation, rf.currentTerm, v) ∉ RaftShardedKv.ballots s.net := by
    intro v hb
    have := h.ballots.fresh _ _ _ _ hb
    have hinc : p.incarnation = (s.procs i).incarnation := rfl
    omega
  have hown : p.rf.state = .candidate → ∀ net : List (Call n C),
      (i, p.incarnation, rf.currentTerm, i) ∉ RaftShardedKv.ballots net → Counted A' i p net := by
    intro hcand net hnet
    refine ⟨{i}, by simp [hp], fun v hv => ?_⟩
    rw [Finset.mem_singleton.mp hv]
    refine ⟨?_, hnet⟩
    show A'.vote rf.currentTerm i = some i
    rw [hterm]
    exact hself hcand
  have hinc : (s.procs i).incarnation < p.incarnation ∨
      (s.procs i).incarnation = p.incarnation ∧ (s.rf i).currentTerm ≤ p.rf.currentTerm :=
    Or.inr ⟨rfl, h.term_le hA hm⟩
  simp only [System.step] at hs
  split at hs
  · cases hs
  cases args with
  | none =>
      simp only [hrun, Option.bind_eq_bind, Option.bind_some, heq, Option.some.injEq] at hs
      subst hs
      refine ⟨A', hm.star, h.become hA hm (fun _ _ _ => False.elim) (fun c hc => Or.inl hc) ?_
        hrecord happlying⟩
      exact h.ballots.become hA hm.star h.ballots.nodup hinc (fun _ _ _ _ hb => Or.inl hb)
        fun hcand => hown hcand _ (hunused i)
  | some args =>
      obtain ⟨hargsTerm, hvote⟩ := hargs args rfl
      have hcalls : (s.become i p (A'.log i) s.net).callAll i (.requestVote args none) =
          s.become i p (A'.log i) (s.net ++ ((List.finRange n).filter fun dst => dst ≠ i).map
            fun dst => ⟨i, p.incarnation, dst, .requestVote args none⟩) := by
        rw [System.callAll, System.become_procs_self]
        rfl
      have hballots : RaftShardedKv.ballots (s.net ++ ((List.finRange n).filter
          fun dst => dst ≠ i).map fun dst =>
            (⟨i, p.incarnation, dst, .requestVote args none⟩ : Call n C)) =
          RaftShardedKv.ballots s.net ++ ((List.finRange n).filter fun dst => dst ≠ i).map
            fun dst => (i, p.incarnation, rf.currentTerm, dst) := by
        simp only [RaftShardedKv.ballots, List.filterMap_append, List.filterMap_map]
        congr 1
        rw [← List.filterMap_eq_map]
        congr 1
        funext dst
        simp [Call.ballot, hargsTerm, hterm]
      simp only [hrun, Option.bind_eq_bind, Option.bind_some, heq, hcalls,
        Option.some.injEq] at hs
      subst hs
      refine ⟨A', hm.star, h.become hA hm (fun _ _ _ => False.elim) (fun c hc => ?_) ?_
        hrecord happlying⟩
      · rcases List.mem_append.mp hc with hold | hnew
        · exact Or.inl hold
        · obtain ⟨dst, -, rfl⟩ := List.mem_map.mp hnew
          exact Or.inr ⟨⟨hvote, by simp⟩, trivial⟩
      · refine h.ballots.become hA hm.star ?_ hinc ?_ fun hcand => hown hcand _ ?_
        · rw [hballots, List.nodup_append]
          refine ⟨h.ballots.nodup, ?_, ?_⟩
          · refine List.Nodup.map ?_ ((List.nodup_finRange n).filter _)
            intro a b hab
            simpa using hab
          · intro a ha b hb hab
            obtain ⟨dst, -, rfl⟩ := List.mem_map.mp hb
            exact hunused dst (hab ▸ ha)
        · intro j k t v hb
          rw [hballots] at hb
          rcases List.mem_append.mp hb with hold | hnew
          · exact Or.inl hold
          · obtain ⟨dst, -, heq⟩ := List.mem_map.mp hnew
            cases heq
            exact Or.inr ⟨rfl, rfl, le_rfl⟩
        · rw [hballots, List.mem_append, not_or]
          refine ⟨hunused i, fun hmem => ?_⟩
          obtain ⟨dst, hdst, heq⟩ := List.mem_map.mp hmem
          cases heq
          simp at hdst

/-- The server writes an entry when the call is accepted, and the record
of the call names that entry. -/
theorem Rel.start (h : Rel s A) (hA : (abstractSys n C).Reachable A) (i : Fin n) (command : C)
    {s' : System n C} (hs : s.step (.start i command) = some s') :
    ∃ A', (abstractSys n C).Star A A' ∧ Rel s' A' := by
  obtain ⟨rf, index, ok, A', hrun, hm, hq⟩ := (h.server i).start hA command
  simp only [System.step, hrun, Option.bind_eq_bind, Option.bind_some, h.setRf_eq hm] at hs
  refine ⟨A', hm.star, ?_⟩
  cases index with
  | none =>
      cases hs
      exact h.quiet hA hm (fun _ _ _ hw => by simp at hw) hq (List.Sublist.refl _)
        fun c hc => Or.inl hc
  | some index =>
      cases hs
      -- first the call is recorded, then the server writes
      have hrel :
          Rel { s with started := ((s.rf i).currentTerm, index, command) :: s.started } A := by
        refine ⟨h.entries, h.server, h.call,
          ⟨h.ballots.nodup, h.ballots.fresh, h.ballots.counted⟩,
          ⟨h.agreed.committed, h.agreed.known, fun T k e he hT => ?_⟩,
          ⟨h.records.taken, h.records.server, h.records.call, h.records.applying,
            h.records.applied⟩⟩
        obtain ⟨c, hc, hmem⟩ := h.agreed.started T k e he hT
        exact ⟨c, hc, List.mem_cons_of_mem _ hmem⟩
      refine hrel.quiet hA hm (fun T k e hw => ?_) hq (List.Sublist.refl _) fun c hc => Or.inl hc
      obtain ⟨hindex, rfl, -, rfl⟩ := hw
      cases hindex
      exact ⟨command, rfl, List.mem_cons_self⟩

theorem Rel.snapshot (h : Rel s A) (hA : (abstractSys n C).Reachable A) (i : Fin n) (index : ℕ)
    (data : Bytes) {s' : System n C} (hs : s.step (.snapshot i index data) = some s') :
    Rel s' A := by
  obtain ⟨rf, hrun, hm, hcases⟩ := (h.server i).takeSnapshot index data
  simp only [System.step, hrun, Option.bind_eq_bind, Option.bind_some] at hs
  rcases hcases with rfl | ⟨hlt, hcommit, rfl⟩
  · rw [if_pos rfl] at hs
    cases hs
    rw [h.setRf_eq hm]
    exact h.quiet hA hm (fun _ _ _ => False.elim) (.refl _) (List.Sublist.refl _)
      fun c hc => Or.inl hc
  · have hmoved : ((s.rf i).fold (A.log i) index data).lastIncludedIndex ≠
        (s.rf i).lastIncludedIndex := by
      show index ≠ _
      omega
    rw [if_neg hmoved] at hs
    cases hs
    -- first the record is made, then the server folds its log
    have hpre : (A.log i).take index <+: s.committed := by
      refine List.IsPrefix.trans ?_ (h.agreed.known i)
      rw [← min_eq_left hcommit, ← List.take_take]
      exact List.take_prefix _ _
    have hlen : ((A.log i).take index).length = index := by
      have := hcommit.trans ((h.server i).commit_le hA)
      simp [this]
    have hmono : ∀ {m : ApplyMsg C}, Stands s.taken s.committed m →
        Stands (⟨index, data, (s.entries i).take index⟩ :: s.taken) s.committed m := by
      intro m hstands
      cases m with
      | command command k => exact hstands
      | snapshot m =>
          obtain ⟨P, hP⟩ := hstands
          exact ⟨P, List.mem_cons_of_mem _ hP⟩
    have hserver : ∀ {rf : Raft n C} {L : List (LogEntry C)}, ServerRecord s.taken rf L →
        ServerRecord (⟨index, data, (s.entries i).take index⟩ :: s.taken) rf L := by
      rintro rf L ⟨hown, hpending⟩
      refine ⟨hown.imp_right (List.mem_cons_of_mem _), fun m hmem => ?_⟩
      obtain ⟨P, hP⟩ := hpending m hmem
      exact ⟨P, List.mem_cons_of_mem _ hP⟩
    have hrel : Rel { s with taken := ⟨index, data, (s.entries i).take index⟩ :: s.taken } A := by
      refine ⟨h.entries, h.server, h.call, ⟨h.ballots.nodup, h.ballots.fresh, h.ballots.counted⟩,
        ⟨h.agreed.committed, h.agreed.known, h.agreed.started⟩,
        ⟨fun t ht => ?_, fun j => hserver (h.records.server j), fun c hc => ?_,
          fun j m hmem => hmono (h.records.applying j m hmem),
          fun x hx => hmono (h.records.applied x hx)⟩⟩
      · rcases List.mem_cons.mp ht with rfl | hold
        · rw [h.entries i]
          exact ⟨hlen, hpre⟩
        · exact h.records.taken t hold
      · have hold := h.records.call c hc
        unfold CallRecord at hold ⊢
        split
        · rename_i args P r hrpc
          rw [hrpc] at hold
          exact hold.imp_right (List.mem_cons_of_mem _)
        · trivial
    have hfold := hrel.become hA (p := { s.procs i with
        rf := (s.rf i).fold (A.log i) index data }) hm (fun _ _ _ => False.elim)
      (fun c (hc : c ∈ s.net) => Or.inl hc)
      (hrel.ballots.become hA hm.star h.ballots.nodup (Or.inr ⟨rfl, le_rfl⟩)
        (fun _ _ _ _ hb => Or.inl hb) fun hcand => hrel.ballots.counted i hcand)
      ⟨Or.inr (by rw [h.entries i]; exact List.mem_cons_self),
        fun m hmem => (hrel.records.server i).2 m hmem⟩
      fun m hmem => hrel.records.applying i m hmem
    rw [h.setRf_eq hm]
    exact hfold

theorem Rel.stands_commands (h : Rel s A) (hA : (abstractSys n C).Reachable A) (i : Fin n)
    {start : ℕ} (hstart : 1 ≤ start) (taken : List (Taken C)) :
    ∀ m ∈ Raft.commandsOf (A.log i) start (s.rf i).commitIndex,
      Stands taken s.committed m := by
  intro m hm
  obtain ⟨index, hindex, rfl⟩ := List.mem_map.mp hm
  rw [List.mem_range'_1] at hindex
  have hlen := (h.server i).commit_le hA
  have hlt : index - 1 < (A.log i).length := by omega
  refine ⟨by omega, (A.log i)[index - 1], ?_, ?_⟩
  · obtain ⟨R, hR⟩ := h.agreed.known i
    rw [← hR, List.getElem?_append_left (by simp; omega), List.getElem?_take_of_lt (by omega),
      List.getElem?_eq_getElem hlt]
  · rw [List.getElem?_eq_getElem hlt]
    rfl

theorem Rel.claim (h : Rel s A) (hA : (abstractSys n C).Reachable A) (i : Fin n)
    {s' : System n C} (hs : s.step (.claim i) = some s') : Rel s' A := by
  simp only [System.step] at hs
  split at hs
  · rename_i hready
    obtain ⟨rf, messages, hrun, hm, hq, hcases⟩ := (h.server i).applierClaim hA hready.1
    simp only [hrun, Option.bind_eq_bind, Option.bind_some, Option.some.injEq, h.setRf_eq hm] at hs
    rw [System.become_setProc _ _ _ _ (by rfl)] at hs
    subst hs
    have hbefore := h.quiet hA hm (fun _ _ _ => False.elim) hq (List.Sublist.refl _)
      fun c hc => Or.inl hc
    refine h.become hA hm (fun _ _ _ => False.elim) (fun c hc => Or.inl hc) ?_
      (h.serverRecord hm hq.base hq.snapshot hq.pending) ?_
    · refine h.ballots.become hA hm.star h.ballots.nodup (Or.inr ⟨rfl, h.term_le hA hm⟩)
        (fun _ _ _ _ hb => Or.inl hb) fun hcand => ?_
      have hcounted := hbefore.ballots.counted i (by simpa using hcand)
      rw [System.become_procs_self] at hcounted
      exact hcounted
    · intro m hmem
      rcases hcases with ⟨message, hpending, rfl, -⟩ | ⟨-, -, rfl, -⟩
      · rw [List.mem_singleton.mp hmem]
        exact (h.records.server i).2 message hpending
      · exact h.stands_commands hA i (by omega) s.taken m hmem
  · cases hs

theorem Rel.send (h : Rel s A) (i : Fin n) {s' : System n C}
    (hs : s.step (.send i) = some s') : Rel s' A := by
  simp only [System.step] at hs
  split at hs
  · cases hs
  · rename_i message rest happ
    cases hs
    have hprocs : ∀ j, ((s.setProc i { s.procs i with
        applying := rest, consumed := message.index }).procs j).rf = s.rf j := by
      intro j
      rcases eq_or_ne j i with rfl | hj
      · simp [System.setProc, System.rf]
      · simp [System.setProc, System.rf, hj]
    have hsame : ∀ j, let p := (s.setProc i { s.procs i with
        applying := rest, consumed := message.index }).procs j
        p.incarnation = (s.procs j).incarnation ∧ p.votes = (s.procs j).votes ∧
          ∀ m ∈ p.applying, m ∈ (s.procs j).applying := by
      intro j
      rcases eq_or_ne j i with rfl | hj
      · simp +contextual [System.setProc, happ]
      · simp [System.setProc, hj]
    have hhead := h.records.applying i message (by rw [happ]; exact List.mem_cons_self)
    refine ⟨h.entries, fun j => ?_, h.call, ⟨h.ballots.nodup, fun j k t v hb => ?_, fun j hj => ?_⟩,
      ⟨h.agreed.committed, fun j => ?_, h.agreed.started⟩,
      ⟨h.records.taken, fun j => ?_, h.records.call, fun j m hm => ?_, fun x hx => ?_⟩⟩
    · simp only [System.rf, hprocs]
      exact h.server j
    · simp only [System.rf, hprocs, (hsame j).1]
      exact h.ballots.fresh j k t v hb
    · simp only [System.rf, hprocs] at hj
      have hcounted := h.ballots.counted j hj
      unfold Counted at hcounted ⊢
      simp only [hprocs, (hsame j).1, (hsame j).2.1]
      exact hcounted
    · simp only [System.rf, hprocs]
      exact h.agreed.known j
    · simp only [System.rf, hprocs]
      exact h.records.server j
    · exact h.records.applying j m ((hsame j).2.2 m hm)
    · rcases List.mem_append.mp hx with hold | hnew
      · exact h.records.applied x hold
      · rw [List.mem_singleton.mp hnew]
        exact hhead

theorem Rel.reboot (h : Rel s A) (hA : (abstractSys n C).Reachable A) (i : Fin n) :
    ∃ s' A', s.reboot i = some s' ∧ (abstractSys n C).Star A A' ∧ Rel s' A' := by
  have hmake := (h.server i).holds.make (h.server i).synced i
  have hm := (h.server i).remade
  refine ⟨s.become i (.fresh ((s.rf i).remade i) ((s.procs i).incarnation + 1)) (A.log i) s.net,
    _, ?_, hm.star, ?_⟩
  · simp only [System.reboot, hmake, Option.bind_eq_bind, Option.bind_some, h.setRf_eq hm]
    rw [System.become_setProc _ _ _ _ (by rfl)]
    rfl
  · refine h.become (p := .fresh ((s.rf i).remade i) ((s.procs i).incarnation + 1)) hA hm
      (fun _ _ _ => False.elim) (fun c hc => Or.inl hc) ?_ ?_ (by simp [Proc.fresh])
    · refine h.ballots.become hA hm.star h.ballots.nodup (Or.inl (Nat.lt_succ_self _))
        (fun _ _ _ _ hb => Or.inl hb) fun hcand => ?_
      simp [Proc.fresh, Raft.remade, Raft.initial, Raft.rebuildEncodedLogs] at hcand
    · refine h.serverRecord hm rfl rfl fun m hmem => ?_
      simp [Proc.fresh, Raft.remade, Raft.initial, Raft.rebuildEncodedLogs] at hmem

theorem Rel.replicate (h : Rel s A) (hA : (abstractSys n C).Reachable A) (i peer : Fin n)
    {s' : System n C} (hs : s.step (.replicate i peer) = some s') : Rel s' A := by
  simp only [System.step] at hs
  split at hs
  · cases hs
  obtain ⟨request, hrun, hcases⟩ := (h.server i).holds.replicationRequest peer
  simp only [hrun, Option.bind_eq_bind, Option.bind_some] at hs
  rcases hcases with rfl | ⟨hlead, -, rfl⟩ | ⟨prev, hlead, -, -, hprev, rfl⟩
  · cases hs
  · cases hs
    rw [h.entries i]
    refine h.call_made (fun _ => rfl)
      (fun _ => ⟨(h.server i).snapshotRel hA hlead, by simp⟩) fun _ => ?_
    have hown := (h.records.server i).1
    rw [h.entries i] at hown
    exact hown
  · cases hs
    exact h.call_made (fun _ => rfl)
      (fun _ => ⟨(h.server i).entriesRel hA hlead hprev, by simp⟩) fun _ => trivial

theorem Rel.heartbeat (h : Rel s A) (hA : (abstractSys n C).Reachable A) (i peer : Fin n)
    {s' : System n C} (hs : s.step (.heartbeat i peer) = some s') : Rel s' A := by
  simp only [System.step] at hs
  split at hs
  · cases hs
  simp only [(h.server i).holds.heartbeatRequest, Option.bind_eq_bind, Option.bind_some] at hs
  split at hs
  · cases hs
  · rename_i hlead
    push Not at hlead
    cases hs
    refine h.call_made (fun _ => rfl) (fun _ => ?_) fun _ => trivial
    have hentries := (h.server i).entriesRel hA hlead.2 le_rfl
    rw [List.drop_length] at hentries
    exact hentries

theorem Rel.drop (h : Rel s A) (k : ℕ) : Rel (s.close k) A := by
  have hsub := ballots_eraseIdx s.net k
  refine ⟨h.entries, h.server, fun c hc => h.call c (List.mem_of_mem_eraseIdx hc),
    ⟨hsub.nodup h.ballots.nodup, fun j l t v hb => h.ballots.fresh j l t v (hsub.subset hb),
      fun j hj => ?_⟩,
    ⟨h.agreed.committed, h.agreed.known, h.agreed.started⟩,
    ⟨h.records.taken, h.records.server,
      fun c hc => h.records.call c (List.mem_of_mem_eraseIdx hc), h.records.applying,
      h.records.applied⟩⟩
  obtain ⟨Q, hcard, hQ⟩ := h.ballots.counted j hj
  exact ⟨Q, hcard, fun v hv => ⟨(hQ v hv).1, fun hb => (hQ v hv).2 (hsub.subset hb)⟩⟩

/-! ### The simulation -/

theorem Rel.step (h : Rel s A) (hA : (abstractSys n C).Reachable A) {a : Action n C}
    {s' : System n C} (hs : s.step a = some s') :
    ∃ A', (abstractSys n C).Star A A' ∧ Rel s' A' := by
  cases a with
  | startElection i => exact h.startElection hA i hs
  | start i command =>
      exact h.start hA i command hs
  | snapshot i index data => exact ⟨A, .refl, h.snapshot hA i index data hs⟩
  | replicate i peer => exact ⟨A, .refl, h.replicate hA i peer hs⟩
  | heartbeat i peer => exact ⟨A, .refl, h.heartbeat hA i peer hs⟩
  | deliver k =>
      simp only [System.step, Option.bind_eq_bind] at hs
      obtain ⟨c, hk, hs⟩ := Option.bind_eq_some_iff.mp hs
      split at hs
      · cases hs
      · rename_i hlive
        by_cases hreq : c.rpc.requestTerm = none
        · exact h.deliver_reply hA hk hreq (by simpa [hreq] using hlive) hs
        · exact h.deliver_request hA hk hreq hs
  | drop k =>
      simp only [System.step] at hs
      split at hs
      · cases hs
        exact ⟨A, .refl, h.drop k⟩
      · cases hs
  | claim i => exact ⟨A, .refl, h.claim hA i hs⟩
  | send i => exact ⟨A, .refl, h.send i hs⟩
  | kill i =>
      obtain ⟨A', hm, hq⟩ := (h.server i).kill
      simp only [System.step, Option.some.injEq] at hs
      subst hs
      rw [h.setRf_eq hm]
      exact ⟨A', hm.star, h.quiet hA hm (fun _ _ _ => False.elim) hq (List.Sublist.refl _)
        fun c hc => Or.inl hc⟩
  | restart i =>
      obtain ⟨s₁, A', hrun, hstar, hrel⟩ := h.reboot hA i
      simp only [System.step, hrun, Option.some.injEq] at hs
      subst hs
      exact ⟨A', hstar, hrel⟩
  | crashDuring k =>
      simp only [System.step, Option.bind_eq_bind] at hs
      obtain ⟨c, -, hs⟩ := Option.bind_eq_some_iff.mp hs
      obtain ⟨term, -, hs⟩ := Option.bind_eq_some_iff.mp hs
      split at hs
      · cases hs
      · rename_i hlive
        push Not at hlive
        have hm := (h.server c.dst).follow hA hlive.2
        have hclosed := h.close hA k hm (.follow _ _)
        obtain ⟨s₁, A', hrun, hstar, hrel⟩ := hclosed.reboot (hA.star hm.star) c.dst
        simp only [(h.server c.dst).holds.becomeFollowerLocked, Option.bind_some, hrun,
          Option.some.injEq] at hs
        subst hs
        exact ⟨A', hm.star.trans hstar, hrel⟩

theorem Rel.init : Rel (System.init n C) (Cluster.start (Fin n) (LogEntry C)) where
  entries _ := rfl
  server i :=
    { me := rfl
      term := rfl
      role := rfl
      vote := rfl
      commit := rfl
      holds := ⟨le_rfl, rfl, rfl, rfl⟩
      synced := ⟨rfl, rfl⟩
      base_le := le_rfl
      applied_le := le_rfl
      pending_le := by
        simp [System.rf, System.init, Proc.fresh, Raft.initial, Raft.rebuildEncodedLogs]
      matched := by
        simp [System.rf, System.init, Proc.fresh, Raft.initial, Raft.rebuildEncodedLogs] }
  call := by simp [System.init]
  ballots := ⟨by simp [System.init, RaftShardedKv.ballots],
    by simp [System.init, RaftShardedKv.ballots],
    by simp [System.rf, System.init, Proc.fresh, Raft.initial, Raft.rebuildEncodedLogs]⟩
  agreed := ⟨⟨0, Or.inl rfl⟩, fun i => by simp [Cluster.start], by simp [Cluster.start]⟩
  records := ⟨by simp [System.init],
    fun i => ⟨Or.inl rfl,
      by simp [System.rf, System.init, Proc.fresh, Raft.initial, Raft.rebuildEncodedLogs]⟩,
    by simp [System.init], by simp [System.init, Proc.fresh], by simp [System.init]⟩

/-- **Refinement.** Every run of the cluster is a run of the protocol. -/
theorem raft_simulation (n : ℕ) (C : Type) [Labgob C] :
    Simulation (raftSys n C) (abstractSys n C) Rel where
  init _ hs := ⟨_, rfl, hs ▸ Rel.init⟩
  step _ _ _ _ _ hA h hs := h.step hA hs

end RaftShardedKv
