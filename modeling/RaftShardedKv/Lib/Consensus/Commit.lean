import RaftShardedKv.Lib.Consensus.Completeness

/-!
What is committed is committed for good. The invariant of the whole
protocol is assembled here, together with the three facts an
implementation takes from it: a committed prefix is part of the log of
every later leader, two committed prefixes never contradict each other,
and no step of any server takes a committed entry out of its log.
-/

namespace RaftShardedKv.Consensus

open TermLog Transition

variable {S E : Type*} [Fintype S] [Termed E] [DecidableEq S]

/-- The invariant of the protocol. -/
structure Inv (s : Cluster S E) : Prop where
  election : ElectionInv s
  logs : LogInv s
  acks : AckInv s
  commit_le : ∀ i, s.commit i ≤ (s.log i).length
  commit : ∀ i, CommittedPrefix s (s.term i) ((s.log i).take (s.commit i))

theorem Committed.step {s s' : Cluster S E} {T N : ℕ} (h : Committed s T N)
    (he : ElectionInv s) (hl : LogInv s) (ha : AckInv s) (hs : Step s s') :
    Committed s' T N := by
  obtain ⟨hled, hN, hlen, hterm, hq⟩ := h
  have hpre := hs.lead_mono he hl T
  refine ⟨hs.leader_ne_none he hled, hN, hlen.trans hpre.length_le, ?_, ?_⟩
  · rw [← termAt_eq_of_prefix_le hpre hlen, hterm]
  · exact hq.mono fun v hv => hv.trans (hs.acked_mono he hl ha T v)

omit [DecidableEq S] in
theorem CommittedPrefix.mono {s : Cluster S E} {u u' : ℕ} {P Q : List E}
    (h : CommittedPrefix s u P) (hu : u ≤ u') (hQ : Q <+: P) : CommittedPrefix s u' Q := by
  rcases h with rfl | ⟨T, N, hT, hc, hP⟩
  · exact Or.inl (List.prefix_nil.mp hQ)
  · exact Or.inr ⟨T, N, hT.trans hu, hc, hQ.trans hP⟩

theorem CommittedPrefix.step {s s' : Cluster S E} {u : ℕ} {P : List E}
    (h : CommittedPrefix s u P) (he : ElectionInv s) (hl : LogInv s) (ha : AckInv s)
    (hs : Step s s') : CommittedPrefix s' u P := by
  rcases h with rfl | ⟨T, N, hT, hc, hP⟩
  · exact Or.inl rfl
  · refine Or.inr ⟨T, N, hT, hc.step he hl ha hs, ?_⟩
    rwa [hs.take_lead he hl hc.2.2.1]

omit [DecidableEq S] in
theorem CommittedPrefix.prefix_lead {s : Cluster S E} {u t : ℕ} {P : List E}
    (h : CommittedPrefix s u P) (he : ElectionInv s) (hl : LogInv s) (ha : AckInv s)
    (hu : u ≤ t) (ht : s.leader t ≠ none) : P <+: s.lead t := by
  rcases h with rfl | ⟨T, N, hT, hc, hP⟩
  · exact List.nil_prefix
  · rcases Nat.lt_or_ge T t with hlt | hge
    · obtain ⟨c, hleader⟩ := Option.ne_none_iff_exists'.mp ht
      exact hP.trans ((leader_complete he hl ha hc hlt hleader).trans (hl.vote_lead hleader))
    · have hTt : T = t := by omega
      subst hTt
      exact hP.trans (List.take_prefix _ _)

omit [DecidableEq S] in
/-- **Agreement.** Of two committed prefixes one extends the other. -/
theorem CommittedPrefix.comparable {s : Cluster S E} {u u' : ℕ} {P Q : List E}
    (hP : CommittedPrefix s u P) (hQ : CommittedPrefix s u' Q) (he : ElectionInv s)
    (hl : LogInv s) (ha : AckInv s) : P <+: Q ∨ Q <+: P := by
  rcases hP with rfl | ⟨T, N, hT, hc, hPT⟩
  · exact Or.inl List.nil_prefix
  rcases hQ with rfl | ⟨T', N', hT', hc', hQT⟩
  · exact Or.inr List.nil_prefix
  -- both are prefixes of the log of the later of the two leaders
  have hP' : CommittedPrefix s T P := Or.inr ⟨T, N, le_rfl, hc, hPT⟩
  have hQ' : CommittedPrefix s T' Q := Or.inr ⟨T', N', le_rfl, hc', hQT⟩
  rcases le_total T T' with hle | hle
  · exact List.prefix_or_prefix_of_prefix (hP'.prefix_lead he hl ha hle hc'.1)
      (hQ'.prefix_lead he hl ha le_rfl hc'.1)
  · exact List.prefix_or_prefix_of_prefix (hP'.prefix_lead he hl ha le_rfl hc.1)
      (hQ'.prefix_lead he hl ha hle hc.1)

theorem CommittedPrefix.kept {s s' : Cluster S E} {i : S} {K : List E}
    (h : CommittedPrefix s (s.term i) K) (hK : K <+: s.log i) (he : ElectionInv s)
    (hl : LogInv s) (ha : AckInv s) (hs : Step s s') : K <+: s'.log i := by
  rcases hs.log_cases i with heq | ⟨e, _, _, heq, _⟩ | ⟨t, m, hled, ht, _, heq, _⟩
  · rwa [heq]
  · rw [heq]
    exact hK.trans (List.prefix_append _ _)
  · rw [heq]
    exact prefix_adopt_of_common hK (h.prefix_lead he hl ha ht hled) (List.take_prefix _ _)

theorem Step.commit_cases {s s' : Cluster S E} (hs : Step s s') (i : S) :
    s'.commit i = s.commit i ∨
      (s'.log i = s.log i ∧ s'.term i = s.term i ∧ s'.commit i ≤ (s.log i).length ∧
        CommittedPrefix s (s.term i) ((s.log i).take (s'.commit i))) ∨
      (s'.log i = s.log i ∧ s'.term i = s.term i ∧ s'.commit i ≤ s.commit i) := by
  cases hs with
  | commit j c hc hp =>
      rcases eq_or_ne i j with rfl | hij
      · exact Or.inr (Or.inl (by simpa [Cluster.setCommit] using ⟨hc, hp⟩))
      · exact Or.inl (by simp [Cluster.setCommit, hij])
  | restart j c hc =>
      rcases eq_or_ne i j with rfl | hij
      · exact Or.inr (Or.inr (by simpa [Cluster.restart] using hc))
      · exact Or.inl (by simp [Cluster.restart, hij])
  | _ => exact Or.inl rfl

omit [DecidableEq S] in
theorem Inv.start : Inv (Cluster.start S E) where
  election := .start
  logs := .start
  acks := .start
  commit_le i := by simp [Cluster.start]
  commit i := Or.inl (by simp [Cluster.start])

theorem Inv.step {s s' : Cluster S E} (h : Inv s) (hs : Step s s') : Inv s' := by
  obtain ⟨he, hl, ha, hle, hcommit⟩ := h
  have hpost : ∀ i, s'.commit i ≤ (s'.log i).length ∧
      CommittedPrefix s' (s'.term i) ((s'.log i).take (s'.commit i)) := by
    intro i
    rcases hs.commit_cases i with heq | ⟨hlog, hterm, hc, hp⟩ | ⟨hlog, hterm, hc⟩
    · have hkept := (hcommit i).kept (List.take_prefix _ _) he hl ha hs
      have hlen := hkept.length_le
      rw [List.length_take, min_eq_left (hle i)] at hlen
      have htake : (s'.log i).take (s.commit i) = (s.log i).take (s.commit i) := by
        rw [take_eq_of_prefix_le hkept (by simp [hle i]), List.take_take, min_self]
      rw [heq, htake]
      exact ⟨hlen, ((hcommit i).step he hl ha hs).mono (hs.term_le i) List.prefix_rfl⟩
    · rw [hlog, hterm]
      exact ⟨hc, hp.step he hl ha hs⟩
    · rw [hlog, hterm]
      refine ⟨hc.trans (hle i), ((hcommit i).step he hl ha hs).mono le_rfl ?_⟩
      rw [← min_eq_left hc, ← List.take_take]
      exact List.take_prefix _ _
  exact ⟨he.step hs, hl.step he hs, ha.step he hl hs, fun i => (hpost i).1, fun i => (hpost i).2⟩

theorem Inv.reachable {s : Cluster S E} (h : (protocol S E).Reachable s) : Inv s :=
  h.invariant (fun _ hi => hi ▸ .start) fun _ _ _ _ ih hs => ih.step hs

/-! ### Over several steps -/

theorem leader_star {s s' : Cluster S E} (hr : (protocol S E).Reachable s)
    (hs : (protocol S E).Star s s') {t : ℕ} {c : S} (h : s.leader t = some c) :
    s'.leader t = some c :=
  hs.preserves (P := fun s => s.leader t = some c) hr
    (fun _ _ _ hr hP hstep => hstep.leader_mono (Inv.reachable hr).election hP) h

theorem lead_star {s s' : Cluster S E} (hr : (protocol S E).Reachable s)
    (hs : (protocol S E).Star s s') (t : ℕ) : s.lead t <+: s'.lead t :=
  hs.preserves (P := fun s' => s.lead t <+: s'.lead t) hr
    (fun _ _ _ hr hP hstep =>
      hP.trans (hstep.lead_mono (Inv.reachable hr).election (Inv.reachable hr).logs t))
    List.prefix_rfl

theorem committedPrefix_star {s s' : Cluster S E} (hr : (protocol S E).Reachable s)
    (hs : (protocol S E).Star s s') {u : ℕ} {P : List E} (h : CommittedPrefix s u P) :
    CommittedPrefix s' u P :=
  hs.preserves (P := fun s => CommittedPrefix s u P) hr
    (fun _ _ _ hr hP hstep => hP.step (Inv.reachable hr).election (Inv.reachable hr).logs
      (Inv.reachable hr).acks hstep) h

theorem acked_star {s s' : Cluster S E} (hr : (protocol S E).Reachable s)
    (hs : (protocol S E).Star s s') (t : ℕ) (v : S) : s.acked t v ≤ s'.acked t v :=
  hs.preserves (P := fun s' => s.acked t v ≤ s'.acked t v) hr
    (fun _ _ _ hr hP hstep => hP.trans (hstep.acked_mono (Inv.reachable hr).election
      (Inv.reachable hr).logs (Inv.reachable hr).acks t v)) le_rfl

theorem vote_star {s s' : Cluster S E} (hr : (protocol S E).Reachable s)
    (hs : (protocol S E).Star s s') {t : ℕ} {v c : S} (h : s.vote t v = some c) :
    s'.vote t v = some c :=
  hs.preserves (P := fun s => s.vote t v = some c) hr
    (fun _ _ _ hr hP hstep => (hstep.vote_mono (Inv.reachable hr).election hP).1) h

theorem voteLog_star {s s' : Cluster S E} (hr : (protocol S E).Reachable s)
    (hs : (protocol S E).Star s s') {t : ℕ} {v c : S} (h : s.vote t v = some c) :
    s'.voteLog t v = s.voteLog t v :=
  (hs.preserves (P := fun s' => s'.vote t v = some c ∧ s'.voteLog t v = s.voteLog t v) hr
    (fun _ _ _ hr hP hstep =>
      have hmono := hstep.vote_mono (Inv.reachable hr).election hP.1
      ⟨hmono.1, hmono.2.trans hP.2⟩) ⟨h, rfl⟩).2

theorem log_star {s s' : Cluster S E} (hr : (protocol S E).Reachable s)
    (hs : (protocol S E).Star s s') {i : S} {K : List E} (h : CommittedPrefix s (s.term i) K)
    (hK : K <+: s.log i) : K <+: s'.log i := by
  refine (hs.preserves (P := fun s' => CommittedPrefix s' (s'.term i) K ∧ K <+: s'.log i) hr
    (fun s₁ _ s₂ hr hP hstep => ?_) ⟨h, hK⟩).2
  have hinv := Inv.reachable hr
  exact ⟨(hP.1.step hinv.election hinv.logs hinv.acks hstep).mono (hstep.term_le i)
    List.prefix_rfl, hP.1.kept hP.2 hinv.election hinv.logs hinv.acks hstep⟩

/-- A server that led a term and does not lead it any more never leads
it again. -/
theorem deposed_star {s s' : Cluster S E} (hr : (protocol S E).Reachable s)
    (hs : (protocol S E).Star s s') {i : S} {t : ℕ} (hl : s.leader t = some i)
    (h : ¬ (s.role i = .leader ∧ s.term i = t)) :
    ¬ (s'.role i = .leader ∧ s'.term i = t) := by
  refine (hs.preserves (P := fun s => s.leader t = some i ∧
    ¬ (s.role i = .leader ∧ s.term i = t)) hr (fun s₁ _ s₂ hr hP hstep => ?_) ⟨hl, h⟩).2
  have he := (Inv.reachable hr).election
  refine ⟨hstep.leader_mono he hP.1, fun hc => ?_⟩
  rcases hstep.role_cases i with ⟨hrole, hterm⟩ | hfollower | rfl | ⟨rfl, hcand, hq⟩
  · exact hP.2 ⟨hrole ▸ hc.1, hterm ▸ hc.2⟩
  · rw [hfollower] at hc
    cases hc.1
  · simp [Cluster.timeout] at hc
  · have hterm : s₁.term i = t := hc.2
    have hnone := he.leader_none hcand hq
    rw [hterm, hP.1] at hnone
    cases hnone

theorem term_star {s s' : Cluster S E} (hr : (protocol S E).Reachable s)
    (hs : (protocol S E).Star s s') (i : S) : s.term i ≤ s'.term i :=
  hs.preserves (P := fun s' => s.term i ≤ s'.term i) hr
    (fun _ _ _ _ hP hstep => hP.trans (hstep.term_le i)) le_rfl

/-- **Leader completeness over time.** What is committed at one moment of
a run is in the log of every leader of a later term at every other
moment, also before it was committed: the leader has had it since it
stood for election. -/
theorem CommittedPrefix.lead_any {s₁ s₂ s : Cluster S E} (hr₁ : (protocol S E).Reachable s₁)
    (hr₂ : (protocol S E).Reachable s₂) (hs₁ : (protocol S E).Star s₁ s)
    (hs₂ : (protocol S E).Star s₂ s) {u t : ℕ} {c : S} {P : List E}
    (hP : CommittedPrefix s₁ u P) (hut : u < t) (hlead : s₂.leader t = some c) :
    P <+: s₂.lead t := by
  have hinv := Inv.reachable (hr₁.star hs₁)
  have hinv₂ := Inv.reachable hr₂
  rcases committedPrefix_star hr₁ hs₁ hP with rfl | ⟨T, N, hT, hc, hPT⟩
  · exact List.nil_prefix
  obtain ⟨v, hvote, -⟩ :=
    (hinv₂.election.leader_quorum hlead).inter (hinv₂.election.leader_quorum hlead)
  have hself := hinv₂.election.vote_self hvote
  calc P <+: (s.lead T).take N := hPT
    _ <+: s.voteLog t c := leader_complete hinv.election hinv.logs hinv.acks hc (by omega)
      (leader_star hr₂ hs₂ hlead)
    _ = s₂.voteLog t c := voteLog_star hr₂ hs₂ hself
    _ <+: s₂.lead t := hinv₂.logs.vote_lead hlead

end RaftShardedKv.Consensus
