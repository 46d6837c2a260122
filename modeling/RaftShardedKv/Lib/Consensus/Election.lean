import RaftShardedKv.Lib.Consensus.Protocol

/-!
Elections: a server votes once in a term, so a term has one leader, and
a leader is elected once. The invariant ties the votes, the leaders and
the roles together; `leader_none` is the use every later module makes of
it.
-/

namespace RaftShardedKv.Consensus

open TermLog

variable {S E : Type*} [Fintype S]

/-- What the votes and the leaders of all terms satisfy. -/
structure ElectionInv (s : Cluster S E) : Prop where
  vote_le : ∀ {t v c}, s.vote t v = some c → t ≤ s.term v
  -- votes go to servers that stand for election
  vote_self : ∀ {t v c}, s.vote t v = some c → s.vote t c = some c
  candidate_vote : ∀ {i}, s.role i = .candidate → s.vote (s.term i) i = some i
  leader_quorum : ∀ {t c}, s.leader t = some c → Quorum fun v => s.vote t v = some c
  leader_le : ∀ {t c}, s.leader t = some c → t ≤ s.term c
  leader_role : ∀ {i}, s.role i = .leader → s.leader (s.term i) = some i
  -- who has been elected in its term is no candidate in it any more
  not_candidate : ∀ {i}, s.leader (s.term i) = some i → s.role i ≠ .candidate

theorem ElectionInv.start : ElectionInv (Cluster.start S E) := by
  constructor <;> intros <;> simp_all [Cluster.start]

theorem ElectionInv.leader_none {s : Cluster S E} (h : ElectionInv s) {c : S}
    (hc : s.role c = .candidate) (hq : Quorum fun v => s.vote (s.term c) v = some c) :
    s.leader (s.term c) = none := by
  cases hl : s.leader (s.term c) with
  | none => rfl
  | some d =>
      have hdc : d = c := (h.leader_quorum hl).unique hq
      subst hdc
      exact absurd hc (h.not_candidate hl)

theorem ElectionInv.vote_next {s : Cluster S E} (h : ElectionInv s) (i : S) :
    s.vote (s.term i + 1) i = none := by
  cases hv : s.vote (s.term i + 1) i with
  | none => rfl
  | some c =>
      have := h.vote_le hv
      omega

variable [DecidableEq S] [Termed E]

theorem Step.term_le {s s' : Cluster S E} (hs : Step s s') (j : S) : s.term j ≤ s'.term j := by
  cases hs with
  | observe i t ht | accept i t m hl ht hm =>
      rcases eq_or_ne j i with rfl | hj
      · simpa [Cluster.observe, Cluster.accept] using ht
      · simp [Cluster.observe, Cluster.accept, hj]
  | timeout i =>
      rcases eq_or_ne j i with rfl | hj
      · simp [Cluster.timeout]
      · simp [Cluster.timeout, hj]
  | _ => exact le_rfl

theorem Step.vote_mono {s s' : Cluster S E} (hs : Step s s') (h : ElectionInv s) {t : ℕ}
    {v c : S} (hv : s.vote t v = some c) :
    s'.vote t v = some c ∧ s'.voteLog t v = s.voteLog t v := by
  cases hs with
  | timeout i =>
      have hne : ¬ (t = s.term i + 1 ∧ v = i) := by
        rintro ⟨rfl, rfl⟩
        rw [h.vote_next] at hv
        cases hv
      exact ⟨(set2_of_ne _ _ _ _ _ _ hne).trans hv, set2_of_ne _ _ _ _ _ _ hne⟩
  | grant v' c' hc hv' hup =>
      have hne : ¬ (t = s.term v' ∧ v = v') := by
        rintro ⟨rfl, rfl⟩
        rw [hv'] at hv
        cases hv
      exact ⟨(set2_of_ne _ _ _ _ _ _ hne).trans hv, set2_of_ne _ _ _ _ _ _ hne⟩
  | _ => exact ⟨hv, rfl⟩

theorem Step.leader_mono {s s' : Cluster S E} (hs : Step s s') (h : ElectionInv s) {t : ℕ}
    {c : S} (hl : s.leader t = some c) : s'.leader t = some c := by
  cases hs with
  | elect c' hc hq =>
      have hne : t ≠ s.term c' := by
        rintro rfl
        rw [h.leader_none hc hq] at hl
        cases hl
      simpa [Cluster.elect, hne] using hl
  | _ => exact hl

theorem Step.vote_cases {s s' : Cluster S E} (hs : Step s s') {t : ℕ} {v c : S}
    (hv : s'.vote t v = some c) :
    s.vote t v = some c ∨
      (t = s.term v + 1 ∧ c = v ∧ s' = s.timeout v) ∨
      (t = s.term v ∧ s.vote t c = some c ∧ s.vote t v = none ∧
        UpToDate (s.voteLog t c) (s.log v) ∧ s' = s.grant v c) := by
  cases hs with
  | timeout i =>
      rcases set2_cases s.vote (s.term i + 1) t i v (some i) with ⟨ht, hvi, heq⟩ | ⟨_, heq⟩
      · subst hvi
        have hc : some v = some c := heq.symm.trans hv
        exact Or.inr (Or.inl ⟨ht, (Option.some.inj hc).symm, rfl⟩)
      · exact Or.inl (heq.symm.trans hv)
  | grant v' c' hc hv' hup =>
      rcases set2_cases s.vote (s.term v') t v' v (some c') with ⟨ht, hvi, heq⟩ | ⟨_, heq⟩
      · subst hvi ht
        have hcc : some c' = some c := heq.symm.trans hv
        obtain rfl := Option.some.inj hcc
        exact Or.inr (Or.inr ⟨rfl, hc, hv', hup, rfl⟩)
      · exact Or.inl (heq.symm.trans hv)
  | _ => exact Or.inl hv

/-- Where a role of the next state comes from: it is the old one in the
old term, the role of a follower, or one that was just reached. -/
theorem Step.role_cases {s s' : Cluster S E} (hs : Step s s') (i : S) :
    (s'.role i = s.role i ∧ s'.term i = s.term i) ∨ s'.role i = .follower ∨
      s' = s.timeout i ∨
      (s' = s.elect i ∧ s.role i = .candidate ∧
        Quorum fun v => s.vote (s.term i) v = some i) := by
  cases hs with
  | observe j t ht | accept j t m hl ht hm =>
      rcases eq_or_ne i j with rfl | hj
      · exact Or.inr (Or.inl (by simp [Cluster.observe, Cluster.accept]))
      · exact Or.inl (by simp [Cluster.observe, Cluster.accept, hj])
  | timeout j =>
      rcases eq_or_ne i j with rfl | hj
      · exact Or.inr (Or.inr (Or.inl rfl))
      · exact Or.inl (by simp [Cluster.timeout, hj])
  | elect j hc hq =>
      rcases eq_or_ne i j with rfl | hj
      · exact Or.inr (Or.inr (Or.inr ⟨rfl, hc, hq⟩))
      · exact Or.inl (by simp [Cluster.elect, hj])
  | restart j c hc =>
      rcases eq_or_ne i j with rfl | hj
      · exact Or.inr (Or.inl (by simp [Cluster.restart]))
      · exact Or.inl (by simp [Cluster.restart, hj])
  | _ => exact Or.inl ⟨rfl, rfl⟩

theorem Step.leader_cases {s s' : Cluster S E} (hs : Step s s') {t : ℕ} {c : S}
    (hl : s'.leader t = some c) :
    s.leader t = some c ∨ (t = s.term c ∧ s' = s.elect c ∧ s.role c = .candidate ∧
      Quorum fun v => s.vote (s.term c) v = some c) := by
  cases hs with
  | elect c' hc hq =>
      rcases eq_or_ne t (s.term c') with rfl | hne
      · have hcc : some c' = some c := by simpa [Cluster.elect] using hl
        obtain rfl := Option.some.inj hcc
        exact Or.inr ⟨rfl, rfl, hc, hq⟩
      · exact Or.inl (by simpa [Cluster.elect, hne] using hl)
  | _ => exact Or.inl hl

theorem ElectionInv.step {s s' : Cluster S E} (h : ElectionInv s) (hs : Step s s') :
    ElectionInv s' where
  vote_le {t v c} hv := by
    rcases hs.vote_cases hv with hold | ⟨rfl, _, rfl⟩ | ⟨rfl, _, _, _, rfl⟩
    · exact (h.vote_le hold).trans (hs.term_le v)
    · simp [Cluster.timeout]
    · simp [Cluster.grant]
  vote_self {t v c} hv := by
    rcases hs.vote_cases hv with hold | ⟨rfl, rfl, _⟩ | ⟨_, hc, _⟩
    · exact (hs.vote_mono h (h.vote_self hold)).1
    · exact hv
    · exact (hs.vote_mono h hc).1
  candidate_vote {i} hi := by
    rcases hs.role_cases i with ⟨hr, ht⟩ | hf | rfl | ⟨rfl, _⟩
    · rw [hr] at hi
      rw [ht]
      exact (hs.vote_mono h (h.candidate_vote hi)).1
    · rw [hf] at hi
      cases hi
    · simp [Cluster.timeout]
    · simp [Cluster.elect] at hi
  leader_quorum {t c} hl := by
    rcases hs.leader_cases hl with hold | ⟨rfl, _, _, hq⟩
    · exact (h.leader_quorum hold).mono fun v hv => (hs.vote_mono h hv).1
    · exact hq.mono fun v hv => (hs.vote_mono h hv).1
  leader_le {t c} hl := by
    rcases hs.leader_cases hl with hold | ⟨rfl, _⟩
    · exact (h.leader_le hold).trans (hs.term_le c)
    · exact hs.term_le c
  leader_role {i} hi := by
    rcases hs.role_cases i with ⟨hr, ht⟩ | hf | rfl | ⟨rfl, _⟩
    · rw [hr] at hi
      rw [ht]
      exact hs.leader_mono h (h.leader_role hi)
    · rw [hf] at hi
      cases hi
    · simp [Cluster.timeout] at hi
    · simp [Cluster.elect]
  not_candidate {i} hl hi := by
    rcases hs.role_cases i with ⟨hr, ht⟩ | hf | rfl | ⟨rfl, _⟩
    · rw [hr] at hi
      rw [ht] at hl
      rcases hs.leader_cases hl with hold | ⟨_, rfl, _⟩
      · exact h.not_candidate hold hi
      · simp [Cluster.elect, hi] at hr
    · rw [hf] at hi
      cases hi
    · -- nobody has led a term before standing in it
      have hl' : s.leader (s.term i + 1) = some i := by simpa [Cluster.timeout] using hl
      have := h.leader_le hl'
      omega
    · simp [Cluster.elect] at hi

end RaftShardedKv.Consensus
