import RaftShardedKv.Lib.Consensus.Election

/-!
Logs: every log in the system is made of what leaders wrote, and each
leader writes one log, whose terms never decrease and never exceed its
own. Log matching for any two servers is then `Follows.matching`.
-/

namespace RaftShardedKv.Consensus

open TermLog

variable {S E : Type*} [Termed E]

/-- What the logs of all servers and the logs of the history satisfy. -/
structure LogInv (s : Cluster S E) : Prop where
  lead_nil : ∀ {t}, s.leader t = none → s.lead t = []
  leader_log : ∀ {i}, s.role i = .leader → s.log i = s.lead (s.term i)
  candidate_log : ∀ {i}, s.role i = .candidate → s.voteLog (s.term i) i = s.log i
  log_follows : ∀ i, Follows s.lead (s.log i)
  lead_follows : ∀ t, Follows s.lead (s.lead t)
  vote_follows : ∀ {t v c}, s.vote t v = some c → Follows s.lead (s.voteLog t v)
  log_le : ∀ i k, termAt (s.log i) k ≤ s.term i
  lead_le : ∀ t k, termAt (s.lead t) k ≤ t
  -- a candidate stands with entries of earlier terms only
  self_lt : ∀ {t c}, s.vote t c = some c → ∀ k, termAt (s.voteLog t c) k < t
  lead_sorted : ∀ t, Sorted (s.lead t)
  up_to_date : ∀ {t v c}, s.vote t v = some c → UpToDate (s.voteLog t c) (s.voteLog t v)
  vote_lead : ∀ {t c}, s.leader t = some c → s.voteLog t c <+: s.lead t

theorem LogInv.start : LogInv (Cluster.start S E) := by
  constructor <;> intros <;>
    simp_all [Cluster.start, follows_nil, sorted_nil]
  all_goals
    rename_i k
    cases k <;> simp [termAt]

variable [DecidableEq S] [Fintype S]

/-- How the log of a term's leader changes: not at all, or it is the log
of a freshly elected leader, or the leader adds an entry of its term. -/
theorem Step.lead_cases {s s' : Cluster S E} (hs : Step s s') (he : ElectionInv s) (t : ℕ) :
    s'.lead t = s.lead t ∨
      (∃ c, t = s.term c ∧ s.role c = .candidate ∧ s.leader t = none ∧
        s'.lead t = s.log c ∧ s' = s.elect c) ∨
      (∃ i e, t = s.term i ∧ s.role i = .leader ∧ Termed.term e = t ∧
        s'.lead t = s.lead t ++ [e] ∧ s' = s.append i e) := by
  cases hs with
  | elect c hc hq =>
      rcases eq_or_ne t (s.term c) with rfl | hne
      · exact Or.inr (Or.inl ⟨c, rfl, hc, he.leader_none hc hq, by simp [Cluster.elect], rfl⟩)
      · exact Or.inl (by simp [Cluster.elect, hne])
  | append i e hi hterm =>
      rcases eq_or_ne t (s.term i) with rfl | hne
      · exact Or.inr (Or.inr ⟨i, e, rfl, hi, hterm, by simp [Cluster.append], rfl⟩)
      · exact Or.inl (by simp [Cluster.append, hne])
  | _ => exact Or.inl rfl

theorem Step.lead_mono {s s' : Cluster S E} (hs : Step s s') (he : ElectionInv s)
    (h : LogInv s) (t : ℕ) : s.lead t <+: s'.lead t := by
  rcases hs.lead_cases he t with heq | ⟨c, _, _, hl, _⟩ | ⟨i, e, _, _, _, heq, _⟩
  · rw [heq]
  · rw [h.lead_nil hl]
    exact List.nil_prefix
  · rw [heq]
    exact List.prefix_append _ _

theorem Step.log_cases {s s' : Cluster S E} (hs : Step s s') (i : S) :
    s'.log i = s.log i ∨
      (∃ e, s.role i = .leader ∧ Termed.term e = s.term i ∧ s'.log i = s.log i ++ [e] ∧
        s' = s.append i e) ∨
      (∃ t m, s.leader t ≠ none ∧ s.term i ≤ t ∧ m ≤ (s.lead t).length ∧
        s'.log i = adopt (s.log i) ((s.lead t).take m) ∧ s' = s.accept i t m) := by
  cases hs with
  | append j e hj hterm =>
      rcases eq_or_ne i j with rfl | hne
      · exact Or.inr (Or.inl ⟨e, hj, hterm, by simp [Cluster.append], rfl⟩)
      · exact Or.inl (by simp [Cluster.append, hne])
  | accept j t m hl ht hm =>
      rcases eq_or_ne i j with rfl | hne
      · exact Or.inr (Or.inr ⟨t, m, hl, ht, hm, by simp [Cluster.accept], rfl⟩)
      · exact Or.inl (by simp [Cluster.accept, hne])
  | _ => exact Or.inl rfl

theorem adopt_le {ℓ P : List E} {t : ℕ} (hℓ : ∀ k, termAt ℓ k ≤ t) (hP : ∀ k, termAt P k ≤ t)
    (k : ℕ) : termAt (adopt ℓ P) k ≤ t := by
  by_cases h : P <+: ℓ
  · rw [adopt_of_holds h]; exact hℓ k
  · rw [adopt_of_not_holds h]; exact hP k

/-- A leader has the log of its term. -/
theorem LogInv.leader_log_step {s s' : Cluster S E} (h : LogInv s) (he : ElectionInv s)
    (hs : Step s s') {i : S} (hi : s'.role i = .leader) : s'.log i = s'.lead (s'.term i) := by
  rcases hs.role_cases i with ⟨hr, ht⟩ | hf | rfl | ⟨rfl, _⟩
  · rw [hr] at hi
    rw [ht]
    have hlog := h.leader_log hi
    have hled := he.leader_role hi
    cases hs with
    | append j e hj hterm =>
        rcases eq_or_ne i j with rfl | hij
        · simp [Cluster.append, hlog]
        · have hne : s.term i ≠ s.term j := by
            intro heq
            rw [heq, he.leader_role hj] at hled
            exact hij (Option.some.inj hled).symm
          simp [Cluster.append, hij, hne, hlog]
    | elect c hc hq =>
        have hne : s.term i ≠ s.term c := by
          intro heq
          rw [heq, he.leader_none hc hq] at hled
          cases hled
        simp [Cluster.elect, hne, hlog]
    | accept j t m hl htj hm =>
        have hij : i ≠ j := by
          rintro rfl
          simp [Cluster.accept, hi] at hr
        simp [Cluster.accept, hij, hlog]
    | _ => exact hlog
  · rw [hf] at hi
    cases hi
  · simp [Cluster.timeout] at hi
  · simp [Cluster.elect]

theorem LogInv.log_follows_step {s s' : Cluster S E} (h : LogInv s) (he : ElectionInv s)
    (hs : Step s s') (i : S) : Follows s'.lead (s'.log i) := by
  have hlead : ∀ t, s.lead t <+: s'.lead t := hs.lead_mono he h
  rcases hs.log_cases i with heq | ⟨e, hi, hterm, heq, rfl⟩ | ⟨t, m, _, _, _, heq, _⟩
  · rw [heq]
    exact (h.log_follows i).mono hlead
  · rw [heq]
    refine ((h.log_follows i).mono hlead).concat ?_
    rw [hterm, h.leader_log hi]
    simp [Cluster.append]
  · rw [heq]
    by_cases hP : (s.lead t).take m <+: s.log i
    · rw [adopt_of_holds hP]
      exact (h.log_follows i).mono hlead
    · rw [adopt_of_not_holds hP]
      exact ((h.lead_follows t).of_initial (List.take_prefix m _)).mono hlead

theorem LogInv.step {s s' : Cluster S E} (h : LogInv s) (he : ElectionInv s) (hs : Step s s') :
    LogInv s' where
  lead_nil {t} hl := by
    rcases hs.lead_cases he t with heq | ⟨c, rfl, _, _, _, rfl⟩ | ⟨i, e, rfl, hi, _, _, rfl⟩
    · rw [heq]
      refine h.lead_nil ?_
      cases hold : s.leader t with
      | none => rfl
      | some c =>
          rw [hs.leader_mono he hold] at hl
          cases hl
    · simp [Cluster.elect] at hl
    · rw [hs.leader_mono he (he.leader_role hi)] at hl
      cases hl
  leader_log hi := h.leader_log_step he hs hi
  candidate_log {i} hi := by
    rcases hs.role_cases i with ⟨hr, ht⟩ | hf | rfl | ⟨rfl, _⟩
    · rw [hr] at hi
      rw [ht, (hs.vote_mono he (he.candidate_vote hi)).2, h.candidate_log hi]
      rcases hs.log_cases i with heq | ⟨e, hl, _⟩ | ⟨t, m, _, _, _, _, rfl⟩
      · rw [heq]
      · rw [hi] at hl
        cases hl
      · simp [Cluster.accept, hi] at hr
    · rw [hf] at hi
      cases hi
    · simp [Cluster.timeout]
    · simp [Cluster.elect] at hi
  log_follows i := h.log_follows_step he hs i
  lead_follows t := by
    have hlead := hs.lead_mono he h
    rcases hs.lead_cases he t with heq | ⟨c, _, _, _, heq, _⟩ | ⟨i, e, _, _, hterm, heq, _⟩
    · rw [heq]
      exact (h.lead_follows t).mono hlead
    · rw [heq]
      exact (h.log_follows c).mono hlead
    · have hfol := (h.lead_follows t).mono hlead
      rw [heq]
      refine hfol.concat ?_
      rw [hterm, heq]
  vote_follows {t v c} hv := by
    rcases hs.vote_cases hv with hold | ⟨rfl, rfl, rfl⟩ | ⟨rfl, _, _, _, rfl⟩
    · rw [(hs.vote_mono he hold).2]
      exact (h.vote_follows hold).mono (hs.lead_mono he h)
    · simpa [Cluster.timeout] using h.log_follows c
    · simpa [Cluster.grant] using h.log_follows v
  log_le i := by
    rcases hs.log_cases i with heq | ⟨e, hi, hterm, heq, rfl⟩ | ⟨t, m, _, ht, _, heq, rfl⟩
    · rw [heq]
      exact fun k => (h.log_le i k).trans (hs.term_le i)
    · rw [heq]
      exact termAt_concat_le (h.log_le i) hterm.le
    · rw [heq]
      simp only [Cluster.accept, Function.update_self]
      exact adopt_le (fun k => (h.log_le i k).trans ht)
        (termAt_prefix_le (List.take_prefix m _) (h.lead_le t))
  lead_le t := by
    rcases hs.lead_cases he t with heq | ⟨c, rfl, _, _, heq, _⟩ | ⟨i, e, _, _, hterm, heq, _⟩
    · rw [heq]
      exact h.lead_le t
    · rw [heq]
      exact h.log_le c
    · rw [heq]
      exact termAt_concat_le (h.lead_le t) hterm.le
  self_lt {t c} hc k := by
    rcases hs.vote_cases hc with hold | ⟨rfl, _, rfl⟩ | ⟨rfl, hc', hv', _⟩
    · rw [(hs.vote_mono he hold).2]
      exact h.self_lt hold k
    · simpa [Cluster.timeout, Nat.lt_succ_iff] using h.log_le c k
    · rw [hc'] at hv'
      cases hv'
  lead_sorted t := by
    rcases hs.lead_cases he t with heq | ⟨c, _, _, _, heq, _⟩ | ⟨i, e, _, _, hterm, heq, _⟩
    · rw [heq]
      exact h.lead_sorted t
    · rw [heq]
      exact (h.log_follows c).sorted h.lead_sorted
    · rw [heq]
      refine (h.lead_sorted t).concat ?_
      rw [hterm]
      exact h.lead_le t
  up_to_date {t v c} hv := by
    rcases hs.vote_cases hv with hold | ⟨rfl, rfl, rfl⟩ | ⟨rfl, hc, _, hup, rfl⟩
    · rw [(hs.vote_mono he hold).2, (hs.vote_mono he (he.vote_self hold)).2]
      exact h.up_to_date hold
    · exact UpToDate.refl _
    · rw [(hs.vote_mono he hc).2]
      simpa [Cluster.grant] using hup
  vote_lead {t c} hl := by
    rcases hs.leader_cases hl with hold | ⟨rfl, rfl, hc, _⟩
    · obtain ⟨v, hv⟩ : ∃ v, s.vote t v = some c := by
        obtain ⟨v, hv, _⟩ := (he.leader_quorum hold).inter (he.leader_quorum hold)
        exact ⟨v, hv⟩
      rw [(hs.vote_mono he (he.vote_self hv)).2]
      exact (h.vote_lead hold).trans (hs.lead_mono he h t)
    · have hlog := h.candidate_log hc
      simp [Cluster.elect, hlog]

end RaftShardedKv.Consensus
