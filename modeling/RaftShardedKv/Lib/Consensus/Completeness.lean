import RaftShardedKv.Lib.Consensus.Logs

/-!
Leader completeness: what the leader of a term has committed is in the
log of every later leader.

The proof does not follow entries from server to server. It rests on one
statement about a confirmation `acked T i`: the server still holds what
it confirmed, unless a leader of a later term that it has reached since
is without it (`Lost`). A vote freezes that statement for the voter's
log at the moment of the vote. For a committed entry the exception never
happens, by induction over the terms, because the voters of any later
leader and the servers that confirmed the entry have one in common.
-/

namespace RaftShardedKv.Consensus

open TermLog

variable {S E : Type*} [Fintype S]

/-- Some leader of a term strictly between `T` and `u` is without the
first `m` entries of the leader of term `T`. -/
def Lost (s : Cluster S E) (T m u : ℕ) : Prop :=
  ∃ t, T < t ∧ t < u ∧ s.leader t ≠ none ∧ ¬ (s.lead T).take m <+: s.lead t

/-- The log with which `v` voted in term `u` holds all that `v` had
confirmed in earlier terms, except for what got lost in between. -/
def Kept (s : Cluster S E) (u : ℕ) (v : S) : Prop :=
  ∀ T m, T < u → m ≤ s.acked T v → (s.lead T).take m <+: s.voteLog u v ∨ Lost s T m u

structure AckInv (s : Cluster S E) : Prop where
  acked_le : ∀ T i, s.acked T i ≤ (s.lead T).length
  acked_term : ∀ {T i}, 0 < s.acked T i → T ≤ s.term i
  held : ∀ {T i m}, m ≤ s.acked T i →
    (s.lead T).take m <+: s.log i ∨ Lost s T m (s.term i + 1)
  kept_open : ∀ {u v c}, s.leader u = none → s.vote u v = some c → Kept s u v
  kept_quorum : ∀ {u c}, s.leader u = some c → Quorum fun v => s.vote u v = some c ∧ Kept s u v

theorem AckInv.start : AckInv (Cluster.start S E) := by
  constructor <;> intros <;> simp_all [Cluster.start]

variable [DecidableEq S] [Termed E]

theorem Step.leader_ne_none {s s' : Cluster S E} (hs : Step s s') (he : ElectionInv s) {t : ℕ}
    (h : s.leader t ≠ none) : s'.leader t ≠ none := by
  obtain ⟨c, hc⟩ := Option.ne_none_iff_exists'.mp h
  rw [hs.leader_mono he hc]
  exact Option.some_ne_none c

theorem Step.take_lead {s s' : Cluster S E} (hs : Step s s') (he : ElectionInv s)
    (hl : LogInv s) {T m : ℕ} (hm : m ≤ (s.lead T).length) :
    (s'.lead T).take m = (s.lead T).take m := by
  have hpre := List.prefix_iff_eq_take.mp (hs.lead_mono he hl T)
  rw [hpre, List.take_take, min_eq_left hm]

/-- A leader that is without some earlier entries stays without them: it
only adds entries of its own, higher term. -/
theorem Lost.step {s s' : Cluster S E} {T m u u' : ℕ} (h : Lost s T m u) (he : ElectionInv s)
    (hl : LogInv s) (hs : Step s s') (hm : m ≤ (s.lead T).length) (hu : u ≤ u') :
    Lost s' T m u' := by
  obtain ⟨t, hTt, htu, hled, hnot⟩ := h
  refine ⟨t, hTt, by omega, hs.leader_ne_none he hled, ?_⟩
  rw [hs.take_lead he hl hm]
  rcases hs.lead_cases he t with heq | ⟨c, _, _, hnone, _⟩ | ⟨i, e, _, _, hterm, heq, _⟩
  · rwa [heq]
  · exact absurd hnone hled
  · rw [heq]
    intro hpre
    rcases List.prefix_concat_iff.mp hpre with hall | hpart
    · have hlast : termAt ((s.lead T).take m) ((s.lead t).length + 1) = t := by
        rw [hall, termAt_concat, hterm]
      have := termAt_prefix_le (List.take_prefix m (s.lead T)) (hl.lead_le T)
        ((s.lead t).length + 1)
      omega
    · exact hnot hpart

/-- Who confirms something new does so for the term it is then in. -/
theorem Step.acked_cases {s s' : Cluster S E} (hs : Step s s') (he : ElectionInv s) (T : ℕ)
    (i : S) :
    s'.acked T i = s.acked T i ∨
      (T = s.term i ∧ s'.acked T i = (s.log i).length ∧ s.leader T = none ∧ s' = s.elect i) ∨
      (∃ e, T = s.term i ∧ s.role i = .leader ∧ s'.acked T i = (s.log i).length + 1 ∧
        s' = s.append i e) ∨
      (∃ m, s.leader T ≠ none ∧ s.term i ≤ T ∧ m ≤ (s.lead T).length ∧
        s'.acked T i = max (s.acked T i) m ∧ s' = s.accept i T m) := by
  cases hs with
  | elect c hc hq =>
      rcases set2_cases s.acked (s.term c) T c i (s.log c).length with ⟨ht, hi, heq⟩ | ⟨_, heq⟩
      · subst hi ht
        exact Or.inr (Or.inl ⟨rfl, heq, he.leader_none hc hq, rfl⟩)
      · exact Or.inl heq
  | append j e hj hterm =>
      rcases set2_cases s.acked (s.term j) T j i ((s.log j).length + 1) with
        ⟨ht, hi, heq⟩ | ⟨_, heq⟩
      · subst hi ht
        exact Or.inr (Or.inr (Or.inl ⟨e, rfl, hj, heq, rfl⟩))
      · exact Or.inl heq
  | accept j t m hl ht hm =>
      rcases set2_cases s.acked t T j i (max (s.acked t j) m) with ⟨hT, hi, heq⟩ | ⟨_, heq⟩
      · subst hi hT
        exact Or.inr (Or.inr (Or.inr ⟨m, hl, ht, hm, heq, rfl⟩))
      · exact Or.inl heq
  | _ => exact Or.inl rfl

theorem Step.acked_eq {s s' : Cluster S E} (hs : Step s s') (he : ElectionInv s) {T : ℕ} {i : S}
    (hT : T < s.term i) : s'.acked T i = s.acked T i := by
  rcases hs.acked_cases he T i with heq | ⟨rfl, _⟩ | ⟨e, rfl, _⟩ | ⟨m, _, ht, _⟩
  · exact heq
  all_goals omega

theorem Step.acked_mono {s s' : Cluster S E} (hs : Step s s') (he : ElectionInv s)
    (hl : LogInv s) (ha : AckInv s) (T : ℕ) (i : S) : s.acked T i ≤ s'.acked T i := by
  have hle := ha.acked_le T i
  rcases hs.acked_cases he T i with heq | ⟨rfl, heq, hnone, _⟩ | ⟨e, rfl, hi, heq, _⟩ |
      ⟨m, _, _, _, heq, _⟩
  · exact heq.ge
  · rw [hl.lead_nil hnone] at hle
    simp at hle
    omega
  · rw [← hl.leader_log hi] at hle
    omega
  · rw [heq]
    exact le_max_left _ _

theorem Kept.step {s s' : Cluster S E} {u : ℕ} {v c : S} (h : Kept s u v)
    (hv : s.vote u v = some c) (he : ElectionInv s) (hl : LogInv s) (ha : AckInv s)
    (hs : Step s s') : Kept s' u v := by
  intro T m hT hm
  rw [hs.acked_eq he (hT.trans_le (he.vote_le hv))] at hm
  have hlen : m ≤ (s.lead T).length := hm.trans (ha.acked_le T v)
  rw [hs.take_lead he hl hlen, (hs.vote_mono he hv).2]
  exact (h T m hT hm).imp id fun hlost => hlost.step he hl hs hlen le_rfl

/-- What a server confirmed is in its log at any later time, or lost. -/
theorem AckInv.held_step {s s' : Cluster S E} (ha : AckInv s) (he : ElectionInv s)
    (hl : LogInv s) (hs : Step s s') {T m : ℕ} {i : S} (hm : m ≤ s'.acked T i) :
    (s'.lead T).take m <+: s'.log i ∨ Lost s' T m (s'.term i + 1) := by
  rcases Nat.eq_zero_or_pos m with rfl | hpos
  · exact Or.inl (by simp)
  rcases hs.acked_cases he T i with heq | ⟨rfl, heq, _, rfl⟩ | ⟨e, rfl, hi, heq, rfl⟩ |
      ⟨m', hled, ht, hm', heq, rfl⟩
  · rw [heq] at hm
    have hlen : m ≤ (s.lead T).length := hm.trans (ha.acked_le T i)
    have hterm : T ≤ s.term i := ha.acked_term (hpos.trans_le hm)
    rw [hs.take_lead he hl hlen]
    rcases ha.held hm with hpre | hlost
    · rcases hs.log_cases i with hlog | ⟨e, _, _, hlog, _⟩ | ⟨t, m', hled, ht, hm', hlog, rfl⟩
      · exact Or.inl (hlog ▸ hpre)
      · exact Or.inl (hlog ▸ hpre.trans (List.prefix_append _ _))
      · -- the server took entries of the leader of `t`, which has them or has lost them
        by_cases hP : (s.lead T).take m <+: s.lead t
        · exact Or.inl (hlog ▸ prefix_adopt_of_common hpre hP (List.take_prefix _ _))
        · have hTt : T ≠ t := by
            rintro rfl
            exact hP (List.take_prefix _ _)
          refine Or.inr (Lost.step ⟨t, by omega, Nat.lt_succ_self t, hled, hP⟩ he hl hs hlen ?_)
          simp [Cluster.accept]
    · exact Or.inr (hlost.step he hl hs hlen (Nat.succ_le_succ (hs.term_le i)))
  · simp [Cluster.elect, List.take_prefix]
  · simp [Cluster.append, ← hl.leader_log hi, List.take_prefix]
  · rw [heq] at hm
    have hlog : (s.accept i T m').log i = adopt (s.log i) ((s.lead T).take m') := by
      simp [Cluster.accept]
    have hpre : (s.lead T).take m <+: adopt (s.log i) ((s.lead T).take m') := by
      rcases le_max_iff.mp hm with hold | hnew
      · rcases ha.held hold with hpre | ⟨t, hTt, htu, _⟩
        · exact prefix_adopt_of_common hpre (List.take_prefix _ _) (List.take_prefix _ _)
        · omega
      · have hmm : (s.lead T).take m <+: (s.lead T).take m' := by
          rw [← min_eq_left hnew, ← List.take_take]
          exact List.take_prefix _ _
        exact hmm.trans (prefix_adopt _ _)
    exact Or.inl (hlog ▸ hpre)

theorem AckInv.step {s s' : Cluster S E} (ha : AckInv s) (he : ElectionInv s) (hl : LogInv s)
    (hs : Step s s') : AckInv s' where
  acked_le T i := by
    have hle := ha.acked_le T i
    have hmono := (hs.lead_mono he hl T).length_le
    rcases hs.acked_cases he T i with heq | ⟨rfl, heq, _, rfl⟩ | ⟨e, rfl, hi, heq, rfl⟩ |
        ⟨m, _, _, hm, heq, rfl⟩
    · omega
    · rw [heq]
      simp [Cluster.elect]
    · rw [heq]
      simp [Cluster.append, hl.leader_log hi]
    · rw [heq]
      exact max_le hle hm
  acked_term {T i} hpos := by
    have hterm := hs.term_le i
    rcases hs.acked_cases he T i with heq | ⟨rfl, _⟩ | ⟨e, rfl, _⟩ | ⟨m, _, ht, _, _, rfl⟩
    · rw [heq] at hpos
      exact (ha.acked_term hpos).trans hterm
    · exact hterm
    · exact hterm
    · simp [Cluster.accept]
  held hm := ha.held_step he hl hs hm
  kept_open {u v c} hnone hv := by
    have hold : s.leader u = none := by
      by_contra hne
      exact hs.leader_ne_none he hne hnone
    rcases hs.vote_cases hv with hvold | ⟨rfl, rfl, rfl⟩ | ⟨rfl, _, _, _, rfl⟩
    · exact (ha.kept_open hold hvold).step hvold he hl ha hs
    · intro T m hT hm
      have hlen : m ≤ (s.lead T).length := hm.trans (ha.acked_le T c)
      have hheld := ha.held hm
      simp only [Cluster.timeout, set2_self]
      exact hheld.imp id fun hlost => hlost.step he hl hs hlen le_rfl
    · intro T m hT hm
      have hlen : m ≤ (s.lead T).length := hm.trans (ha.acked_le T v)
      have hheld := ha.held hm
      simp only [Cluster.grant, set2_self]
      refine hheld.imp id fun hlost => ?_
      -- the voter's own term has no leader yet, so the loss is in a term below it
      obtain ⟨t, hTt, htu, hled, hnot⟩ := hlost
      have htv : t ≠ s.term v := fun heq => hled (heq ▸ hold)
      exact Lost.step ⟨t, hTt, by omega, hled, hnot⟩ he hl hs hlen le_rfl
  kept_quorum {u c} hlead := by
    rcases hs.leader_cases hlead with hold | ⟨rfl, rfl, hc, hq⟩
    · exact (ha.kept_quorum hold).mono fun v h =>
        ⟨(hs.vote_mono he h.1).1, h.2.step h.1 he hl ha hs⟩
    · exact hq.mono fun v hv =>
        ⟨(hs.vote_mono he hv).1,
          (ha.kept_open (he.leader_none hc hq) hv).step hv he hl ha hs⟩

omit [DecidableEq S] in
/-- **Leader completeness.** A later leader stood for election with all
that is committed. By induction on its term: one of its voters had
confirmed the entry, and still had it when it voted. -/
theorem leader_complete {s : Cluster S E} (he : ElectionInv s) (hl : LogInv s) (ha : AckInv s)
    {T N : ℕ} (hc : Committed s T N) {U : ℕ} {c : S} (hTU : T < U)
    (hU : s.leader U = some c) : (s.lead T).take N <+: s.voteLog U c := by
  obtain ⟨hled, hN, hlen, hterm, hquorum⟩ := hc
  induction U using Nat.strong_induction_on generalizing c with
  | _ U ih =>
      have hearlier : ∀ t, t < U → T < t → s.leader t ≠ none →
          (s.lead T).take N <+: s.lead t := by
        intro t htU hTt hled
        obtain ⟨d, hd⟩ := Option.ne_none_iff_exists'.mp hled
        exact (ih t htU hTt hd).trans (hl.vote_lead hd)
      obtain ⟨v, hack, hvote, hkept⟩ := hquorum.inter (ha.kept_quorum hU)
      have hself := he.vote_self hvote
      have hPv : (s.lead T).take N <+: s.voteLog U v := by
        rcases hkept T N hTU hack with hpre | ⟨t, hTt, htU, hledt, hnot⟩
        · exact hpre
        · exact absurd (hearlier t htU hTt hledt) hnot
      have hPlen : ((s.lead T).take N).length = N := by simp [hlen]
      refine (hl.up_to_date hvote).carries (hl.vote_follows hself) (hl.vote_follows hvote)
        ((hl.vote_follows hvote).sorted hl.lead_sorted) hPv ?_ (T := T) ?_ ?_ ?_
      · exact List.length_pos_iff.mp (by omega)
      · rw [lastTerm, hPlen, termAt_take le_rfl, hterm]
      · exact termAt_prefix_le (List.take_prefix N _) (hl.lead_le T)
      · intro hlt hne
        have hpre := (hl.vote_follows hself).prefix_lead hne
        refine hearlier _ (hl.self_lt hself _) hlt fun hnone => hne ?_
        rw [hl.lead_nil hnone] at hpre
        exact List.prefix_nil.mp hpre

end RaftShardedKv.Consensus
