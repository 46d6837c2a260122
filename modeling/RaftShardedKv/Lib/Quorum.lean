import Mathlib.Data.Fintype.Card
import Mathlib.Tactic

/-!
Majorities of a finite set of voters. A property has a quorum when more
than half of all voters have it; two quorums always share a voter, and
that is the only fact about counting the protocols above ever use.
-/

namespace RaftShardedKv

variable {S : Type*} [Fintype S]

/-- More than half of the voters satisfy `p`. -/
def Quorum (p : S → Prop) : Prop :=
  ∃ Q : Finset S, Fintype.card S / 2 + 1 ≤ Q.card ∧ ∀ v ∈ Q, p v

theorem Quorum.mono {p q : S → Prop} (h : Quorum p) (hpq : ∀ v, p v → q v) : Quorum q := by
  obtain ⟨Q, hQ, hp⟩ := h
  exact ⟨Q, hQ, fun v hv => hpq v (hp v hv)⟩

theorem Quorum.inter {p q : S → Prop} (hp : Quorum p) (hq : Quorum q) : ∃ v, p v ∧ q v := by
  classical
  obtain ⟨P, hPcard, hP⟩ := hp
  obtain ⟨Q, hQcard, hQ⟩ := hq
  by_contra hnone
  have hdisj : Disjoint P Q := by
    rw [Finset.disjoint_left]
    intro v hvP hvQ
    exact hnone ⟨v, hP v hvP, hQ v hvQ⟩
  have hunion : (P ∪ Q).card ≤ Fintype.card S := Finset.card_le_univ _
  rw [Finset.card_union_of_disjoint hdisj] at hunion
  omega

/-- A quorum in which every voter picked one value leaves no quorum for
another value. -/
theorem Quorum.unique {α : Type*} {f : S → Option α} {a b : α}
    (ha : Quorum fun v => f v = some a) (hb : Quorum fun v => f v = some b) : a = b := by
  obtain ⟨v, hva, hvb⟩ := ha.inter hb
  exact Option.some.inj (hva.symm.trans hvb)

end RaftShardedKv
