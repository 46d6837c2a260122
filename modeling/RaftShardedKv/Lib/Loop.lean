import Mathlib.Tactic

/-!
Loops without a counter. The body gives the next state, or nothing where it
leaves the loop; `loop body n` makes at most `n` rounds, and has no result
where these do not suffice.
-/

namespace RaftShardedKv

variable {α : Type*}

def loop (body : α → Option α) : ℕ → α → Option α
  | 0, _ => none
  | n + 1, a =>
      match body a with
      | none => some a
      | some b => loop body n b

namespace Loop

variable {body : α → Option α}

theorem succ_of_none {a : α} (h : body a = none) (n : ℕ) : loop body (n + 1) a = some a := by
  simp [loop, h]

theorem succ_of_some {a b : α} (h : body a = some b) (n : ℕ) :
    loop body (n + 1) a = loop body n b := by
  simp [loop, h]

theorem mono {n m : ℕ} (hnm : n ≤ m) {a b : α} (h : loop body n a = some b) :
    loop body m a = some b := by
  induction n generalizing m a with
  | zero => cases h
  | succ n ih =>
      obtain ⟨m, rfl⟩ := Nat.exists_eq_succ_of_ne_zero (Nat.ne_zero_of_lt hnm)
      cases hb : body a with
      | none =>
          rw [succ_of_none hb] at h ⊢
          exact h
      | some c =>
          rw [succ_of_some hb] at h ⊢
          exact ih (Nat.le_of_succ_le_succ hnm) h

/-- A loop ends where its rounds keep `I` and lower a measure. It ends outside
the reach of the body, with `I`, and more rounds change nothing. -/
theorem ends (I : α → Prop) (μ : α → ℕ)
    (hbody : ∀ a b, I a → body a = some b → I b ∧ μ b < μ a) {a : α} (ha : I a) :
    ∃ b, (∀ n, μ a < n → loop body n a = some b) ∧ I b ∧ body b = none := by
  induction hm : μ a using Nat.strong_induction_on generalizing a with
  | h m ih =>
      subst hm
      cases hb : body a with
      | none =>
          refine ⟨a, fun n hn => ?_, ha, hb⟩
          obtain ⟨n, rfl⟩ := Nat.exists_eq_succ_of_ne_zero (Nat.ne_zero_of_lt hn)
          exact succ_of_none hb n
      | some b =>
          obtain ⟨hkeep, hlower⟩ := hbody a b ha hb
          obtain ⟨c, hc, hI, hnone⟩ := ih (μ b) hlower hkeep rfl
          refine ⟨c, fun n hn => ?_, hI, hnone⟩
          obtain ⟨n, rfl⟩ := Nat.exists_eq_succ_of_ne_zero (Nat.ne_zero_of_lt hn)
          rw [succ_of_some hb]
          exact hc n (by omega)

end Loop

end RaftShardedKv
