import Mathlib.Tactic

/-!
Pools: lists that only grow at their end, such as the messages ever sent
or the records ever stored. A place in a pool is the name of what stands
there, for good; what stands there may be brought up to date.
-/

namespace RaftShardedKv.Pool

variable {α : Type*} {l : List α}

theorem append {k : ℕ} {x : α} (h : l[k]? = some x) (l' : List α) : (l ++ l')[k]? = some x := by
  rw [List.getElem?_append_left (List.getElem?_eq_some_iff.mp h).1]
  exact h

theorem getElem?_eq {l' : List α} (h : l <+: l') {k : ℕ} (hk : k < l.length) : l'[k]? = l[k]? := by
  obtain ⟨t, rfl⟩ := h
  exact List.getElem?_append_left hk

theorem concat_cases {x z : α} {k : ℕ} (h : (l ++ [z])[k]? = some x) :
    l[k]? = some x ∨ k = l.length ∧ x = z := by
  rw [List.getElem?_append] at h
  split at h
  · exact Or.inl h
  · obtain ⟨hlt, heq⟩ := List.getElem?_eq_some_iff.mp h
    simp only [List.length_singleton] at hlt
    refine Or.inr ⟨by omega, ?_⟩
    simpa using heq.symm

theorem forall_concat {P : ℕ → α → Prop} {z : α} (h : ∀ (k : ℕ) x, l[k]? = some x → P k x)
    (hz : P l.length z) (k : ℕ) (x : α) (hk : (l ++ [z])[k]? = some x) : P k x := by
  rcases concat_cases hk with hk | ⟨rfl, rfl⟩
  · exact h k x hk
  · exact hz

theorem set_cases {x y : α} {d k : ℕ} (h : (l.set d x)[k]? = some y) :
    k = d ∧ y = x ∨ k ≠ d ∧ l[k]? = some y := by
  rw [List.getElem?_set] at h
  split at h
  · rename_i heq
    split at h
    · exact Or.inl ⟨heq.symm, (Option.some.inj h).symm⟩
    · cases h
  · rename_i hne
    exact Or.inr ⟨Ne.symm hne, h⟩

theorem set_self {x y : α} {d : ℕ} (h : l[d]? = some y) : (l.set d x)[d]? = some x :=
  List.getElem?_set_self (List.getElem?_eq_some_iff.mp h).1

end RaftShardedKv.Pool
