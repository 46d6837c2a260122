import RaftShardedKv.Lib.Transition

/-!
What a system is still able to do.

`T.Can s P` says that some finite sequence of steps leads from `s` to a
state with `P`. Where it holds of every reachable state the system is
never stuck short of `P`, whatever has happened to it. Such a fact is put
together by three rules: one thing after another, one thing again and
again for as long as a measure goes down, and one thing for each member of
a finite set, where what is done for one member undoes nothing that was
done for the others.
-/

namespace RaftShardedKv.Transition

variable {σ α ι : Type*}

/-- The steps of `T` are steps of `U` as well. -/
theorem Sys.Star.wider {T U : Sys σ α} {s s' : σ}
    (hstep : ∀ s a s', T.step s a s' → U.step s a s') (h : T.Star s s') : U.Star s s' := by
  induction h with
  | refl => exact .refl
  | tail _ hnext ih =>
      obtain ⟨a, ha⟩ := hnext
      exact ih.tail ⟨a, hstep _ a _ ha⟩

/-- Some steps lead from `s` to a state with `P`. -/
def Sys.Can (T : Sys σ α) (s : σ) (P : σ → Prop) : Prop := ∃ s', T.Star s s' ∧ P s'

namespace Sys.Can

variable {T : Sys σ α} {s s' : σ} {P R : σ → Prop}

theorem now (h : P s) : T.Can s P := ⟨s, .refl, h⟩

theorem andThen (h : T.Can s P) (hnext : ∀ s', P s' → T.Can s' R) : T.Can s R := by
  obtain ⟨s₁, hstar, h₁⟩ := h
  obtain ⟨s₂, hstar', h₂⟩ := hnext s₁ h₁
  exact ⟨s₂, hstar.trans hstar', h₂⟩

theorem mono (h : T.Can s P) (himp : ∀ s', P s' → R s') : T.Can s R :=
  h.andThen fun s' h' => .now (himp s' h')

theorem step {a : α} (hs : T.step s a s') (h : T.Can s' P) : T.Can s P := by
  obtain ⟨s'', hstar, h'⟩ := h
  exact ⟨s'', (Star.single hs).trans hstar, h'⟩

theorem wider {U : Sys σ α} (hstep : ∀ s a s', T.step s a s' → U.step s a s') (h : T.Can s P) :
    U.Can s P := by
  obtain ⟨s', hstar, h'⟩ := h
  exact ⟨s', hstar.wider hstep, h'⟩

/-- Where the steps of `T` are steps of `U`, it is at states of `U` that
they end. -/
theorem reachable {U : Sys σ α} (hstep : ∀ s a s', T.step s a s' → U.step s a s')
    (hs : U.Reachable s) (h : T.Can s P) : T.Can s fun s' => U.Reachable s' ∧ P s' := by
  obtain ⟨s', hstar, h'⟩ := h
  exact ⟨s', hstar, hs.star (hstar.wider hstep), h'⟩

/-- **Again and again.** Whoever is not at the goal can get there or closer
to it. -/
theorem descend {M : Type*} [Preorder M] [WellFoundedLT M] (I G : σ → Prop) (μ : σ → M)
    (hround : ∀ s, I s → ¬ G s → T.Can s fun s' => I s' ∧ (G s' ∨ μ s' < μ s)) (h : I s) :
    T.Can s fun s' => I s' ∧ G s' := by
  induction hm : μ s using WellFoundedLT.induction generalizing s with
  | _ m ih =>
      by_cases hG : G s
      · exact .now ⟨h, hG⟩
      · refine (hround s h hG).andThen fun s' h' => ?_
        rcases h'.2 with hgoal | hlt
        · exact .now ⟨h'.1, hgoal⟩
        · exact ih (μ s') (hm ▸ hlt) h'.1 rfl

/-- **One after another.** What can be done for each member of a finite set
without undoing it for others can be done for all of them. -/
theorem each (I : σ → Prop) (G : ι → σ → Prop) (Q : Finset ι)
    (hone : ∀ s, I s → ∀ i ∈ Q, T.Can s fun s' => I s' ∧ G i s' ∧ ∀ j ∈ Q, G j s → G j s')
    (h : I s) : T.Can s fun s' => I s' ∧ ∀ i ∈ Q, G i s' := by
  classical
  -- over the members that have had their turn
  have hsome : ∀ P : Finset ι, P ⊆ Q → T.Can s fun s' => I s' ∧ ∀ i ∈ P, G i s' := by
    intro P
    induction P using Finset.induction_on with
    | empty => exact fun _ => .now ⟨h, by simp⟩
    | insert i P hi ih =>
        intro hsub
        have hrest : P ⊆ Q := (Finset.subset_insert i P).trans hsub
        refine (ih hrest).andThen fun s₁ h₁ => ?_
        refine (hone s₁ h₁.1 i (hsub (Finset.mem_insert_self i P))).mono fun s₂ h₂ => ?_
        refine ⟨h₂.1, fun j hj => ?_⟩
        rcases Finset.mem_insert.mp hj with rfl | hj
        · exact h₂.2.1
        · exact h₂.2.2 j (hrest hj) (h₁.2 j hj)
  exact hsome Q Finset.Subset.rfl

end Sys.Can

end RaftShardedKv.Transition
