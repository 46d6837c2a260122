import Mathlib.Tactic

/-!
Transition systems, as the rest of the development uses them.

A system is given by its initial states and its labelled steps. Three
notions are built on it and nothing else: the reachable states, the
infinite runs (a step may stutter, so a finite run is a run whose tail
stands still), and forward simulation. Each comes with the one rule its
users need: an invariant is two small goals, a run passes through
reachable states only, and a simulation carries every reachable state of
the concrete system over to a reachable state of the abstract one. The
run form of the last rule keeps the abstract states of one run on one
abstract path, which is what statements about two different moments of a
run need.
-/

namespace RaftShardedKv.Transition

/-- A transition system over states `σ` with steps labelled by `α`. -/
structure Sys (σ α : Type*) where
  /-- The states a run may start in. -/
  init : σ → Prop
  /-- `step s a s'`: the action `a` leads from `s` to `s'`. -/
  step : σ → α → σ → Prop

section

variable {σ α τ β : Type*}

/-- Some action leads from `s` to `s'`. -/
def Sys.Next (T : Sys σ α) (s s' : σ) : Prop := ∃ a, T.step s a s'

/-- Finitely many steps lead from `s` to `s'`. -/
def Sys.Star (T : Sys σ α) : σ → σ → Prop := Relation.ReflTransGen T.Next

/-- The states that some finite sequence of steps leads to. -/
inductive Sys.Reachable (T : Sys σ α) : σ → Prop
  | init {s : σ} (h : T.init s) : Reachable T s
  | step {s s' : σ} {a : α} (hr : Reachable T s) (hs : T.step s a s') : Reachable T s'

/-- **The invariant rule.** The step may use that its source is
reachable, so that one invariant may lean on another proved before it. -/
theorem Sys.Reachable.invariant {T : Sys σ α} {I : σ → Prop}
    (hinit : ∀ s, T.init s → I s)
    (hstep : ∀ s a s', T.Reachable s → I s → T.step s a s' → I s')
    {s : σ} (h : T.Reachable s) : I s := by
  induction h with
  | init h => exact hinit _ h
  | step hr hs ih => exact hstep _ _ _ hr ih hs

theorem Sys.Reachable.star {T : Sys σ α} {s s' : σ} (h : T.Reachable s)
    (hs : T.Star s s') : T.Reachable s' := by
  induction hs with
  | refl => exact h
  | tail _ hn ih =>
      obtain ⟨a, ha⟩ := hn
      exact ih.step ha

theorem Sys.Star.single {T : Sys σ α} {s s' : σ} {a : α} (h : T.step s a s') :
    T.Star s s' := Relation.ReflTransGen.single ⟨a, h⟩

/-- What no step loses is not lost over any number of steps either. -/
theorem Sys.Star.preserves {T : Sys σ α} {P : σ → Prop} {s s' : σ}
    (hr : T.Reachable s) (hs : T.Star s s')
    (hstep : ∀ s a s', T.Reachable s → P s → T.step s a s' → P s') (hP : P s) : P s' := by
  induction hs with
  | refl => exact hP
  | tail hs hn ih =>
      obtain ⟨a, ha⟩ := hn
      exact hstep _ _ _ (hr.star hs) ih ha

/-- The steps whose action is in `P`. -/
def Sys.restrict (T : Sys σ α) (P : α → Prop) : Sys σ α where
  init := T.init
  step s a s' := P a ∧ T.step s a s'

/-- An infinite run. A step may stutter, so finite runs are covered. -/
structure Sys.Run (T : Sys σ α) where
  /-- The state before step `k`. -/
  state : ℕ → σ
  /-- A run starts in an initial state. -/
  start : T.init (state 0)
  /-- Every step is a step of the system or stands still. -/
  next : ∀ k, state (k + 1) = state k ∨ T.Next (state k) (state (k + 1))

theorem Sys.Run.reachable {T : Sys σ α} (r : T.Run) (k : ℕ) : T.Reachable (r.state k) := by
  induction k with
  | zero => exact .init r.start
  | succ k ih =>
      rcases r.next k with h | ⟨a, h⟩
      · rw [h]; exact ih
      · exact ih.step h

/-- Later states of a run are reached from earlier ones. -/
theorem Sys.Run.star {T : Sys σ α} (r : T.Run) {j k : ℕ} (hjk : j ≤ k) :
    T.Star (r.state j) (r.state k) := by
  induction k, hjk using Nat.le_induction with
  | base => exact .refl
  | succ k _ ih =>
      rcases r.next k with heq | hnext
      · rw [heq]; exact ih
      · exact ih.tail hnext

/-- A forward simulation of `T` by `U`: every concrete step is matched by
finitely many abstract ones. -/
structure Simulation (T : Sys σ α) (U : Sys τ β) (R : σ → τ → Prop) : Prop where
  /-- Initial states are related to initial states. -/
  init : ∀ s, T.init s → ∃ t, U.init t ∧ R s t
  /-- A step from related states ends in related states. -/
  step : ∀ s a s' t, T.Reachable s → U.Reachable t → R s t → T.step s a s' →
    ∃ t', U.Star t t' ∧ R s' t'

/-- Every reachable state has a reachable abstract counterpart. -/
theorem Simulation.reachable {T : Sys σ α} {U : Sys τ β} {R : σ → τ → Prop}
    (h : Simulation T U R) {s : σ} (hs : T.Reachable s) : ∃ t, U.Reachable t ∧ R s t := by
  induction hs with
  | init hi =>
      obtain ⟨t, ht, hR⟩ := h.init _ hi
      exact ⟨t, .init ht, hR⟩
  | step hr hstep ih =>
      obtain ⟨t, ht, hR⟩ := ih
      obtain ⟨t', hstar, hR'⟩ := h.step _ _ _ _ hr ht hR hstep
      exact ⟨t', ht.star hstar, hR'⟩

/-- One run of the concrete system is shadowed by one path of the
abstract system, the abstract state at `k` related to the concrete one. -/
theorem Simulation.run {T : Sys σ α} {U : Sys τ β} {R : σ → τ → Prop}
    (h : Simulation T U R) (r : T.Run) :
    ∃ f : ℕ → τ, (∀ k, U.Reachable (f k) ∧ R (r.state k) (f k)) ∧
      ∀ k, U.Star (f k) (f (k + 1)) := by
  have hnext : ∀ k, ∀ t : {t // U.Reachable t ∧ R (r.state k) t},
      ∃ t' : {t // U.Reachable t ∧ R (r.state (k + 1)) t}, U.Star t.1 t'.1 := by
    rintro k ⟨t, ht, hR⟩
    rcases r.next k with heq | ⟨a, hstep⟩
    · exact ⟨⟨t, ht, by rw [heq]; exact hR⟩, .refl⟩
    · obtain ⟨t', hstar, hR'⟩ := h.step _ _ _ _ (r.reachable k) ht hR hstep
      exact ⟨⟨t', ht.star hstar, hR'⟩, hstar⟩
  choose g hg using hnext
  obtain ⟨t₀, ht₀, hR₀⟩ := h.init _ r.start
  -- the path is built by recursion, each state carrying its own relation to the run
  let f : ∀ k, {t // U.Reachable t ∧ R (r.state k) t} :=
    fun k => Nat.rec ⟨t₀, .init ht₀, hR₀⟩ g k
  exact ⟨fun k => (f k).1, fun k => (f k).2, fun k => hg k (f k)⟩

/-- Two moments of a shadowed run lie on one abstract path. -/
theorem star_of_le {U : Sys τ β} {f : ℕ → τ} (hf : ∀ k, U.Star (f k) (f (k + 1)))
    {j k : ℕ} (hjk : j ≤ k) : U.Star (f j) (f k) := by
  induction k, hjk using Nat.le_induction with
  | base => exact .refl
  | succ k _ ih => exact ih.trans (hf k)

/-! ### Systems given by a step function -/

/-- The system that starts in `s₀` and steps by `f`, where `f` is defined. -/
def Sys.ofStep (s₀ : σ) (f : σ → α → Option σ) : Sys σ α where
  init s := s = s₀
  step s a s' := f s a = some s'

/-- The state after a list of actions, of which those that are not
possible are skipped. -/
def play (f : σ → α → Option σ) (s : σ) (as : List α) : σ :=
  as.foldl (fun s a => (f s a).getD s) s

theorem play_concat (f : σ → α → Option σ) (s : σ) (as : List α) (a : α) :
    play f s (as ++ [a]) = (f (play f s as) a).getD (play f s as) := by
  simp [play]

/-- An action of the list is skipped or made. -/
theorem play_next (f : σ → α → Option σ) (s : σ) (as : List α) (k : ℕ) :
    play f s (as.take (k + 1)) = play f s (as.take k) ∨
      ∃ a ∈ as, f (play f s (as.take k)) a = some (play f s (as.take (k + 1))) := by
  rcases Nat.lt_or_ge k as.length with hk | hk
  · rw [← List.take_concat_get hk, List.concat_eq_append, play_concat]
    cases hf : f (play f s (as.take k)) as[k] with
    | none => exact Or.inl rfl
    | some s' => exact Or.inr ⟨as[k], List.getElem_mem hk, hf⟩
  · rw [List.take_of_length_le hk, List.take_of_length_le (hk.trans (Nat.le_succ k))]
    exact Or.inl rfl

/-- Any list of actions makes a run. -/
def Sys.Run.play (s₀ : σ) (f : σ → α → Option σ) (as : List α) : (Sys.ofStep s₀ f).Run where
  state k := Transition.play f s₀ (as.take k)
  start := rfl
  next k := (play_next f s₀ as k).imp_right fun h => ⟨h.choose, h.choose_spec.2⟩

theorem reachable_play (s₀ : σ) (f : σ → α → Option σ) (as : List α) :
    (Sys.ofStep s₀ f).Reachable (play f s₀ as) := by
  have h := (Sys.Run.play s₀ f as).reachable as.length
  change (Sys.ofStep s₀ f).Reachable (play f s₀ (as.take as.length)) at h
  rwa [List.take_length] at h

/-- A run whose actions are all in `P` is one of the restricted system. -/
def Sys.Run.playIn (s₀ : σ) (f : σ → α → Option σ) {P : α → Prop} (as : List α)
    (h : ∀ a ∈ as, P a) : ((Sys.ofStep s₀ f).restrict P).Run where
  state k := Transition.play f s₀ (as.take k)
  start := rfl
  next k := (play_next f s₀ as k).imp_right fun hnext =>
    ⟨hnext.choose, h _ hnext.choose_spec.1, hnext.choose_spec.2⟩

theorem reachable_playIn (s₀ : σ) (f : σ → α → Option σ) {P : α → Prop} (as : List α)
    (h : ∀ a ∈ as, P a) : ((Sys.ofStep s₀ f).restrict P).Reachable (play f s₀ as) := by
  have hr := (Sys.Run.playIn s₀ f as h).reachable as.length
  change ((Sys.ofStep s₀ f).restrict P).Reachable (play f s₀ (as.take as.length)) at hr
  rwa [List.take_length] at hr

end

/-! ### The parties of small systems

A run of a small system names its parties by numerals. -/

instance neZero_one : NeZero 1 := ⟨one_ne_zero⟩

instance neZero_two : NeZero 2 := ⟨two_ne_zero⟩

instance neZero_three : NeZero 3 := ⟨three_ne_zero⟩

end RaftShardedKv.Transition
