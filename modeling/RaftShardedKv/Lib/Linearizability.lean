import RaftShardedKv.Lib.Pool
import RaftShardedKv.Lib.Transition

/-!
Linearizability of a concurrent object, and how it follows from where the
operations take effect.

A history lists the calls and the returns of an object in the order in
which they happened. It is linearizable if the calls can be put in one
order, each with a result, that is a run of the object one call at a
time, that has every call that returned with the result it returned, and
that respects the order of calls in real time.

An implementation is usually understood through the moments at which its
operations take effect, and these moments are enough, also if an
operation that changes nothing takes effect more often than its caller
ever learns of. A trace is a history with the effects in between; the
three rules by which it grows are the ones an implementation has to
follow, and every trace that follows them has a linearizable history.
-/

namespace RaftShardedKv.Linearizability

open scoped List

/-- A sequential object. -/
structure Spec (σ Op Res : Type*) where
  init : σ
  apply : σ → Op → σ × Res

/-- Call `i` is made, or returns. -/
inductive Event (ι Op Res : Type*)
  | invoke (i : ι) (op : Op)
  | ret (i : ι) (r : Res)
  deriving DecidableEq, Repr

variable {σ ι Op Res : Type*}

namespace Spec

variable (S : Spec σ Op Res)

/-- The results are those of the operations one after the other. -/
def Legal : σ → List (ι × Op × Res) → Prop
  | _, [] => True
  | s, (_, op, r) :: l => r = (S.apply s op).2 ∧ Legal (S.apply s op).1 l

/-- The state after the operations one after the other. -/
def run (s : σ) (l : List (ι × Op × Res)) : σ := l.foldl (fun s x => (S.apply s x.2.1).1) s

def ReadOnly (op : Op) : Prop := ∀ s, (S.apply s op).1 = s

theorem run_concat (s : σ) (l : List (ι × Op × Res)) (x : ι × Op × Res) :
    S.run s (l ++ [x]) = (S.apply (S.run s l) x.2.1).1 := by
  simp [run]

theorem Legal.concat {S : Spec σ Op Res} {s : σ} {l : List (ι × Op × Res)} (h : S.Legal s l)
    (i : ι) (op : Op) : S.Legal s (l ++ [(i, op, (S.apply (S.run s l) op).2)]) := by
  induction l generalizing s with
  | nil => exact ⟨rfl, trivial⟩
  | cons x l ih => exact ⟨h.1, ih h.2⟩

/-- Operations that change nothing may be left out. -/
theorem Legal.filter {S : Spec σ Op Res} {s : σ} {l : List ((ι × Op × Res) × ℕ)}
    (h : S.Legal s (l.map Prod.fst)) {keep : (ι × Op × Res) × ℕ → Bool}
    (hdrop : ∀ x ∈ l, keep x = false → S.ReadOnly x.1.2.1) :
    S.Legal s ((l.filter keep).map Prod.fst) := by
  induction l generalizing s with
  | nil => trivial
  | cons x l ih =>
      have hrest := ih h.2 fun y hy => hdrop y (List.mem_cons_of_mem _ hy)
      cases hkeep : keep x with
      | true =>
          rw [List.filter_cons_of_pos hkeep]
          exact ⟨h.1, hrest⟩
      | false =>
          rw [List.filter_cons_of_neg (by simp [hkeep])]
          rwa [hdrop x List.mem_cons_self hkeep s] at hrest

end Spec

/-- `l` is an order of the calls of history `h` as the object would have
executed them one at a time. -/
structure Linearization (S : Spec σ Op Res) (h : List (Event ι Op Res))
    (l : List (ι × Op × Res)) : Prop where
  nodup : (l.map Prod.fst).Nodup
  invoked : ∀ x ∈ l, .invoke x.1 x.2.1 ∈ h
  returned : ∀ i r, .ret i r ∈ h → ∃ op, (i, op, r) ∈ l
  legal : S.Legal S.init l
  /-- A call made after another has returned comes after it. -/
  order : ∀ i r j op, [.ret i r, .invoke j op] <+ h → ∀ x ∈ l, ∀ y ∈ l, x.1 = i → y.1 = j →
    [x, y] <+ l

def Linearizable (S : Spec σ Op Res) (h : List (Event ι Op Res)) : Prop :=
  ∃ l, Linearization S h l

/-! ### Places in a list -/

section

variable {α : Type*} {l : List α}

theorem pair_sublist_concat {x y z : α} (h : [x, y] <+ l ++ [z]) :
    [x, y] <+ l ∨ x ∈ l ∧ y = z := by
  obtain ⟨l₁, l₂, heq, h₁, h₂⟩ := List.sublist_append_iff.mp h
  rcases List.sublist_singleton.mp h₂ with rfl | rfl
  · rw [List.append_nil] at heq
    exact Or.inl (heq ▸ h₁)
  · obtain ⟨rfl, hzy⟩ : l₁ = [x] ∧ z = y := by
      have heq : [x] ++ [y] = l₁ ++ [z] := heq
      have hcat := List.append_inj' heq rfl
      exact ⟨hcat.1.symm, (List.singleton_inj.mp hcat.2).symm⟩
    exact Or.inr ⟨List.singleton_sublist.mp h₁, hzy.symm⟩

theorem pair_sublist {f : α → ℕ} (h : l.Pairwise fun x y => f x < f y) {x y : α} (hx : x ∈ l)
    (hy : y ∈ l) (hlt : f x < f y) : [x, y] <+ l := by
  induction h with
  | nil => cases hx
  | @cons z l hz h ih =>
      rcases List.mem_cons.mp hx with rfl | hxl
      · rcases List.mem_cons.mp hy with rfl | hy
        · exact absurd hlt (lt_irrefl _)
        · exact (List.singleton_sublist.mpr hy).cons_cons x
      · rcases List.mem_cons.mp hy with rfl | hy
        · exact absurd (hz x hxl) hlt.not_gt
        · exact (ih hxl hy).cons z

theorem pairwise_zipIdx (l : List α) : l.zipIdx.Pairwise fun x y => x.2 < y.2 := by
  rw [List.pairwise_iff_getElem]
  intro i j hi hj hlt
  simpa using hlt

end

/-! ### Traces -/

/-- The calls and returns of a trace. -/
def history (t : List (Event ι Op Res ⊕ (ι × Op × Res))) : List (Event ι Op Res) :=
  t.filterMap Sum.getLeft?

/-- The effects of a trace. -/
def effects (t : List (Event ι Op Res ⊕ (ι × Op × Res))) : List (ι × Op × Res) :=
  t.filterMap Sum.getRight?

/-- The traces of an implementation: an operation takes effect after its
call was made, once unless it changes nothing, with the result that the
object then gives, and a call returns a result it took effect with. -/
inductive Trace (S : Spec σ Op Res) : List (Event ι Op Res ⊕ (ι × Op × Res)) → Prop
  | nil : Trace S []
  | invoke {t} (h : Trace S t) (i : ι) (op : Op) (hfresh : ∀ op', .invoke i op' ∉ history t) :
      Trace S (t ++ [.inl (.invoke i op)])
  | effect {t} (h : Trace S t) (i : ι) (op : Op) (hinvoked : .invoke i op ∈ history t)
      (honce : S.ReadOnly op ∨ ∀ x ∈ effects t, x.1 ≠ i) :
      Trace S (t ++ [.inr (i, op, (S.apply (S.run S.init (effects t)) op).2)])
  | ret {t} (h : Trace S t) (i : ι) (op : Op) (r : Res) (heffect : (i, op, r) ∈ effects t)
      (hfresh : ∀ r', .ret i r' ∉ history t) : Trace S (t ++ [.inl (.ret i r)])

section

variable (t : List (Event ι Op Res ⊕ (ι × Op × Res)))

@[simp] theorem history_event (e : Event ι Op Res) :
    history (t ++ [.inl e]) = history t ++ [e] := by
  simp [history]

@[simp] theorem history_effect (x : ι × Op × Res) : history (t ++ [.inr x]) = history t := by
  simp [history]

@[simp] theorem effects_event (e : Event ι Op Res) : effects (t ++ [.inl e]) = effects t := by
  simp [effects]

@[simp] theorem effects_effect (x : ι × Op × Res) : effects (t ++ [.inr x]) = effects t ++ [x] := by
  simp [effects]

end

variable {S : Spec σ Op Res} {t : List (Event ι Op Res ⊕ (ι × Op × Res))}

theorem Trace.legal (h : Trace S t) : S.Legal S.init (effects t) := by
  induction h with
  | nil => trivial
  | invoke h i op hfresh ih => simpa using ih
  | effect h i op hinvoked honce ih =>
      rw [effects_effect]
      exact ih.concat i op
  | ret h i op r heffect hfresh ih => simpa using ih

theorem Trace.invoked (h : Trace S t) : ∀ x ∈ effects t, .invoke x.1 x.2.1 ∈ history t := by
  induction h with
  | nil => simp [effects]
  | invoke h i op hfresh ih =>
      intro x hx
      rw [history_event]
      exact List.mem_append_left _ (ih x (by simpa using hx))
  | effect h i op hinvoked honce ih =>
      intro x hx
      rw [history_effect]
      rcases List.mem_append.mp (effects_effect _ _ ▸ hx) with hx | hx
      · exact ih x hx
      · obtain rfl := List.mem_singleton.mp hx
        exact hinvoked
  | ret h i op r heffect hfresh ih =>
      intro x hx
      rw [history_event]
      exact List.mem_append_left _ (ih x (by simpa using hx))

/-- A call is made once. -/
theorem Trace.invoke_unique (h : Trace S t) {i : ι} {op op' : Op} (hop : .invoke i op ∈ history t)
    (hop' : .invoke i op' ∈ history t) : op = op' := by
  induction h with
  | nil => cases hop
  | invoke h j op hfresh ih =>
      rw [history_event, List.mem_append, List.mem_singleton] at hop hop'
      rcases hop with hop | heq <;> rcases hop' with hop' | heq'
      · exact ih hop hop'
      · cases heq'
        exact absurd hop (hfresh _)
      · cases heq
        exact absurd hop' (hfresh _)
      · cases heq
        cases heq'
        rfl
  | effect h j op hinvoked honce ih =>
      rw [history_effect] at hop hop'
      exact ih hop hop'
  | ret h j op r heffect hfresh ih =>
      rw [history_event, List.mem_append, List.mem_singleton] at hop hop'
      rcases hop with hop | heq
      · rcases hop' with hop' | heq'
        · exact ih hop hop'
        · cases heq'
      · cases heq

/-- A call returns once. -/
theorem Trace.ret_unique (h : Trace S t) {i : ι} {r r' : Res} (hr : .ret i r ∈ history t)
    (hr' : .ret i r' ∈ history t) : r = r' := by
  induction h with
  | nil => cases hr
  | invoke h j op hfresh ih =>
      rw [history_event, List.mem_append, List.mem_singleton] at hr hr'
      rcases hr with hr | heq
      · rcases hr' with hr' | heq'
        · exact ih hr hr'
        · cases heq'
      · cases heq
  | effect h j op hinvoked honce ih =>
      rw [history_effect] at hr hr'
      exact ih hr hr'
  | ret h j op s heffect hfresh ih =>
      rw [history_event, List.mem_append, List.mem_singleton] at hr hr'
      rcases hr with hr | heq <;> rcases hr' with hr' | heq'
      · exact ih hr hr'
      · cases heq'
        exact absurd hr (hfresh _)
      · cases heq
        exact absurd hr' (hfresh _)
      · cases heq
        cases heq'
        rfl

/-- An operation that changes something takes effect once. -/
theorem Trace.once (h : Trace S t) {k k' : ℕ} {x y : ι × Op × Res} (hx : (effects t)[k]? = some x)
    (hy : (effects t)[k']? = some y) (hid : x.1 = y.1) (hne : k ≠ k') : S.ReadOnly x.2.1 := by
  induction h generalizing x y k k' with
  | nil => simp [effects] at hx
  | invoke h i op hfresh ih =>
      rw [effects_event] at hx hy
      exact ih hx hy hid hne
  | effect h i op hinvoked honce ih =>
      rw [effects_effect] at hx hy
      rcases Pool.concat_cases hx with hx | ⟨rfl, rfl⟩ <;>
        rcases Pool.concat_cases hy with hy | ⟨rfl, rfl⟩
      · exact ih hx hy hid hne
      · -- both are the operation of one call
        rcases honce with hread | hfirst
        · have hsame := h.invoked x (List.mem_of_getElem? hx)
          rw [hid] at hsame
          rwa [h.invoke_unique hsame hinvoked]
        · exact absurd hid (hfirst x (List.mem_of_getElem? hx))
      · rcases honce with hread | hfirst
        · exact hread
        · exact absurd hid.symm (hfirst y (List.mem_of_getElem? hy))
      · exact absurd rfl hne
  | ret h i op r heffect hfresh ih =>
      rw [effects_event] at hx hy
      exact ih hx hy hid hne

/-- A call that has returned took effect, with its result, before
whatever was called after the return. -/
theorem Trace.point (h : Trace S t) {i : ι} {r : Res} (hr : .ret i r ∈ history t) :
    ∃ (k : ℕ) (op : Op), (effects t)[k]? = some (i, op, r) ∧
      ∀ j op', [.ret i r, .invoke j op'] <+ history t →
        ∀ (k' : ℕ) (y : ι × Op × Res), (effects t)[k']? = some y → y.1 = j → k < k' := by
  induction h with
  | nil => cases hr
  | @invoke t h j₀ op₀ hfresh ih =>
      rw [history_event, List.mem_append, List.mem_singleton] at hr
      rcases hr with hr | heq
      · obtain ⟨k, op, hk, hlater⟩ := ih hr
        rw [effects_event]
        refine ⟨k, op, hk, fun j op' hsub k' y hy hyj => ?_⟩
        rw [history_event] at hsub
        rcases pair_sublist_concat hsub with hsub | ⟨-, heq⟩
        · exact hlater j op' hsub k' y hy hyj
        · -- a call that has just been made has no effect
          cases heq
          subst hyj
          exact absurd (h.invoked y (List.mem_of_getElem? hy)) (hfresh _)
      · cases heq
  | @effect t h j₀ op₀ hinvoked honce ih =>
      rw [history_effect] at hr
      obtain ⟨k, op, hk, hlater⟩ := ih hr
      rw [effects_effect]
      have hlt := (List.getElem?_eq_some_iff.mp hk).1
      refine ⟨k, op, by rwa [List.getElem?_append_left hlt], fun j op' hsub k' y hy hyj => ?_⟩
      rw [history_effect] at hsub
      rcases Pool.concat_cases hy with hy | ⟨rfl, -⟩
      · exact hlater j op' hsub k' y hy hyj
      · exact hlt
  | @ret t h j₀ op₀ r₀ heffect hfresh ih =>
      rw [history_event, List.mem_append, List.mem_singleton] at hr
      rw [effects_event]
      rcases hr with hr | heq
      · obtain ⟨k, op, hk, hlater⟩ := ih hr
        refine ⟨k, op, hk, fun j op' hsub k' y hy hyj => ?_⟩
        rw [history_event] at hsub
        rcases pair_sublist_concat hsub with hsub | ⟨-, heq⟩
        · exact hlater j op' hsub k' y hy hyj
        · cases heq
      · cases heq
        obtain ⟨k, hk⟩ := List.mem_iff_getElem?.mp heffect
        refine ⟨k, op₀, hk, fun j op' hsub k' y hy hyj => ?_⟩
        rw [history_event] at hsub
        rcases pair_sublist_concat hsub with hsub | ⟨-, heq⟩
        · exact absurd (hsub.subset List.mem_cons_self) (hfresh _)
        · cases heq

open Classical in
/-- The effects of a trace, less those of a call that changes nothing
other than the one it returned with, which is at `point`. -/
noncomputable def linearize (S : Spec σ Op Res) (point : ι → ℕ)
    (t : List (Event ι Op Res ⊕ (ι × Op × Res))) : List ((ι × Op × Res) × ℕ) :=
  (effects t).zipIdx.filter fun x =>
    decide (¬ S.ReadOnly x.1.2.1 ∨ (∃ r, .ret x.1.1 r ∈ history t) ∧ x.2 = point x.1.1)

section

variable {point : ι → ℕ}

theorem mem_linearize {x : ι × Op × Res} {k : ℕ} : (x, k) ∈ linearize S point t ↔
    (effects t)[k]? = some x ∧
      (¬ S.ReadOnly x.2.1 ∨ (∃ r, .ret x.1 r ∈ history t) ∧ k = point x.1) := by
  classical
  simp [linearize, List.mem_filter, List.mem_zipIdx_iff_getElem?]

theorem linearize_sorted : (linearize S point t).Pairwise fun x y => x.2 < y.2 :=
  (pairwise_zipIdx _).filter _

theorem Trace.linearize_unique (h : Trace S t) {x y : (ι × Op × Res) × ℕ}
    (hx : x ∈ linearize S point t) (hy : y ∈ linearize S point t) (hid : x.1.1 = y.1.1) :
    x.2 = y.2 := by
  obtain ⟨x, k⟩ := x
  obtain ⟨y, k'⟩ := y
  obtain ⟨hx, hkx⟩ := mem_linearize.mp hx
  obtain ⟨hy, hky⟩ := mem_linearize.mp hy
  by_contra hne
  -- two effects of one call change nothing, so both are at the point kept for it
  have hk := (hkx.resolve_left (not_not.mpr (h.once hx hy hid hne))).2
  have hk' := (hky.resolve_left (not_not.mpr (h.once hy hx hid.symm (Ne.symm hne)))).2
  exact hne (hk.trans ((congrArg point hid).trans hk'.symm))

end

/-- **The rule.** What follows the rules of a trace is linearizable. -/
theorem Trace.linearizable (h : Trace S t) : Linearizable S (history t) := by
  classical
  have hpoint : ∀ i, ∃ k : ℕ, ∀ r, .ret i r ∈ history t →
      ∃ op, (effects t)[k]? = some (i, op, r) ∧
        ∀ j op', [.ret i r, .invoke j op'] <+ history t →
          ∀ (k' : ℕ) (y : ι × Op × Res), (effects t)[k']? = some y → y.1 = j → k < k' := by
    intro i
    by_cases hex : ∃ r, .ret i r ∈ history t
    · obtain ⟨r, hr⟩ := hex
      obtain ⟨k, op, hk⟩ := h.point hr
      refine ⟨k, fun r' hr' => ?_⟩
      obtain rfl := h.ret_unique hr hr'
      exact ⟨op, hk⟩
    · exact ⟨0, fun r hr => absurd ⟨r, hr⟩ hex⟩
  choose point hpoint using hpoint
  refine ⟨(linearize S point t).map Prod.fst, ?_, ?_, ?_, ?_, ?_⟩
  · rw [List.map_map, List.Nodup, List.pairwise_map]
    refine linearize_sorted.imp_of_mem fun hx hy hlt hid => ?_
    exact hlt.ne (h.linearize_unique hx hy hid)
  · intro x hx
    obtain ⟨⟨y, k⟩, hy, rfl⟩ := List.mem_map.mp hx
    exact h.invoked _ (List.mem_of_getElem? (mem_linearize.mp hy).1)
  · intro i r hr
    obtain ⟨op, hk, -⟩ := hpoint i r hr
    exact ⟨op, List.mem_map.mpr ⟨(_, point i), mem_linearize.mpr ⟨hk, Or.inr ⟨⟨r, hr⟩, rfl⟩⟩, rfl⟩⟩
  · refine Spec.Legal.filter ?_ fun x _ hx => ?_
    · rw [List.zipIdx_map_fst]
      exact h.legal
    · by_contra hwrite
      exact of_decide_eq_false hx (Or.inl hwrite)
  · rintro i r j op' hsub _ hx' _ hy' rfl rfl
    obtain ⟨⟨x, k⟩, hx, rfl⟩ := List.mem_map.mp hx'
    obtain ⟨⟨y, k'⟩, hy, rfl⟩ := List.mem_map.mp hy'
    have hr : .ret x.1 r ∈ history t := hsub.subset List.mem_cons_self
    obtain ⟨op, hk, hlater⟩ := hpoint x.1 r hr
    -- the entry of the first call is the one kept for its return
    have hkept : ((x.1, op, r), point x.1) ∈ linearize S point t :=
      mem_linearize.mpr ⟨hk, Or.inr ⟨⟨r, hr⟩, rfl⟩⟩
    have hlt : k < k' := by
      have hkeq : k = point x.1 := h.linearize_unique hx hkept rfl
      rw [hkeq]
      exact hlater y.1 op' hsub k' y (mem_linearize.mp hy).1 rfl
    exact (pair_sublist linearize_sorted hx hy hlt).map Prod.fst

end RaftShardedKv.Linearizability
