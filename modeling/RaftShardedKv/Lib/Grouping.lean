import Mathlib.Tactic
import Mathlib.Algebra.BigOperators.Group.Finset.Basic
import Mathlib.Data.Multiset.Fold

/-!
Grouping the elements of a list by a key, and reducing each group.

A list that is sorted by its keys has the elements of one key in a row, so one
pass finds the groups (`runs`). What comes out does not depend on the order in
which the elements came in, except for the order of the values within a group,
and it may be computed for any part of the keys apart: `reduced` says what it
is without an order, and adds up over a partition of the keys.
-/

namespace RaftShardedKv.Grouping

variable {α K V R : Type*} (key : α → K) (value : α → V)

section

variable [DecidableEq K]

def valuesOf (k : K) (l : List α) : List V := (l.filter fun a => key a = k).map value

/-- The runs of equal keys of a list, when a run of `k` with the values `vs` is
under way. -/
def runsFrom (k : K) (vs : List V) : List α → List (K × List V)
  | [] => [(k, vs)]
  | a :: l =>
      if key a = k then runsFrom k (vs ++ [value a]) l
      else (k, vs) :: runsFrom (key a) [value a] l

def runs : List α → List (K × List V)
  | [] => []
  | a :: l => runsFrom key value (key a) [value a] l

@[simp] theorem valuesOf_nil (k : K) : valuesOf key value k [] = [] := rfl

theorem valuesOf_cons_self (a : α) (l : List α) :
    valuesOf key value (key a) (a :: l) = value a :: valuesOf key value (key a) l := by
  simp [valuesOf]

variable {key} in
theorem valuesOf_cons_ne {k : K} {a : α} (h : key a ≠ k) (l : List α) :
    valuesOf key value k (a :: l) = valuesOf key value k l := by
  simp [valuesOf, h]

variable {key} in
theorem valuesOf_eq_nil {k : K} {l : List α} (h : ∀ a ∈ l, key a ≠ k) :
    valuesOf key value k l = [] := by
  simp only [valuesOf, List.map_eq_nil_iff, List.filter_eq_nil_iff, decide_eq_true_eq]
  exact h

end

/-! ### The runs of a sorted list -/

section

-- the equality test need not be the one that comes with the order
variable [LinearOrder K] [DecidableEq K]

/-- What the pass finds: each key once, in order, with all of its values. -/
structure Found (k : K) (vs : List V) (l : List α) (found : List (K × List V)) : Prop where
  sorted : (found.map Prod.fst).Pairwise (· < ·)
  keys : ∀ k', k' ∈ found.map Prod.fst ↔ k' = k ∨ k' ∈ l.map key
  values : ∀ r ∈ found, r.2 = if r.1 = k then vs ++ valuesOf key value k l
    else valuesOf key value r.1 l

variable {key value}

theorem found_runsFrom {k : K} {vs : List V} {l : List α}
    (hsorted : l.Pairwise fun a b => key a ≤ key b) (hfirst : ∀ a ∈ l, k ≤ key a) :
    Found key value k vs l (runsFrom key value k vs l) := by
  induction l generalizing k vs with
  | nil => exact ⟨by simp [runsFrom], by simp [runsFrom], by simp [runsFrom]⟩
  | cons a l ih =>
      rw [List.pairwise_cons] at hsorted
      have hrest : ∀ b ∈ l, k ≤ key b := fun b hb => hfirst b (List.mem_cons_of_mem a hb)
      by_cases heq : key a = k
      · subst heq
        have hfound : Found key value (key a) (vs ++ [value a]) l _ := ih hsorted.2 hrest
        obtain ⟨hpair, hkeys, hvalues⟩ := hfound
        rw [runsFrom, if_pos rfl]
        refine ⟨hpair, fun k' => ?_, fun r hr => ?_⟩
        · rw [hkeys k', List.map_cons, List.mem_cons]
          tauto
        · rw [hvalues r hr]
          split
          · rw [valuesOf_cons_self, List.append_assoc, List.singleton_append]
          · rename_i hne
            rw [valuesOf_cons_ne value (Ne.symm hne)]
      · have hlt : k < key a := lt_of_le_of_ne (hfirst a List.mem_cons_self) (Ne.symm heq)
        have hfound : Found key value (key a) [value a] l _ := ih hsorted.2 hsorted.1
        obtain ⟨hpair, hkeys, hvalues⟩ := hfound
        rw [runsFrom, if_neg heq]
        -- all keys to come are above `k`
        have habove : ∀ k' ∈ (runsFrom key value (key a) [value a] l).map Prod.fst, k < k' := by
          intro k' hk'
          rcases (hkeys k').mp hk' with rfl | hmem
          · exact hlt
          · obtain ⟨b, hb, rfl⟩ := List.mem_map.mp hmem
            exact hlt.trans_le (hsorted.1 b hb)
        refine ⟨List.pairwise_cons.mpr ⟨habove, hpair⟩, fun k' => ?_, fun r hr => ?_⟩
        · rw [List.map_cons, List.mem_cons, hkeys k', List.map_cons, List.mem_cons]
        · rcases List.mem_cons.mp hr with rfl | hr
          · have hnone : ∀ b ∈ a :: l, key b ≠ k := by
              intro b hb
              rcases List.mem_cons.mp hb with rfl | hb
              · exact heq
              · exact (hlt.trans_le (hsorted.1 b hb)).ne'
            rw [if_pos rfl, valuesOf_eq_nil value hnone, List.append_nil]
          · have hne : r.1 ≠ k := (habove r.1 (List.mem_map_of_mem hr)).ne'
            rw [hvalues r hr, if_neg hne]
            split
            · rename_i hr1
              rw [hr1, valuesOf_cons_self, List.singleton_append]
            · rename_i hr1
              rw [valuesOf_cons_ne value (Ne.symm hr1)]

theorem runs_sorted {l : List α} (hsorted : l.Pairwise fun a b => key a ≤ key b) :
    ((runs key value l).map Prod.fst).Pairwise (· < ·) := by
  cases l with
  | nil => exact .nil
  | cons a l =>
      rw [List.pairwise_cons] at hsorted
      exact (found_runsFrom hsorted.2 hsorted.1).sorted

theorem mem_keys_runs {l : List α} (hsorted : l.Pairwise fun a b => key a ≤ key b) (k : K) :
    k ∈ (runs key value l).map Prod.fst ↔ k ∈ l.map key := by
  cases l with
  | nil => rfl
  | cons a l =>
      rw [List.pairwise_cons] at hsorted
      rw [List.map_cons, List.mem_cons]
      exact (found_runsFrom hsorted.2 hsorted.1).keys k

theorem runs_values {l : List α} (hsorted : l.Pairwise fun a b => key a ≤ key b)
    {r : K × List V} (hr : r ∈ runs key value l) : r.2 = valuesOf key value r.1 l := by
  cases l with
  | nil => cases hr
  | cons a l =>
      rw [List.pairwise_cons] at hsorted
      rw [(found_runsFrom hsorted.2 hsorted.1).values r hr]
      split
      · rename_i heq
        rw [heq, valuesOf_cons_self, List.singleton_append]
      · rename_i hne
        rw [valuesOf_cons_ne value (Ne.symm hne)]

end

/-! ### Reducing the groups -/

section

variable [DecidableEq K] (f : K → List V → R)

def reduced (l : List α) : Multiset (K × R) :=
  ∑ k ∈ (l.map key).toFinset, {(k, f k (valuesOf key value k l))}

variable {key value f}

theorem reduced_perm (hf : ∀ k {vs vs' : List V}, vs.Perm vs' → f k vs = f k vs') {l l' : List α}
    (h : l.Perm l') : reduced key value f l = reduced key value f l' := by
  have hkeys : (l.map key).toFinset = (l'.map key).toFinset :=
    List.toFinset_eq_of_perm _ _ (h.map key)
  rw [reduced, reduced, hkeys]
  refine Finset.sum_congr rfl fun k _ => ?_
  have hvalues : (valuesOf key value k l).Perm (valuesOf key value k l') := (h.filter _).map value
  rw [hf k hvalues]

/-- The groups may be reduced in parts, where a part has all elements of its
keys. -/
theorem sum_reduced (part : K → ℕ) {n : ℕ} (hpart : ∀ k, part k < n) (l : List α) :
    ∑ j ∈ Finset.range n, reduced key value f (l.filter fun a => part (key a) = j) =
      reduced key value f l := by
  have hone : ∀ j, reduced key value f (l.filter fun a => part (key a) = j) =
      ∑ k ∈ (l.map key).toFinset with part k = j, {(k, f k (valuesOf key value k l))} := by
    intro j
    have hkeys : ((l.filter fun a => part (key a) = j).map key).toFinset =
        {k ∈ (l.map key).toFinset | part k = j} := by
      ext k
      simp only [List.mem_toFinset, List.mem_map, List.mem_filter, decide_eq_true_eq,
        Finset.mem_filter]
      constructor
      · rintro ⟨a, ⟨ha, hj⟩, rfl⟩
        exact ⟨⟨a, ha, rfl⟩, hj⟩
      · rintro ⟨⟨a, ha, rfl⟩, hj⟩
        exact ⟨a, ⟨ha, hj⟩, rfl⟩
    rw [reduced, hkeys]
    refine Finset.sum_congr rfl fun k hk => ?_
    have hj := (Finset.mem_filter.mp hk).2
    -- the part has all elements with the key
    have hvalues : valuesOf key value k (l.filter fun a => part (key a) = j) =
        valuesOf key value k l := by
      rw [valuesOf, valuesOf, List.filter_filter]
      refine congrArg (List.map value) (List.filter_congr fun a _ => ?_)
      by_cases ha : key a = k
      · simp [ha, hj]
      · simp [ha]
    rw [hvalues]
  calc ∑ j ∈ Finset.range n, reduced key value f (l.filter fun a => part (key a) = j)
      = ∑ j ∈ Finset.range n, ∑ k ∈ (l.map key).toFinset with part k = j,
          {(k, f k (valuesOf key value k l))} := Finset.sum_congr rfl fun j _ => hone j
    _ = reduced key value f l := Finset.sum_fiberwise_of_maps_to
          (fun k _ => Finset.mem_range.mpr (hpart k)) _

end

theorem reduced_eq_runs [LinearOrder K] [DecidableEq K] {f : K → List V → R} {l : List α}
    (hsorted : l.Pairwise fun a b => key a ≤ key b) :
    reduced key value f l = ((runs key value l).map fun r => (r.1, f r.1 r.2) : List (K × R)) := by
  have hnodup : ((runs key value l).map Prod.fst).Nodup := (runs_sorted hsorted).imp ne_of_lt
  have hkeys : (l.map key).toFinset = ((runs key value l).map Prod.fst).toFinset := by
    ext k
    rw [List.mem_toFinset, List.mem_toFinset, mem_keys_runs hsorted]
  have hlist : (runs key value l).map (fun r => (r.1, f r.1 r.2)) =
      ((runs key value l).map Prod.fst).map fun k => (k, f k (valuesOf key value k l)) := by
    rw [List.map_map]
    refine List.map_congr_left fun r hr => ?_
    rw [Function.comp_apply, runs_values hsorted hr]
  rw [reduced, hkeys, List.sum_toFinset _ hnodup, hlist]
  generalize (runs key value l).map Prod.fst = ks
  induction ks with
  | nil => rfl
  | cons k ks ih =>
      rw [List.map_cons, List.sum_cons, ih, List.map_cons]
      rfl

end RaftShardedKv.Grouping
