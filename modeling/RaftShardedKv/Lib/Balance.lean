import Mathlib.Tactic

/-!
Balancing items over groups by single writes. An item that is in none of the
groups goes to a least loaded one; once there is none, an item of a most
loaded group goes to a least loaded one, as long as their loads differ by two
or more.

Groups that took an item stay among the least loaded, groups that gave one
among the most loaded. So no item is written twice, which bounds the run, and
at its end no balanced assignment is closer to the one it started from.
-/

namespace RaftShardedKv.Balance

open Finset Function

variable {S G : Type*} [Fintype S] [DecidableEq G]

/-- The number of items that an assignment has in a group. -/
def load (a : S → G) (g : G) : ℕ := #{s | a s = g}

def Valid (groups : Finset G) (a : S → G) : Prop := ∀ s, a s ∈ groups

def Even (groups : Finset G) (a : S → G) : Prop :=
  ∀ g ∈ groups, ∀ h ∈ groups, load a g ≤ load a h + 1

/-- The items of the groups that are in another group now. -/
def moved (groups : Finset G) (o a : S → G) : Finset S := {s | o s ∈ groups ∧ a s ≠ o s}

structure Least (groups : Finset G) (a : S → G) (g : G) : Prop where
  mem : g ∈ groups
  le : ∀ h ∈ groups, load a g ≤ load a h

structure Most (groups : Finset G) (a : S → G) (g : G) : Prop where
  mem : g ∈ groups
  le : ∀ h ∈ groups, load a h ≤ load a g

variable {groups : Finset G} {o a : S → G}

theorem load_le_card (a : S → G) (g : G) : load a g ≤ Fintype.card S := card_le_univ _

theorem sum_load (h : Valid groups a) : ∑ g ∈ groups, load a g = Fintype.card S := by
  rw [← card_univ]
  exact (card_eq_sum_card_fiberwise fun s _ => h s).symm

section Update

variable [DecidableEq S] {s : S} {g : G}

theorem load_update_self (h : a s ≠ g) : load (update a s g) g = load a g + 1 := by
  have hset : ({t | update a s g t = g} : Finset S) = insert s ({t | a t = g} : Finset S) := by
    ext t
    by_cases ht : t = s <;> simp [ht]
  rw [load, hset, card_insert_of_notMem (by simpa using h), load]

theorem load_update_old (h : a s ≠ g) : load (update a s g) (a s) + 1 = load a (a s) := by
  have hset : ({t | update a s g t = a s} : Finset S) = ({t | a t = a s} : Finset S).erase s := by
    ext t
    by_cases ht : t = s
    · simp [ht, h.symm]
    · simp [ht]
  rw [load, hset]
  exact card_erase_add_one (by simp)

theorem load_update_of_ne {h : G} (hold : h ≠ a s) (hnew : h ≠ g) :
    load (update a s g) h = load a h := by
  rw [load, load]
  congr 1
  ext t
  by_cases ht : t = s
  · simp [ht, hold.symm, hnew.symm]
  · simp [ht]

omit [Fintype S] [DecidableEq G] in
theorem Valid.update (h : Valid groups a) (hg : g ∈ groups) : Valid groups (update a s g) := by
  intro t
  by_cases ht : t = s
  · rw [ht, update_self]
    exact hg
  · rw [update_of_ne ht]
    exact h t

end Update

/-! ### Loads alone -/

/-- The loads `l` of the groups, where those in `T` took an item and those in
`D` gave one. -/
structure Levels (groups : Finset G) (l : G → ℕ) (T D : Set G) : Prop where
  took : ∀ t ∈ T, ∀ g ∈ groups, l t ≤ l g + 1
  gave : ∀ d ∈ D, ∀ g ∈ groups, l g ≤ l d + 1
  apart : ∀ d ∈ D, ∀ t ∈ T, t ≠ d
  ordered : ∀ d ∈ D, ∀ t ∈ T, l t ≤ l d

variable {l l' : G → ℕ} {T D : Set G} {g m : G}

omit [DecidableEq G] in
theorem Levels.fill (h : Levels groups l T ∅) (hleast : ∀ x ∈ groups, l g ≤ l x)
    (hT : T ⊆ groups) (hself : l' g = l g + 1) (hother : ∀ x ∈ groups, x ≠ g → l' x = l x) :
    Levels groups l' (insert g T) ∅ := by
  have hgrow : ∀ x ∈ groups, l x ≤ l' x := by
    intro x hx
    by_cases hxg : x = g
    · rw [hxg, hself]
      omega
    · rw [hother x hx hxg]
  refine ⟨fun t ht x hx => ?_, nofun, nofun, nofun⟩
  have hlow : l' t ≤ l x + 1 := by
    by_cases htg : t = g
    · rw [htg, hself]
      exact Nat.succ_le_succ (hleast x hx)
    · have htT := Set.mem_of_mem_insert_of_ne ht htg
      rw [hother t (hT htT) htg]
      exact h.took t htT x hx
  exact hlow.trans (Nat.succ_le_succ (hgrow x hx))

omit [DecidableEq G] in
/-- A most loaded group gives an item to a least loaded one. Afterwards the
groups that took one are at most one above the old minimum, those that gave
one at most one below the old maximum, and these are two or more apart. -/
theorem Levels.shift (h : Levels groups l T D) (hg : g ∈ groups) (hm : m ∈ groups)
    (hleast : ∀ x ∈ groups, l g ≤ l x) (hmost : ∀ x ∈ groups, l x ≤ l m) (hgap : l g + 2 ≤ l m)
    (hself : l' g = l g + 1) (hold : l' m + 1 = l m) (hother : ∀ x, x ≠ m → x ≠ g → l' x = l x) :
    Levels groups l' (insert g T) (insert m D) := by
  have hgm : g ≠ m := fun heq => by
    rw [heq] at hgap
    omega
  have hT : ∀ t ∈ T, t ≠ m := fun t ht heq => by
    have := heq ▸ h.took t ht g hg
    omega
  have hD : ∀ d ∈ D, d ≠ g := fun d hd heq => by
    have := heq ▸ h.gave d hd m hm
    omega
  have hlow : ∀ t ∈ insert g T, l' t ≤ l g + 1 := by
    intro t ht
    by_cases htg : t = g
    · rw [htg, hself]
    · have htT := Set.mem_of_mem_insert_of_ne ht htg
      rw [hother t (hT t htT) htg]
      exact h.took t htT g hg
  have hhigh : ∀ d ∈ insert m D, l m ≤ l' d + 1 := by
    intro d hd
    by_cases hdm : d = m
    · rw [hdm, hold]
    · have hdD := Set.mem_of_mem_insert_of_ne hd hdm
      rw [hother d hdm (hD d hdD)]
      exact h.gave d hdD m hm
  have hrange : ∀ x ∈ groups, l g ≤ l' x ∧ l' x ≤ l m := by
    intro x hx
    by_cases hxg : x = g
    · rw [hxg, hself]
      omega
    · by_cases hxm : x = m
      · rw [hxm]
        omega
      · rw [hother x hxm hxg]
        exact ⟨hleast x hx, hmost x hx⟩
  refine ⟨fun t ht x hx => ?_, fun d hd x hx => ?_, fun d hd t ht => ?_, fun d hd t ht => ?_⟩
  · have := hlow t ht
    have := (hrange x hx).1
    omega
  · have := hhigh d hd
    have := (hrange x hx).2
    omega
  · rcases Set.mem_insert_iff.mp ht with rfl | ht
    · rcases Set.mem_insert_iff.mp hd with rfl | hd
      · exact hgm
      · exact (hD d hd).symm
    · rcases Set.mem_insert_iff.mp hd with rfl | hd
      · exact hT t ht
      · exact h.apart d hd t ht
  · have := hlow t ht
    have := hhigh d hd
    omega

/-! ### A run of writes -/

def takers (a : S → G) (w : List S) : Set G := {g | ∃ s ∈ w, a s = g}

def givers (groups : Finset G) (o : S → G) (w : List S) : Set G := {g ∈ groups | ∃ s ∈ w, o s = g}

/-- What holds after writes to the items `w`, from `o` on. -/
structure Inv (groups : Finset G) (o a : S → G) (w : List S) : Prop where
  nodup : w.Nodup
  kept : ∀ s, s ∉ w → a s = o s
  placed : ∀ s ∈ w, a s ∈ groups
  fills : ¬Valid groups a → givers groups o w = ∅
  levels : Levels groups (load a) (takers a w) (givers groups o w)

variable {w : List S} {s : S}

theorem Inv.start (o : S → G) : Inv groups o o [] where
  nodup := List.nodup_nil
  kept _ _ := rfl
  placed := by simp
  fills _ := by simp [givers]
  levels := by constructor <;> simp [takers, givers]

section Run

variable [DecidableEq S]

omit [Fintype S] [DecidableEq G] in
theorem takers_write (hs : s ∉ w) : takers (update a s g) (w ++ [s]) = insert g (takers a w) := by
  have hsame : ∀ t ∈ w, update a s g t = a t := fun t ht => by
    rw [update_of_ne]
    rintro rfl
    exact hs ht
  ext x
  simp only [takers, List.mem_append, List.mem_singleton, Set.mem_ofPred_eq, Set.mem_insert_iff]
  constructor
  · rintro ⟨t, ht | rfl, rfl⟩
    · exact Or.inr ⟨t, ht, (hsame t ht).symm⟩
    · exact Or.inl (update_self ..)
  · rintro (rfl | ⟨t, ht, rfl⟩)
    · exact ⟨s, Or.inr rfl, update_self ..⟩
    · exact ⟨t, Or.inl ht, hsame t ht⟩

omit [Fintype S] [DecidableEq S] in
theorem nodup_write (h : w.Nodup) (hs : s ∉ w) : (w ++ [s]).Nodup :=
  List.concat_eq_append ▸ h.concat hs

omit [Fintype S] [DecidableEq G] in
theorem kept_write (h : ∀ t, t ∉ w → a t = o t) (g : G) (t : S) (ht : t ∉ w ++ [s]) :
    update a s g t = o t := by
  simp only [List.mem_append, List.mem_singleton, not_or] at ht
  rw [update_of_ne ht.2]
  exact h t ht.1

omit [Fintype S] [DecidableEq G] in
theorem placed_write (h : ∀ t ∈ w, a t ∈ groups) (hg : g ∈ groups) (t : S)
    (ht : t ∈ w ++ [s]) : update a s g t ∈ groups := by
  by_cases heq : t = s
  · rw [heq, update_self]
    exact hg
  · rw [update_of_ne heq]
    exact h t (by simpa [heq] using ht)

theorem Inv.fill (h : Inv groups o a w) (hs : a s ∉ groups) (hg : Least groups a g) :
    Inv groups o (update a s g) (w ++ [s]) := by
  have hnew : s ∉ w := fun hmem => hs (h.placed s hmem)
  have hne : a s ≠ g := fun heq => hs (heq ▸ hg.mem)
  have hnone := h.fills fun hvalid => hs (hvalid s)
  have hgivers : givers groups o (w ++ [s]) = ∅ := by
    rw [Set.eq_empty_iff_forall_notMem] at hnone ⊢
    rintro x ⟨hx, t, ht, rfl⟩
    rcases List.mem_append.mp ht with ht | ht
    · exact hnone _ ⟨hx, t, ht, rfl⟩
    · rw [List.mem_singleton.mp ht, ← h.kept s hnew] at hx
      exact hs hx
  refine ⟨nodup_write h.nodup hnew, kept_write h.kept g, placed_write h.placed hg.mem,
    fun _ => hgivers, ?_⟩
  rw [takers_write hnew, hgivers]
  refine (hnone ▸ h.levels).fill hg.le ?_ (load_update_self hne) fun x hx hxg =>
    load_update_of_ne (fun heq => hs (heq ▸ hx)) hxg
  rintro x ⟨t, ht, rfl⟩
  exact h.placed t ht

theorem Inv.shift (h : Inv groups o a w) (hvalid : Valid groups a) (hs : Most groups a (a s))
    (hg : Least groups a g) (hgap : load a g + 2 ≤ load a (a s)) :
    Inv groups o (update a s g) (w ++ [s]) := by
  have hnew : s ∉ w := fun hmem => by
    have := h.levels.took (a s) ⟨s, hmem, rfl⟩ g hg.mem
    omega
  have hne : a s ≠ g := fun heq => by
    rw [heq] at hgap
    omega
  have hgivers : givers groups o (w ++ [s]) = insert (a s) (givers groups o w) := by
    ext x
    simp only [givers, List.mem_append, List.mem_singleton, Set.mem_insert_iff]
    constructor
    · rintro ⟨hx, t, ht | rfl, rfl⟩
      · exact Or.inr ⟨hx, t, ht, rfl⟩
      · exact Or.inl (h.kept t hnew).symm
    · rintro (rfl | ⟨hx, t, ht, rfl⟩)
      · exact ⟨hs.mem, s, Or.inr rfl, (h.kept s hnew).symm⟩
      · exact ⟨hx, t, Or.inl ht, rfl⟩
  refine ⟨nodup_write h.nodup hnew, kept_write h.kept g, placed_write h.placed hg.mem,
    fun hnot => absurd (hvalid.update hg.mem) hnot, ?_⟩
  rw [takers_write hnew, hgivers]
  exact h.levels.shift hg.mem hs.mem hg.le hs.le hgap (load_update_self hne) (load_update_old hne)
    fun x hx hxg => load_update_of_ne hx hxg

end Run

/-! ### The least number of moves -/

section Sums

variable {x y o : G → ℕ}

omit [DecidableEq G] in
/-- Among functions of one sum, an even one does not exceed the maximum of
another. -/
theorem le_of_max (hsum : ∑ g ∈ groups, x g = ∑ g ∈ groups, y g)
    (hy : ∀ g ∈ groups, ∀ h ∈ groups, y g ≤ y h + 1) (hg : g ∈ groups)
    (hmax : ∀ h ∈ groups, x h ≤ x g) : y g ≤ x g := by
  by_contra hlt
  refine (sum_lt_sum (fun h hh => ?_) ⟨g, hg, not_le.mp hlt⟩).ne hsum
  have := hy g hg h hh
  have := hmax h hh
  omega

omit [DecidableEq G] in
theorem ge_of_min (hsum : ∑ g ∈ groups, x g = ∑ g ∈ groups, y g)
    (hy : ∀ g ∈ groups, ∀ h ∈ groups, y g ≤ y h + 1) (hg : g ∈ groups)
    (hmin : ∀ h ∈ groups, x g ≤ x h) : x g ≤ y g := by
  by_contra hlt
  refine (sum_lt_sum (fun h hh => ?_) ⟨g, hg, not_le.mp hlt⟩).ne hsum.symm
  have := hy h hh g hg
  have := hmin h hh
  omega

omit [DecidableEq G] in
/-- What is lost between `o` and `x` is the least, if no group that grew is
above one that shrank. -/
theorem sum_sub_le (hsum : ∑ g ∈ groups, x g = ∑ g ∈ groups, y g)
    (hx : ∀ g ∈ groups, ∀ h ∈ groups, x g ≤ x h + 1)
    (hy : ∀ g ∈ groups, ∀ h ∈ groups, y g ≤ y h + 1)
    (hordered : ∀ d ∈ groups, ∀ t ∈ groups, x d < o d → o t < x t → x t ≤ x d) :
    ∑ g ∈ groups, (o g - x g) ≤ ∑ g ∈ groups, (o g - y g) := by
  by_cases htop : ∀ d ∈ groups, x d < o d → ∀ h ∈ groups, x h ≤ x d
  · -- the groups that shrank are the fullest, so every one of them is as full as it may be
    refine sum_le_sum fun g hg => ?_
    by_cases hlost : x g < o g
    · exact Nat.sub_le_sub_left (le_of_max hsum hy hg (htop g hg hlost)) _
    · omega
  · -- the groups that grew are the emptiest; what they gained is the least
    push Not at htop
    obtain ⟨d, hd, hlost, h, hh, hlt⟩ := htop
    have hgain : ∑ g ∈ groups, (x g - o g) ≤ ∑ g ∈ groups, (y g - o g) := by
      refine sum_le_sum fun g hg => ?_
      by_cases hgrew : o g < x g
      · refine Nat.sub_le_sub_right (ge_of_min hsum hy hg fun k hk => ?_) _
        have := hordered d hd g hg hlost hgrew
        have := hx h hh k hk
        omega
      · omega
    have hbalance : ∀ z : G → ℕ, ∑ g ∈ groups, (o g - z g) + ∑ g ∈ groups, z g =
        ∑ g ∈ groups, (z g - o g) + ∑ g ∈ groups, o g := by
      intro z
      rw [← sum_add_distrib, ← sum_add_distrib]
      exact sum_congr rfl fun g _ => by omega
    have := hbalance x
    have := hbalance y
    omega

end Sums

def lost (o a : S → G) (g : G) : ℕ := #{s | o s = g ∧ a s ≠ g}

theorem card_moved : #(moved groups o a) = ∑ g ∈ groups, lost o a g := by
  rw [card_eq_sum_card_fiberwise (f := o) (t := groups) fun s hs => (mem_filter.mp hs).2.1]
  refine sum_congr rfl fun g hg => ?_
  rw [lost]
  congr 1
  ext s
  simp only [moved, mem_filter, mem_univ, true_and]
  constructor
  · rintro ⟨⟨-, hne⟩, rfl⟩
    exact ⟨rfl, hne⟩
  · rintro ⟨rfl, hne⟩
    exact ⟨⟨hg, hne⟩, rfl⟩

theorem load_eq (o a : S → G) (g : G) : load o g = #{s | o s = g ∧ a s = g} + lost o a g := by
  rw [load, lost, ← card_filter_add_card_filter_not (s := {s | o s = g}) fun s => a s = g,
    filter_filter, filter_filter]

theorem sub_le_lost (o a : S → G) (g : G) : load o g - load a g ≤ lost o a g := by
  have hkept : #{s | o s = g ∧ a s = g} ≤ load a g :=
    card_le_card fun s => by simp +contextual
  have := load_eq o a g
  omega

theorem Inv.lost_of_giver (h : Inv groups o a w) (hg : g ∈ givers groups o w) :
    lost o a g = load o g - load a g := by
  have hkept : #{s | o s = g ∧ a s = g} = load a g := by
    rw [load]
    congr 1
    ext s
    simp only [mem_filter, mem_univ, true_and, and_iff_right_iff_imp]
    intro hs
    have hnot : s ∉ w := fun hmem => h.levels.apart g hg g ⟨s, hmem, hs⟩ rfl
    rw [← h.kept s hnot, hs]
  have := load_eq o a g
  omega

theorem Inv.lost_of_not_giver (h : Inv groups o a w) (hg : g ∈ groups)
    (hnot : g ∉ givers groups o w) : lost o a g = 0 := by
  rw [lost, card_eq_zero, filter_eq_empty_iff]
  rintro s - ⟨rfl, hne⟩
  have hs : s ∉ w := fun hmem => hnot ⟨hg, s, hmem, rfl⟩
  exact hne (h.kept s hs)

theorem Inv.lost_eq (h : Inv groups o a w) (hg : g ∈ groups) :
    lost o a g = load o g - load a g := by
  by_cases hgiver : g ∈ givers groups o w
  · exact h.lost_of_giver hgiver
  · have := sub_le_lost o a g
    have := h.lost_of_not_giver hg hgiver
    omega

theorem Inv.giver_of_lt (h : Inv groups o a w) (hg : g ∈ groups) (hlt : load a g < load o g) :
    g ∈ givers groups o w := by
  by_contra hnot
  have := h.lost_of_not_giver hg hnot
  have := sub_le_lost o a g
  omega

theorem Inv.taker_of_lt (h : Inv groups o a w) (hlt : load o g < load a g) : g ∈ takers a w := by
  by_contra hnot
  refine hlt.not_ge (card_le_card fun s hs => ?_)
  simp only [mem_filter, mem_univ, true_and] at hs ⊢
  rw [← h.kept s fun hmem => hnot ⟨s, hmem, hs⟩, hs]

/-- No even assignment to the groups moves fewer items out of a group that
stays than a run of writes that ended in one. -/
theorem Inv.card_moved_le (h : Inv groups o a w) (hvalid : Valid groups a) (heven : Even groups a)
    {f : S → G} (hfvalid : Valid groups f) (hfeven : Even groups f) :
    #(moved groups o a) ≤ #(moved groups o f) := by
  rw [card_moved, card_moved]
  calc ∑ g ∈ groups, lost o a g
      = ∑ g ∈ groups, (load o g - load a g) := sum_congr rfl fun g hg => h.lost_eq hg
    _ ≤ ∑ g ∈ groups, (load o g - load f g) := by
        refine sum_sub_le ?_ heven hfeven fun d hd t _ hlost hgrew => ?_
        · rw [sum_load hvalid, sum_load hfvalid]
        · exact h.levels.ordered d (h.giver_of_lt hd hlost) t (h.taker_of_lt hgrew)
    _ ≤ ∑ g ∈ groups, lost o f g := sum_le_sum fun g _ => sub_le_lost o f g

end RaftShardedKv.Balance
