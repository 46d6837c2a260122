import RaftShardedKv.Lib.Transition

/-!
Handing one object from holder to holder along numbered plans, with no
lock and no clock.

Plan `n` names the holder `owner n`; where it differs from `owner (n - 1)`
the object moves. The old holder stops serving and keeps what it had, the
new one starts from exactly that, and only when the plan has been
published may the old copy be dropped. Every holder remembers the number
of the last plan that changed its copy, and does not go back behind it:
that is all that protects against orders that come late or twice, and
orders may come late and twice at any time.

The history says which plans have been carried out how far: what a holder
had when it stopped, which copies have been made, which have been
dropped. It is only ever extended, so whoever has seen a part of it may
rely on it for good.
-/

namespace RaftShardedKv.Handover

open Transition

inductive Status
  | absent
  | serving
  | frozen
  deriving DecidableEq, Repr

/-- A copy of the object: its number is that of the last plan that
changed its status. -/
structure Cell (D : Type*) where
  status : Status
  num : ℤ
  content : D

/-- How far the last plan has got. -/
inductive Stage
  | planned
  | published
  | settled
  deriving DecidableEq, Repr

structure State (G D : Type*) where
  owner : ℤ → G
  /-- The number of the last plan. -/
  last : ℤ
  stage : Stage
  cell : G → Cell D
  /-- What the old holder of a plan had when it stopped. -/
  frozen : ℤ → Option D
  /-- The plans whose new holder has started. -/
  installed : Set ℤ
  /-- The plans whose old holder has dropped its copy. -/
  deleted : Set ℤ

variable {G D : Type*} [DecidableEq G]

namespace State

/-- Plan `n` has been made and moves the object. -/
def Moves (a : State G D) (n : ℤ) : Prop :=
  1 < n ∧ n ≤ a.last ∧ a.owner (n - 1) ≠ a.owner n

def Published (a : State G D) (n : ℤ) : Prop :=
  n < a.last ∨ n = a.last ∧ a.stage ≠ .planned

def setCell (a : State G D) (g : G) (c : Cell D) : State G D :=
  { a with cell := Function.update a.cell g c }

def plan (a : State G D) (g : G) : State G D :=
  { a with
    owner := Function.update a.owner (a.last + 1) g
    last := a.last + 1
    stage := .planned }

def freeze (a : State G D) (n : ℤ) : State G D :=
  let g := a.owner (n - 1)
  { a.setCell g ⟨.frozen, n, (a.cell g).content⟩ with
    frozen := Function.update a.frozen n (some (a.cell g).content) }

def install (a : State G D) (n : ℤ) (d : D) : State G D :=
  { a.setCell (a.owner n) ⟨.serving, n, d⟩ with installed := insert n a.installed }

def delete (a : State G D) (n : ℤ) (d : D) : State G D :=
  { a.setCell (a.owner (n - 1)) ⟨.absent, n, d⟩ with deleted := insert n a.deleted }

def write (a : State G D) (g : G) (d : D) : State G D :=
  a.setCell g { a.cell g with content := d }

variable (a : State G D) (n : ℤ) (d : D) (g g' : G)

theorem num_le_setCell {c : Cell D} (hc : (a.cell g).num ≤ c.num) :
    (a.cell g').num ≤ ((a.setCell g c).cell g').num := by
  by_cases hg : g' = g
  · subst hg
    simpa [setCell] using hc
  · simp [setCell, hg]

theorem setCell_num_le {c : Cell D} {m : ℤ} (hc : c.num ≤ m) (h : ∀ g, (a.cell g).num ≤ m) :
    ((a.setCell g c).cell g').num ≤ m := by
  by_cases hg : g' = g
  · subst hg
    simpa [setCell] using hc
  · simpa [setCell, hg] using h g'

theorem freeze_cell : (a.freeze n).cell g = if g = a.owner (n - 1) then
    ⟨.frozen, n, (a.cell (a.owner (n - 1))).content⟩ else a.cell g :=
  Function.update_apply ..

theorem freeze_frozen (m : ℤ) : (a.freeze n).frozen m =
    if m = n then some (a.cell (a.owner (n - 1))).content else a.frozen m :=
  Function.update_apply ..

theorem install_cell :
    (a.install n d).cell g = if g = a.owner n then ⟨.serving, n, d⟩ else a.cell g :=
  Function.update_apply ..

theorem delete_cell :
    (a.delete n d).cell g = if g = a.owner (n - 1) then ⟨.absent, n, d⟩ else a.cell g :=
  Function.update_apply ..

theorem write_cell :
    (a.write g d).cell g' = if g' = g then { a.cell g with content := d } else a.cell g' :=
  Function.update_apply ..

end State

omit [DecidableEq G] in
theorem ne_of_status {cell : G → Cell D} {g k : G} {c : Cell D} {status : Status}
    (hself : cell k = c) (hs : (cell g).status = status) (hne : c.status ≠ status) : g ≠ k := by
  rintro rfl
  exact hne (hself ▸ hs)

/-- What the holders and those who make the plans can do. -/
inductive Step (a : State G D) : State G D → Prop
  | plan (g : G) (h : a.stage = .settled) : Step a (a.plan g)
  | freeze (n : ℤ) (hn : a.Moves n) (hstatus : (a.cell (a.owner (n - 1))).status = .serving)
      (hlt : (a.cell (a.owner (n - 1))).num < n) : Step a (a.freeze n)
  | install (n : ℤ) (d : D) (hn : a.Moves n) (hd : a.frozen n = some d)
      (hstatus : (a.cell (a.owner n)).status = .absent) (hlt : (a.cell (a.owner n)).num < n) :
      Step a (a.install n d)
  | publish (h : a.stage = .planned) (hdone : a.Moves a.last → a.last ∈ a.installed) :
      Step a { a with stage := .published }
  | delete (n : ℤ) (d : D) (hn : a.Moves n) (hpublished : a.Published n)
      (hstatus : (a.cell (a.owner (n - 1))).status = .frozen)
      (hnum : (a.cell (a.owner (n - 1))).num = n) : Step a (a.delete n d)
  | settle (h : a.stage = .published) (hdone : a.Moves a.last → a.last ∈ a.deleted) :
      Step a { a with stage := .settled }
  | write (g : G) (d : D) (h : (a.cell g).status = .serving) : Step a (a.write g d)

/-- One holder, under plan 1. -/
def State.start (g : G) (content : G → D) : State G D where
  owner _ := g
  last := 1
  stage := .settled
  cell g' := if g' = g then ⟨.serving, 1, content g'⟩ else ⟨.absent, 0, content g'⟩
  frozen _ := none
  installed := ∅
  deleted := ∅

/-- The handover from first holder `g`. -/
def handover (g : G) (content : G → D) : Sys (State G D) Unit where
  init a := a = .start g content
  step a _ a' := Step a a'

/-! ### The history is only extended -/

/-- What is known of `a` and still true of `a'`. -/
structure Extends (a a' : State G D) : Prop where
  last : a.last ≤ a'.last
  owner : ∀ n ≤ a.last, a'.owner n = a.owner n
  frozen : ∀ n d, a.frozen n = some d → a'.frozen n = some d
  installed : a.installed ⊆ a'.installed
  deleted : a.deleted ⊆ a'.deleted
  published : ∀ n, a.Published n → a'.Published n

section

omit [DecidableEq G]

theorem Extends.refl (a : State G D) : Extends a a :=
  ⟨le_rfl, fun _ _ => rfl, fun _ _ h => h, subset_rfl, subset_rfl, fun _ h => h⟩

theorem Extends.trans {a b c : State G D} (h : Extends a b) (h' : Extends b c) : Extends a c where
  last := h.last.trans h'.last
  owner n hn := (h'.owner n (hn.trans h.last)).trans (h.owner n hn)
  frozen n d hd := h'.frozen n d (h.frozen n d hd)
  installed := h.installed.trans h'.installed
  deleted := h.deleted.trans h'.deleted
  published n hn := h'.published n (h.published n hn)

theorem Extends.moves {a a' : State G D} (h : Extends a a') {n : ℤ} (hn : a.Moves n) :
    a'.Moves n := by
  obtain ⟨hpos, hle, hne⟩ := hn
  refine ⟨hpos, hle.trans h.last, ?_⟩
  rwa [h.owner n hle, h.owner (n - 1) (by omega)]

theorem Extends.moves_iff {a a' : State G D} (h : Extends a a') {n : ℤ} (hn : n ≤ a.last) :
    a'.Moves n ↔ a.Moves n := by
  refine ⟨fun ⟨hpos, _, hne⟩ => ⟨hpos, hn, ?_⟩, h.moves⟩
  rwa [h.owner n hn, h.owner (n - 1) (by omega)] at hne

end

/-! ### Who holds the object -/

namespace State

/-- `g` serves, and nobody else has a copy. -/
def Alone (a : State G D) (g : G) : Prop :=
  (a.cell g).status = .serving ∧ ∀ g' ≠ g, (a.cell g').status = .absent

/-- The last plan moves the object and is not yet settled. -/
def Moving (a : State G D) : Prop := a.stage ≠ .settled ∧ a.Moves a.last

end State

/-- The first group of facts says what the number of a copy tells about
the history, the second who holds the object, for each part of the last
plan that has been carried out. -/
structure Inv (a : State G D) : Prop where
  pos : 1 ≤ a.last
  num_le : ∀ g, (a.cell g).num ≤ a.last
  frozen_moves : ∀ n d, a.frozen n = some d → a.Moves n
  frozen_num : ∀ n d, a.frozen n = some d → n ≤ (a.cell (a.owner (n - 1))).num
  installed_num : ∀ n ∈ a.installed, n ≤ (a.cell (a.owner n)).num
  installed_frozen : ∀ n ∈ a.installed, ∃ d, a.frozen n = some d
  deleted_installed : ∀ n ∈ a.deleted, n ∈ a.installed
  published : ∀ n, a.Moves n → a.Published n → n ∈ a.installed
  settled : ∀ n, a.Moves n → n < a.last ∨ a.stage = .settled → n ∈ a.deleted
  serving_cell : ∀ g, (a.cell g).status = .serving →
    g = a.owner (a.cell g).num ∧ (1 < (a.cell g).num → (a.cell g).num ∈ a.installed)
  frozen_cell : ∀ g, (a.cell g).status = .frozen → a.Moves (a.cell g).num ∧
    g = a.owner ((a.cell g).num - 1) ∧ a.frozen (a.cell g).num = some (a.cell g).content ∧
    (a.cell g).num ∉ a.deleted
  absent_cell : ∀ g, (a.cell g).status = .absent → 0 < (a.cell g).num →
    (a.cell g).num ∈ a.deleted
  after : ¬ a.Moving ∨ a.last ∈ a.deleted → a.Alone (a.owner a.last)
  before : a.Moving → a.frozen a.last = none → a.Alone (a.owner (a.last - 1))
  stopped : a.Moving → a.frozen a.last ≠ none → a.last ∉ a.installed →
    (a.cell (a.owner (a.last - 1))).status = .frozen ∧
    (a.cell (a.owner (a.last - 1))).num = a.last ∧
    ∀ g ≠ a.owner (a.last - 1), (a.cell g).status = .absent
  copied : a.Moving → a.last ∈ a.installed → a.last ∉ a.deleted →
    (a.cell (a.owner (a.last - 1))).status = .frozen ∧
    (a.cell (a.owner (a.last - 1))).num = a.last ∧
    (a.cell (a.owner a.last)).status = .serving ∧ (a.cell (a.owner a.last)).num = a.last ∧
    ∀ g, g ≠ a.owner (a.last - 1) → g ≠ a.owner a.last → (a.cell g).status = .absent

theorem Inv.start (g : G) (content : G → D) : Inv (State.start g content) := by
  constructor <;> simp [State.start, State.Moves, State.Published, State.Alone, State.Moving] <;>
    grind

variable {a : State G D}

omit [DecidableEq G] in
theorem Inv.installed_moves (h : Inv a) {n : ℤ} (hn : n ∈ a.installed) : a.Moves n := by
  obtain ⟨d, hd⟩ := h.installed_frozen n hn
  exact h.frozen_moves n d hd

theorem Inv.plan (h : Inv a) (hstage : a.stage = .settled) (g : G) : Inv (a.plan g) := by
  have howner : ∀ n ≤ a.last, (a.plan g).owner n = a.owner n := fun n hn =>
    Function.update_of_ne (by omega) _ _
  have hmoves : ∀ n ≤ a.last, ((a.plan g).Moves n ↔ a.Moves n) := by
    intro n hn
    have hle : n ≤ a.last + 1 := by omega
    simp only [State.Moves, howner n hn, howner (n - 1) (by omega)]
    simp [State.plan, hn, hle]
  have hnew : ∀ d, a.frozen (a.last + 1) ≠ some d := fun d hd => by
    have := (h.frozen_moves _ d hd).2.1
    omega
  have hnotin : a.last + 1 ∉ a.installed := fun hin => by
    have := (h.installed_moves hin).2.1
    omega
  have halone := h.after (Or.inl fun hm => hm.1 hstage)
  refine ⟨?_, ?_, ?_, ?_, ?_, h.installed_frozen, h.deleted_installed, ?_, ?_, ?_, ?_,
    h.absent_cell, ?_, ?_, ?_, ?_⟩
  · exact h.pos.trans (by simp [State.plan])
  · exact fun g' => (h.num_le g').trans (by simp [State.plan])
  · intro n d hd
    have hm := h.frozen_moves n d hd
    exact (hmoves n hm.2.1).mpr hm
  · intro n d hd
    have hm := h.frozen_moves n d hd
    rw [howner (n - 1) (by have := hm.2.1; omega)]
    exact h.frozen_num n d hd
  · intro n hn
    rw [howner n (h.installed_moves hn).2.1]
    exact h.installed_num n hn
  · rintro n hm (hlt | ⟨-, hp⟩)
    · have hle : n ≤ a.last := Int.lt_add_one_iff.mp hlt
      refine h.published n ((hmoves n hle).mp hm) ?_
      rcases hle.lt_or_eq with hlt | heq
      · exact Or.inl hlt
      · exact Or.inr ⟨heq, by simp [hstage]⟩
    · exact absurd rfl hp
  · rintro n hm (hlt | hp)
    · have hle : n ≤ a.last := Int.lt_add_one_iff.mp hlt
      exact h.settled n ((hmoves n hle).mp hm) (Or.inr hstage)
    · cases hp
  · intro g' hs
    refine ⟨?_, (h.serving_cell g' hs).2⟩
    exact (h.serving_cell g' hs).1.trans (howner _ (h.num_le g')).symm
  · intro g' hs
    have hle := h.num_le g'
    have hcell := h.frozen_cell g' hs
    refine ⟨(hmoves _ hle).mpr hcell.1, ?_, hcell.2.2⟩
    exact hcell.2.1.trans (howner ((a.cell g').num - 1) (by omega)).symm
  · rintro (hm | hdel)
    · have heq : a.owner a.last = g := by
        by_contra hne
        refine hm ⟨by simp [State.plan], ?_⟩
        have hpos := h.pos
        refine ⟨by simp [State.plan]; omega, le_rfl, ?_⟩
        simpa [State.plan] using hne
      have : (a.plan g).owner (a.plan g).last = a.owner a.last := by simp [State.plan, heq]
      rw [this]
      exact halone
    · exact absurd (h.deleted_installed _ hdel) hnotin
  · intro _ _
    have : (a.plan g).owner ((a.plan g).last - 1) = a.owner a.last := by simp [State.plan]
    rw [this]
    exact halone
  · intro _ hne
    obtain ⟨d, hd⟩ := Option.ne_none_iff_exists'.mp hne
    exact absurd hd (hnew d)
  · exact fun _ hin => absurd hin hnotin

section

omit [DecidableEq G]

theorem Inv.publish (h : Inv a) (hstage : a.stage = .planned)
    (hdone : a.Moves a.last → a.last ∈ a.installed) : Inv { a with stage := .published } := by
  have hmoving : ∀ hm : State.Moving { a with stage := .published }, a.Moving :=
    fun hm => ⟨by simp [hstage], hm.2⟩
  refine { h with
    published := ?_, settled := ?_, after := ?_, before := ?_, stopped := ?_, copied := ?_ }
  · rintro n hm (hlt | ⟨rfl, -⟩)
    · exact h.published n hm (Or.inl hlt)
    · exact hdone hm
  · rintro n hm (hlt | hp)
    · exact h.settled n hm (Or.inl hlt)
    · cases hp
  · intro hor
    exact h.after (hor.imp_left fun hm hm' => hm ⟨by simp, hm'.2⟩)
  · exact fun hm => h.before (hmoving hm)
  · exact fun hm => h.stopped (hmoving hm)
  · exact fun hm => h.copied (hmoving hm)

theorem Inv.settle (h : Inv a)
    (hdone : a.Moves a.last → a.last ∈ a.deleted) : Inv { a with stage := .settled } := by
  refine { h with
    published := ?_, settled := ?_, after := ?_, before := ?_, stopped := ?_, copied := ?_ }
  · rintro n hm (hlt | ⟨rfl, -⟩)
    · exact h.published n hm (Or.inl hlt)
    · exact h.deleted_installed _ (hdone hm)
  · intro n hm _
    rcases hm.2.1.lt_or_eq with hlt | rfl
    · exact h.settled n hm (Or.inl hlt)
    · exact hdone hm
  · intro _
    apply h.after
    by_cases hm : a.Moves a.last
    · exact Or.inr (hdone hm)
    · exact Or.inl fun hm' => hm hm'.2
  all_goals exact fun hm => absurd rfl hm.1

theorem Inv.last_of_not_installed (h : Inv a) {n : ℤ} (hn : a.Moves n) (hnot : n ∉ a.installed) :
    n = a.last ∧ a.stage = .planned := by
  have hpublished : ¬ a.Published n := fun hp => hnot (h.published n hn hp)
  have heq : n = a.last := by
    by_contra hne
    exact hpublished (Or.inl (lt_of_le_of_ne hn.2.1 hne))
  refine ⟨heq, ?_⟩
  by_contra hstage
  exact hpublished (Or.inr ⟨heq, hstage⟩)

theorem Inv.last_of_not_deleted (h : Inv a) {n : ℤ} (hn : a.Moves n) (hnot : n ∉ a.deleted) :
    n = a.last ∧ a.stage ≠ .settled :=
  ⟨le_antisymm hn.2.1 (not_lt.mp fun hlt => hnot (h.settled n hn (Or.inl hlt))),
    fun hs => hnot (h.settled n hn (Or.inr hs))⟩

end

theorem Inv.freeze (h : Inv a) {n : ℤ} (hn : a.Moves n)
    (hlt : (a.cell (a.owner (n - 1))).num < n) : Inv (a.freeze n) := by
  have hnone : a.frozen n = none := by
    by_contra hne
    obtain ⟨d, hd⟩ := Option.ne_none_iff_exists'.mp hne
    exact absurd (h.frozen_num n d hd) (not_le.mpr hlt)
  have hnot : n ∉ a.installed := fun hin => by
    obtain ⟨d, hd⟩ := h.installed_frozen n hin
    rw [hnone] at hd
    cases hd
  obtain ⟨rfl, hstage⟩ := h.last_of_not_installed hn hnot
  have hmoving : a.Moving := ⟨by simp [hstage], hn⟩
  have halone := h.before hmoving hnone
  have hnotdel : a.last ∉ a.deleted := fun hd => hnot (h.deleted_installed _ hd)
  -- the old holder has a new number, everybody else is as before
  have hself : (a.freeze a.last).cell (a.owner (a.last - 1)) =
      ⟨.frozen, a.last, (a.cell (a.owner (a.last - 1))).content⟩ := Function.update_self ..
  have hother : ∀ g ≠ a.owner (a.last - 1), (a.freeze a.last).cell g = a.cell g :=
    fun g hg => Function.update_of_ne hg _ _
  have hnum : ∀ g, (a.cell g).num ≤ ((a.freeze a.last).cell g).num :=
    fun g => a.num_le_setCell _ g hlt.le
  have hfrozen : ∀ n ≠ a.last, (a.freeze a.last).frozen n = a.frozen n := fun n hne =>
    Function.update_of_ne hne _ _
  have hfrozenlast : (a.freeze a.last).frozen a.last =
      some (a.cell (a.owner (a.last - 1))).content := Function.update_self ..
  refine ⟨h.pos, fun g => ?_, fun n d hd => ?_, fun n d hd => ?_, fun n hin => ?_, fun n hin => ?_,
    h.deleted_installed, h.published, h.settled, fun g hs => ?_, fun g hs => ?_, fun g hs => ?_,
    ?_, ?_, ?_, ?_⟩
  · exact a.setCell_num_le _ g le_rfl h.num_le
  · by_cases hne : n = a.last
    · exact hne ▸ hn
    · exact h.frozen_moves n d (hfrozen n hne ▸ hd)
  · by_cases hne : n = a.last
    · subst hne
      exact (congrArg Cell.num hself).ge
    · exact (h.frozen_num n d (hfrozen n hne ▸ hd)).trans (hnum _)
  · exact (h.installed_num n hin).trans (hnum _)
  · obtain ⟨d, hd⟩ := h.installed_frozen n hin
    refine ⟨d, ?_⟩
    rw [hfrozen n fun heq => hnot (heq ▸ hin)]
    exact hd
  · have hg := ne_of_status hself hs (by simp)
    rw [hother g hg] at hs ⊢
    exact h.serving_cell g hs
  · have hg : g = a.owner (a.last - 1) := by
      by_contra hg
      rw [hother g hg, halone.2 g hg] at hs
      cases hs
    rw [hg, hself]
    exact ⟨hn, rfl, hfrozenlast, hnotdel⟩
  · have hg := ne_of_status hself hs (by simp)
    rw [hother g hg] at hs ⊢
    exact h.absent_cell g hs
  · rintro (hm | hdel)
    · exact absurd hmoving hm
    · exact absurd hdel hnotdel
  · intro _ hnone'
    change (a.freeze a.last).frozen a.last = none at hnone'
    rw [hfrozenlast] at hnone'
    cases hnone'
  · intro _ _ _
    refine ⟨congrArg Cell.status hself, congrArg Cell.num hself, fun g hg => ?_⟩
    rw [hother g hg]
    exact halone.2 g hg
  · exact fun _ hin => absurd hin hnot

theorem Inv.install (h : Inv a) {n : ℤ} {d : D} (hn : a.Moves n) (hd : a.frozen n = some d)
    (hlt : (a.cell (a.owner n)).num < n) : Inv (a.install n d) := by
  have hnot : n ∉ a.installed := fun hin =>
    absurd (h.installed_num n hin) (not_le.mpr hlt)
  obtain ⟨rfl, hstage⟩ := h.last_of_not_installed hn hnot
  have hmoving : a.Moving := ⟨by simp [hstage], hn⟩
  obtain ⟨hstatus, hnumsrc, hothers⟩ := h.stopped hmoving (by simp [hd]) hnot
  have hnotdel : a.last ∉ a.deleted := fun hdel => hnot (h.deleted_installed _ hdel)
  have hne : a.owner a.last ≠ a.owner (a.last - 1) := hn.2.2.symm
  have hself : (a.install a.last d).cell (a.owner a.last) = ⟨.serving, a.last, d⟩ :=
    Function.update_self ..
  have hother : ∀ g ≠ a.owner a.last, (a.install a.last d).cell g = a.cell g :=
    fun g hg => Function.update_of_ne hg _ _
  have hnum : ∀ g, (a.cell g).num ≤ ((a.install a.last d).cell g).num :=
    fun g => a.num_le_setCell _ g hlt.le
  refine ⟨h.pos, fun g => ?_, h.frozen_moves, fun n d hd => (h.frozen_num n d hd).trans (hnum _),
    fun n hin => ?_, fun n hin => ?_, fun n hin => Or.inr (h.deleted_installed n hin),
    fun n hm hp => Or.inr (h.published n hm hp), h.settled, fun g hs => ?_, fun g hs => ?_,
    fun g hs => ?_, ?_, ?_, ?_, ?_⟩
  · exact a.setCell_num_le _ g le_rfl h.num_le
  · rcases hin with rfl | hin
    · exact (congrArg Cell.num hself).ge
    · exact (h.installed_num n hin).trans (hnum _)
  · rcases hin with rfl | hin
    · exact ⟨d, hd⟩
    · exact h.installed_frozen n hin
  · by_cases hg : g = a.owner a.last
    · rw [hg, hself]
      exact ⟨rfl, fun _ => Or.inl rfl⟩
    · rw [hother g hg] at hs ⊢
      exact ⟨(h.serving_cell g hs).1, fun hlt => Or.inr ((h.serving_cell g hs).2 hlt)⟩
  · have hg := ne_of_status hself hs (by simp)
    rw [hother g hg] at hs ⊢
    exact h.frozen_cell g hs
  · have hg := ne_of_status hself hs (by simp)
    rw [hother g hg] at hs ⊢
    exact h.absent_cell g hs
  · rintro (hm | hdel)
    · exact absurd hmoving hm
    · exact absurd hdel hnotdel
  · intro _ hnone
    exact absurd (hd.symm.trans hnone) (by simp)
  · exact fun _ _ hnotin => absurd (Set.mem_insert _ _) hnotin
  · intro _ _ _
    refine ⟨?_, ?_, congrArg Cell.status hself, congrArg Cell.num hself, fun g hg hg' => ?_⟩
    · exact (congrArg Cell.status (hother _ hne.symm)).trans hstatus
    · exact (congrArg Cell.num (hother _ hne.symm)).trans hnumsrc
    · exact (congrArg Cell.status (hother g hg')).trans (hothers g hg)

theorem Inv.delete (h : Inv a) {n : ℤ} (d : D) (hn : a.Moves n) (hpublished : a.Published n)
    (hstatus : (a.cell (a.owner (n - 1))).status = .frozen)
    (hnum : (a.cell (a.owner (n - 1))).num = n) : Inv (a.delete n d) := by
  have hnotdel : n ∉ a.deleted := by
    have hcell := (h.frozen_cell _ hstatus).2.2.2
    rwa [hnum] at hcell
  have hin : n ∈ a.installed := h.published n hn hpublished
  obtain ⟨rfl, hunsettled⟩ := h.last_of_not_deleted hn hnotdel
  have hmoving : a.Moving := ⟨hunsettled, hn⟩
  obtain ⟨-, -, hserving, hnumdst, hothers⟩ := h.copied hmoving hin hnotdel
  have hne : a.owner a.last ≠ a.owner (a.last - 1) := hn.2.2.symm
  have hself : (a.delete a.last d).cell (a.owner (a.last - 1)) = ⟨.absent, a.last, d⟩ :=
    Function.update_self ..
  have hother : ∀ g ≠ a.owner (a.last - 1), (a.delete a.last d).cell g = a.cell g :=
    fun g hg => Function.update_of_ne hg _ _
  have hnumeq : ∀ g, ((a.delete a.last d).cell g).num = (a.cell g).num := by
    intro g
    by_cases hg : g = a.owner (a.last - 1)
    · rw [hg, hself, hnum]
    · rw [hother g hg]
  refine ⟨h.pos, fun g => (hnumeq g).trans_le (h.num_le g), h.frozen_moves,
    fun n d hd => (h.frozen_num n d hd).trans (hnumeq _).ge,
    fun n hin => (h.installed_num n hin).trans (hnumeq _).ge, h.installed_frozen, fun n hdel => ?_,
    h.published, fun n hm hs => Or.inr (h.settled n hm hs), fun g hs => ?_, fun g hs => ?_,
    fun g hs hpos => ?_, ?_, ?_, ?_, ?_⟩
  · rcases hdel with rfl | hdel
    · exact hin
    · exact h.deleted_installed n hdel
  · have hg := ne_of_status hself hs (by simp)
    rw [hother g hg] at hs ⊢
    exact h.serving_cell g hs
  · -- no other copy is frozen
    have hg := ne_of_status hself hs (by simp)
    rw [hother g hg] at hs
    by_cases hg' : g = a.owner a.last
    · rw [hg', hserving] at hs
      cases hs
    · rw [hothers g hg hg'] at hs
      cases hs
  · by_cases hg : g = a.owner (a.last - 1)
    · rw [hg, hself]
      exact Or.inl rfl
    · rw [hother g hg] at hs hpos ⊢
      exact Or.inr (h.absent_cell g hs hpos)
  · intro _
    refine ⟨(congrArg Cell.status (hother _ hne)).trans hserving, fun g hg => ?_⟩
    by_cases hg' : g = a.owner (a.last - 1)
    · exact (congrArg Cell.status (hg' ▸ hself))
    · exact (congrArg Cell.status (hother g hg')).trans (hothers g hg' hg)
  · intro _ hnone
    obtain ⟨d', hd'⟩ := h.installed_frozen _ hin
    exact absurd (hd'.symm.trans hnone) (by simp)
  · exact fun _ _ hnotin => absurd hin hnotin
  · exact fun _ _ hnotdel' => absurd (Set.mem_insert _ _) hnotdel'

/-- A write changes neither status nor number of any copy, and only
copies that serve are written. -/
theorem Inv.write (h : Inv a) {g : G} (d : D) (hserving : (a.cell g).status = .serving) :
    Inv (a.write g d) := by
  have hstatus : ∀ g', ((a.write g d).cell g').status = (a.cell g').status := by
    intro g'
    by_cases hg : g' = g
    · subst hg
      simp [State.write, State.setCell]
    · exact congrArg Cell.status (Function.update_of_ne hg _ _)
  have hnum : ∀ g', ((a.write g d).cell g').num = (a.cell g').num := by
    intro g'
    by_cases hg : g' = g
    · subst hg
      simp [State.write, State.setCell]
    · exact congrArg Cell.num (Function.update_of_ne hg _ _)
  have hcontent : ∀ g', (a.cell g').status = .frozen →
      ((a.write g d).cell g').content = (a.cell g').content := by
    intro g' hfrozen
    refine congrArg Cell.content (Function.update_of_ne ?_ _ _)
    rintro rfl
    rw [hserving] at hfrozen
    cases hfrozen
  have halone : ∀ g', a.Alone g' → (a.write g d).Alone g' := fun g' ha =>
    ⟨(hstatus g').trans ha.1, fun g'' hg => (hstatus g'').trans (ha.2 g'' hg)⟩
  refine ⟨h.pos, fun g' => (hnum g').trans_le (h.num_le g'), h.frozen_moves,
    fun n d hd => (h.frozen_num n d hd).trans (hnum _).ge,
    fun n hin => (h.installed_num n hin).trans (hnum _).ge, h.installed_frozen,
    h.deleted_installed, h.published, h.settled, fun g' hs => ?_, fun g' hs => ?_,
    fun g' hs => ?_, fun hor => halone _ (h.after hor), fun hm hd => halone _ (h.before hm hd),
    fun hm hd hnot => ?_, fun hm hin hnot => ?_⟩
  · rw [hnum]
    exact h.serving_cell g' ((hstatus g').symm.trans hs)
  · have hold := (hstatus g').symm.trans hs
    rw [hnum, hcontent g' hold]
    exact h.frozen_cell g' hold
  · rw [hnum]
    exact h.absent_cell g' ((hstatus g').symm.trans hs)
  · obtain ⟨hs, hn, hothers⟩ := h.stopped hm hd hnot
    exact ⟨(hstatus _).trans hs, (hnum _).trans hn, fun g' hg => (hstatus g').trans (hothers g' hg)⟩
  · obtain ⟨hs, hn, hs', hn', hothers⟩ := h.copied hm hin hnot
    exact ⟨(hstatus _).trans hs, (hnum _).trans hn, (hstatus _).trans hs', (hnum _).trans hn',
      fun g' hg hg' => (hstatus g').trans (hothers g' hg hg')⟩

theorem Inv.step {a' : State G D} (h : Inv a) (hs : Step a a') : Inv a' := by
  cases hs with
  | plan g hstage => exact h.plan hstage g
  | freeze n hn _ hlt => exact h.freeze hn hlt
  | install n d hn hd _ hlt => exact h.install hn hd hlt
  | publish hstage hdone => exact h.publish hstage hdone
  | delete n d hn hpublished hstatus hnum => exact h.delete d hn hpublished hstatus hnum
  | settle _ hdone => exact h.settle hdone
  | write g d hserving => exact h.write d hserving

theorem Inv.reachable {g : G} {content : G → D} (hr : (handover g content).Reachable a) : Inv a :=
  hr.invariant (fun _ hi => hi ▸ .start g content) fun _ _ _ _ ih hs => ih.step hs

theorem Step.extends {a' : State G D} (h : Inv a) (hs : Step a a') : Extends a a' := by
  cases hs with
  | plan g hstage =>
      refine ⟨Int.le_add_one le_rfl, fun n hn => Function.update_of_ne (by omega) _ _,
        fun _ _ hd => hd, subset_rfl, subset_rfl, ?_⟩
      rintro n (hlt | ⟨rfl, -⟩)
      · exact Or.inl (Int.lt_add_one_of_le hlt.le)
      · exact Or.inl (Int.lt_succ _)
  | freeze n hn hstatus hlt =>
      refine ⟨le_rfl, fun _ _ => rfl, fun m d hd => ?_, subset_rfl, subset_rfl, fun _ hp => hp⟩
      have hne : m ≠ n := by
        rintro rfl
        exact absurd (h.frozen_num m d hd) (not_le.mpr hlt)
      exact (Function.update_of_ne hne _ _).trans hd
  | install n d hn hd hstatus hlt =>
      exact ⟨le_rfl, fun _ _ => rfl, fun _ _ hd => hd, Set.subset_insert _ _, subset_rfl,
        fun _ hp => hp⟩
  | publish hstage hdone =>
      exact ⟨le_rfl, fun _ _ => rfl, fun _ _ hd => hd, subset_rfl, subset_rfl,
        fun n hp => hp.imp_right fun ⟨heq, _⟩ => ⟨heq, by simp⟩⟩
  | delete n d hn hpublished hstatus hnum =>
      exact ⟨le_rfl, fun _ _ => rfl, fun _ _ hd => hd, subset_rfl, Set.subset_insert _ _,
        fun _ hp => hp⟩
  | settle hstage hdone =>
      exact ⟨le_rfl, fun _ _ => rfl, fun _ _ hd => hd, subset_rfl, subset_rfl,
        fun n hp => hp.imp_right fun ⟨heq, _⟩ => ⟨heq, by simp⟩⟩
  | write g d hserving =>
      exact ⟨le_rfl, fun _ _ => rfl, fun _ _ hd => hd, subset_rfl, subset_rfl, fun _ hp => hp⟩

theorem extends_of_star {g : G} {content : G → D} {a' : State G D}
    (hr : (handover g content).Reachable a) (hs : (handover g content).Star a a') :
    Extends a a' :=
  hs.preserves (P := Extends a) hr
    (fun _ _ _ hr he hs => he.trans (hs.extends (.reachable hr))) (.refl a)

theorem published_of_deleted {g : G} {content : G → D}
    (hr : (handover g content).Reachable a) : ∀ n ∈ a.deleted, a.Published n := by
  refine hr.invariant (I := fun a => ∀ n ∈ a.deleted, a.Published n) ?_ ?_
  · rintro _ rfl n hn
    cases hn
  · intro a _ a' hr ih hs n hn
    have hpublished := (hs.extends (.reachable hr)).published
    cases hs with
    | delete m d hm hp =>
        rcases Set.mem_insert_iff.mp hn with rfl | hn
        · exact hpublished n hp
        · exact hpublished n (ih n hn)
    | _ => exact hpublished n (ih n hn)

/-! ### What can be done under the last plan -/

section

omit [DecidableEq G]

theorem Inv.can_freeze (h : Inv a) (hstage : a.stage = .planned) (hn : a.Moves a.last)
    (hnot : a.last ∉ a.deleted) :
    ((a.cell (a.owner (a.last - 1))).status = .serving ∧
        (a.cell (a.owner (a.last - 1))).num < a.last) ∨
      (a.cell (a.owner (a.last - 1))).status = .frozen ∧
        (a.cell (a.owner (a.last - 1))).num = a.last := by
  have hmoving : a.Moving := ⟨by simp [hstage], hn⟩
  by_cases hd : a.frozen a.last = none
  · left
    have hserving := (h.before hmoving hd).1
    refine ⟨hserving, lt_of_le_of_ne (h.num_le _) fun heq => ?_⟩
    have howner := (h.serving_cell _ hserving).1
    rw [heq] at howner
    exact hn.2.2 howner
  · right
    by_cases hin : a.last ∈ a.installed
    · obtain ⟨hs, hnum, -⟩ := h.copied hmoving hin hnot
      exact ⟨hs, hnum⟩
    · obtain ⟨hs, hnum, -⟩ := h.stopped hmoving hd hin
      exact ⟨hs, hnum⟩

theorem Inv.can_install (h : Inv a) (hstage : a.stage ≠ .settled) (hn : a.Moves a.last)
    (hd : a.frozen a.last ≠ none) :
    (a.last ∉ a.installed ∧ (a.cell (a.owner a.last)).status = .absent ∧
        (a.cell (a.owner a.last)).num < a.last) ∨
      (a.cell (a.owner a.last)).status = .serving ∧ (a.cell (a.owner a.last)).num = a.last := by
  by_cases hin : a.last ∈ a.installed
  · right
    have hnum : (a.cell (a.owner a.last)).num = a.last :=
      le_antisymm (h.num_le _) (h.installed_num _ hin)
    by_cases hdel : a.last ∈ a.deleted
    · exact ⟨(h.after (Or.inr hdel)).1, hnum⟩
    · exact ⟨(h.copied ⟨hstage, hn⟩ hin hdel).2.2.1, hnum⟩
  · left
    have habsent := (h.stopped ⟨hstage, hn⟩ hd hin).2.2 (a.owner a.last) hn.2.2.symm
    refine ⟨hin, habsent, lt_of_le_of_ne (h.num_le _) fun heq => ?_⟩
    have hpos := h.pos
    have hdel := h.absent_cell _ habsent (by omega)
    rw [heq] at hdel
    exact hin (h.deleted_installed _ hdel)

/-- Once the plan is published the old copy can be dropped, or it has
been. -/
theorem Inv.can_delete (h : Inv a) (hstage : a.stage = .published) (hn : a.Moves a.last) :
    (a.cell (a.owner (a.last - 1))).num = a.last ∧
      ((a.last ∉ a.deleted ∧ (a.cell (a.owner (a.last - 1))).status = .frozen) ∨
        (a.cell (a.owner (a.last - 1))).status = .absent) := by
  have hin := h.published _ hn (Or.inr ⟨rfl, by simp [hstage]⟩)
  obtain ⟨d, hd⟩ := h.installed_frozen _ hin
  refine ⟨le_antisymm (h.num_le _) (h.frozen_num _ d hd), ?_⟩
  by_cases hdel : a.last ∈ a.deleted
  · exact Or.inr ((h.after (Or.inr hdel)).2 _ hn.2.2)
  · exact Or.inl ⟨hdel, (h.copied ⟨by simp [hstage], hn⟩ hin hdel).1⟩

end

/-! ### One object -/

omit [DecidableEq G] in
/-- One holder that serves, or one that has stopped, or a new one beside
the old one. -/
theorem Inv.holders (h : Inv a) :
    (∃ g, a.Alone g) ∨
    (∃ g, (a.cell g).status = .frozen ∧ ∀ g' ≠ g, (a.cell g').status = .absent) ∨
    ∃ g g', g ≠ g' ∧ (a.cell g).status = .frozen ∧ (a.cell g').status = .serving ∧
      ∀ g'', g'' ≠ g → g'' ≠ g' → (a.cell g'').status = .absent := by
  by_cases hafter : ¬ a.Moving ∨ a.last ∈ a.deleted
  · exact Or.inl ⟨_, h.after hafter⟩
  have hmoving : a.Moving := not_not.mp fun hm => hafter (Or.inl hm)
  have hnotdel : a.last ∉ a.deleted := fun hd => hafter (Or.inr hd)
  by_cases hin : a.last ∈ a.installed
  · obtain ⟨hs, -, hs', -, hothers⟩ := h.copied hmoving hin hnotdel
    exact Or.inr (Or.inr ⟨_, _, hmoving.2.2.2, hs, hs', hothers⟩)
  by_cases hd : a.frozen a.last = none
  · exact Or.inl ⟨_, h.before hmoving hd⟩
  · obtain ⟨hs, -, hothers⟩ := h.stopped hmoving hd hin
    exact Or.inr (Or.inl ⟨_, hs, hothers⟩)

theorem Inv.serving_only (h : Inv a) : ∃ k, ∀ g, (a.cell g).status = .serving → g = k := by
  rcases h.holders with ⟨k, -, hk⟩ | ⟨k, hk, hothers⟩ | ⟨k, k', -, hk, -, hothers⟩
  · refine ⟨k, fun g hg => ?_⟩
    by_contra hne
    rw [hk g hne] at hg
    cases hg
  · refine ⟨k, fun g hg => ?_⟩
    by_contra hne
    rw [hothers g hne] at hg
    cases hg
  · refine ⟨k', fun g hg => ?_⟩
    by_contra hne
    have hgk : g ≠ k := by
      rintro rfl
      rw [hk] at hg
      cases hg
    rw [hothers g hgk hne] at hg
    cases hg

theorem Inv.serving_unique (h : Inv a) {g g' : G} (hg : (a.cell g).status = .serving)
    (hg' : (a.cell g').status = .serving) : g = g' := by
  obtain ⟨k, hk⟩ := h.serving_only
  rw [hk g hg, hk g' hg']

omit [DecidableEq G] in
theorem Inv.frozen_unique (h : Inv a) {g g' : G} (hg : (a.cell g).status = .frozen)
    (hg' : (a.cell g').status = .frozen) : g = g' := by
  obtain ⟨hmoves, howner, -, hnot⟩ := h.frozen_cell g hg
  obtain ⟨hmoves', howner', -, hnot'⟩ := h.frozen_cell g' hg'
  rw [howner, howner', (h.last_of_not_deleted hmoves hnot).1,
    (h.last_of_not_deleted hmoves' hnot').1]

omit [DecidableEq G] in
theorem Inv.held (h : Inv a) : ∃ g, (g = a.owner a.last ∨ a.Moving ∧ g = a.owner (a.last - 1)) ∧
    ((a.cell g).status = .serving ∨ (a.cell g).status = .frozen) := by
  by_cases hafter : ¬ a.Moving ∨ a.last ∈ a.deleted
  · exact ⟨_, Or.inl rfl, Or.inl (h.after hafter).1⟩
  have hmoving : a.Moving := not_not.mp fun hm => hafter (Or.inl hm)
  have hnotdel : a.last ∉ a.deleted := fun hd => hafter (Or.inr hd)
  refine ⟨_, Or.inr ⟨hmoving, rfl⟩, ?_⟩
  by_cases hin : a.last ∈ a.installed
  · exact Or.inr (h.copied hmoving hin hnotdel).1
  by_cases hd : a.frozen a.last = none
  · exact Or.inl (h.before hmoving hd).1
  · exact Or.inr (h.stopped hmoving hd hin).1

/-- The content of the object: that of the copy that serves, or of the
one that has stopped serving while there is no other. -/
noncomputable def current [Inhabited D] (cell : G → Cell D) : D :=
  open Classical in
  if h : ∃ g, (cell g).status = .serving then (cell h.choose).content
  else if h : ∃ g, (cell g).status = .frozen then (cell h.choose).content
  else default

section

variable [Inhabited D] {f : G → Cell D} {g : G}

omit [DecidableEq G] in
theorem current_serving (hg : (f g).status = .serving)
    (honly : ∀ g', (f g').status = .serving → g' = g) : current f = (f g).content := by
  have hex : ∃ g, (f g).status = .serving := ⟨g, hg⟩
  rw [current, dif_pos hex, honly _ hex.choose_spec]

omit [DecidableEq G] in
theorem current_frozen (hg : (f g).status = .frozen)
    (honly : ∀ g', (f g').status = .frozen → g' = g)
    (hnone : ∀ g', (f g').status ≠ .serving) : current f = (f g).content := by
  have hnex : ¬ ∃ g, (f g).status = .serving := fun ⟨g', hg'⟩ => hnone g' hg'
  have hex : ∃ g, (f g).status = .frozen := ⟨g, hg⟩
  rw [current, dif_neg hnex, dif_pos hex, honly _ hex.choose_spec]

end

theorem Inv.before_install (h : Inv a) {n : ℤ} {d : D} (hn : a.Moves n) (hd : a.frozen n = some d)
    (hlt : (a.cell (a.owner n)).num < n) :
    n = a.last ∧ a.Moving ∧ (a.cell (a.owner (n - 1))).status = .frozen ∧
      (a.cell (a.owner (n - 1))).content = d ∧ ∀ g, (a.cell g).status ≠ .serving := by
  have hnot : n ∉ a.installed := fun hin => absurd (h.installed_num n hin) (not_le.mpr hlt)
  obtain ⟨rfl, hstage⟩ := h.last_of_not_installed hn hnot
  have hmoving : a.Moving := ⟨by simp [hstage], hn⟩
  obtain ⟨hfrozen, hnum, hothers⟩ := h.stopped hmoving (by simp [hd]) hnot
  have hcontent := (h.frozen_cell _ hfrozen).2.2.1
  rw [hnum, hd] at hcontent
  refine ⟨rfl, hmoving, hfrozen, (Option.some.inj hcontent).symm, fun g hg => ?_⟩
  by_cases hg' : g = a.owner (a.last - 1)
  · rw [hg', hfrozen] at hg
    cases hg
  · rw [hothers g hg'] at hg
    cases hg

omit [DecidableEq G] in
theorem Inv.before_delete (h : Inv a) {n : ℤ} (hn : a.Moves n) (hpublished : a.Published n)
    (hstatus : (a.cell (a.owner (n - 1))).status = .frozen)
    (hnum : (a.cell (a.owner (n - 1))).num = n) :
    n = a.last ∧ (a.cell (a.owner n)).status = .serving := by
  have hcell := h.frozen_cell _ hstatus
  rw [hnum] at hcell
  obtain ⟨rfl, hunsettled⟩ := h.last_of_not_deleted hn hcell.2.2.2
  obtain ⟨-, -, hserving, -⟩ := h.copied ⟨hunsettled, hn⟩ (h.published _ hn hpublished) hcell.2.2.2
  exact ⟨rfl, hserving⟩

end RaftShardedKv.Handover
