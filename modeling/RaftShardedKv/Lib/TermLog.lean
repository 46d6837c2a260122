import Mathlib.Tactic

/-!
Logs of entries that carry a term.

A log is a list, its first entry at index 1; `termAt ℓ k` is the term at
index `k`, and 0 at index 0, where a log has no entry. Everything that a
leader-based replication protocol knows about logs is here, with no
protocol around it.

`Follows lead ℓ` says that `ℓ` is made of what leaders wrote: up to any
of its entries, `ℓ` is a prefix of the log `lead t` of the leader whose
term `t` the entry carries. Two logs that follow the same leaders and
have the same term at an index are equal up to that index, which is the
log matching property in one line.

`adopt ℓ P` is what a follower does with a prefix `P` of its leader's
log: it keeps its own log when that already holds `P`, and takes `P`
otherwise. `splice` is the same thing as code does it, entry by entry
from a known position; `splice_eq_adopt` is why the two agree.
-/

namespace RaftShardedKv

/-- Entries that carry the term in which they were created. -/
class Termed (E : Type*) where
  /-- The term of an entry. -/
  term : E → ℕ

namespace TermLog

variable {E : Type*} [Termed E]

omit [Termed E] in
theorem take_eq_of_prefix_le {P ℓ : List E} (h : P <+: ℓ) {k : ℕ} (hk : k ≤ P.length) :
    ℓ.take k = P.take k := by
  conv_rhs => rw [List.prefix_iff_eq_take.mp h, List.take_take, min_eq_left hk]

/-- The term at index `k`: 0 at index 0 and beyond the end. -/
def termAt (ℓ : List E) : ℕ → ℕ
  | 0 => 0
  | k + 1 => (ℓ[k]?.map Termed.term).getD 0

/-- The term of the last entry, 0 for the empty log. -/
def lastTerm (ℓ : List E) : ℕ := termAt ℓ ℓ.length

@[simp] theorem termAt_zero (ℓ : List E) : termAt ℓ 0 = 0 := rfl

theorem termAt_succ (ℓ : List E) (k : ℕ) :
    termAt ℓ (k + 1) = (ℓ[k]?.map Termed.term).getD 0 := rfl

theorem termAt_of_getElem? {ℓ : List E} {k : ℕ} {e : E} (h : ℓ[k]? = some e) :
    termAt ℓ (k + 1) = Termed.term e := by
  simp [termAt_succ, h]

theorem termAt_of_length_lt {ℓ : List E} {k : ℕ} (h : ℓ.length < k) : termAt ℓ k = 0 := by
  cases k with
  | zero => rfl
  | succ k => simp [termAt_succ, List.getElem?_eq_none (by omega : ℓ.length ≤ k)]

theorem termAt_take {ℓ : List E} {k m : ℕ} (h : k ≤ m) : termAt (ℓ.take m) k = termAt ℓ k := by
  cases k with
  | zero => rfl
  | succ k => simp [termAt_succ, List.getElem?_take_of_lt (by omega : k < m)]

theorem termAt_eq_of_prefix_le {P ℓ : List E} (h : P <+: ℓ) {k : ℕ} (hk : k ≤ P.length) :
    termAt P k = termAt ℓ k := by
  rw [List.prefix_iff_eq_take] at h
  rw [h, termAt_take hk]

theorem termAt_append_left {ℓ m : List E} {k : ℕ} (h : k ≤ ℓ.length) :
    termAt (ℓ ++ m) k = termAt ℓ k :=
  (termAt_eq_of_prefix_le (List.prefix_append ℓ m) h).symm

theorem termAt_concat (ℓ : List E) (e : E) :
    termAt (ℓ ++ [e]) (ℓ.length + 1) = Termed.term e :=
  termAt_of_getElem? (by simp)

theorem termAt_concat_le {ℓ : List E} {e : E} {t : ℕ} (h : ∀ k, termAt ℓ k ≤ t)
    (he : Termed.term e ≤ t) (k : ℕ) : termAt (ℓ ++ [e]) k ≤ t := by
  rcases Nat.lt_trichotomy k (ℓ.length + 1) with hk | rfl | hk
  · rw [termAt_append_left (by omega)]; exact h k
  · rw [termAt_concat]; exact he
  · rw [termAt_of_length_lt (by simpa using hk)]; exact Nat.zero_le t

theorem termAt_prefix_le {P ℓ : List E} {t : ℕ} (hP : P <+: ℓ) (h : ∀ k, termAt ℓ k ≤ t)
    (k : ℕ) : termAt P k ≤ t := by
  rcases Nat.lt_or_ge P.length k with hk | hk
  · rw [termAt_of_length_lt hk]; exact Nat.zero_le t
  · rw [termAt_eq_of_prefix_le hP hk]; exact h k

/-! ### Logs made of what leaders wrote -/

/-- Up to each of its entries, the log is a prefix of the log of that
entry's leader. -/
def Follows (lead : ℕ → List E) (ℓ : List E) : Prop :=
  ∀ k, 1 ≤ k → k ≤ ℓ.length → ℓ.take k <+: lead (termAt ℓ k)

theorem follows_nil (lead : ℕ → List E) : Follows lead [] := by
  intro k h1 hk
  simp at hk
  omega

theorem Follows.of_initial {lead : ℕ → List E} {P ℓ : List E} (h : Follows lead ℓ)
    (hP : P <+: ℓ) : Follows lead P := by
  intro k h1 hk
  rw [termAt_eq_of_prefix_le hP hk, ← take_eq_of_prefix_le hP hk]
  exact h k h1 (hk.trans hP.length_le)

theorem Follows.mono {lead lead' : ℕ → List E} {ℓ : List E} (h : Follows lead ℓ)
    (hlead : ∀ t, lead t <+: lead' t) : Follows lead' ℓ :=
  fun k h1 hk => (h k h1 hk).trans (hlead _)

theorem Follows.concat {lead : ℕ → List E} {ℓ : List E} {e : E} (h : Follows lead ℓ)
    (he : ℓ ++ [e] <+: lead (Termed.term e)) : Follows lead (ℓ ++ [e]) := by
  intro k h1 hk
  rcases Nat.lt_or_ge ℓ.length k with hlt | hle
  · have hkl : k = ℓ.length + 1 := by simp at hk; omega
    subst hkl
    rw [termAt_concat, List.take_of_length_le (by simp)]
    exact he
  · rw [termAt_append_left hle, List.take_append_of_le_length hle]
    exact h k h1 hle

/-- A log that follows its leaders is, as a whole, a prefix of the log
of the leader of its last term. -/
theorem Follows.prefix_lead {lead : ℕ → List E} {ℓ : List E} (h : Follows lead ℓ)
    (hne : ℓ ≠ []) : ℓ <+: lead (lastTerm ℓ) := by
  have hlen : 1 ≤ ℓ.length := List.length_pos_iff.mpr hne
  simpa [lastTerm] using h ℓ.length hlen le_rfl

/-- **Log matching.** Equal terms at an index make two logs equal up to it. -/
def Matching (ℓ m : List E) : Prop :=
  ∀ ⦃k⦄, k ≤ ℓ.length → k ≤ m.length → termAt ℓ k = termAt m k → ℓ.take k = m.take k

theorem Matching.of_initial {ℓ m P : List E} (h : Matching ℓ m) (hP : P <+: m) :
    Matching ℓ P := by
  intro k hkℓ hkP hterm
  rw [termAt_eq_of_prefix_le hP hkP] at hterm
  rw [← take_eq_of_prefix_le hP hkP]
  exact h hkℓ (hkP.trans hP.length_le) hterm

theorem matching_of_prefix {ℓ m : List E} (h : ℓ <+: m) : Matching ℓ m :=
  fun _ hk _ _ => (take_eq_of_prefix_le h hk).symm

theorem Follows.matching {lead : ℕ → List E} {ℓ m : List E} (hℓ : Follows lead ℓ)
    (hm : Follows lead m) : Matching ℓ m := by
  intro k hkℓ hkm hterm
  cases k with
  | zero => simp
  | succ k =>
      have h₁ := hℓ (k + 1) (by omega) hkℓ
      have h₂ := hm (k + 1) (by omega) hkm
      rw [hterm] at h₁
      have hlen : (ℓ.take (k + 1)).length = (m.take (k + 1)).length := by
        simp [min_eq_left hkℓ, min_eq_left hkm]
      exact (List.prefix_of_prefix_length_le h₁ h₂ hlen.le).eq_of_length hlen

/-- The terms of a log never decrease. -/
def Sorted (ℓ : List E) : Prop :=
  ∀ j k, j ≤ k → k ≤ ℓ.length → termAt ℓ j ≤ termAt ℓ k

theorem sorted_nil : Sorted ([] : List E) := by
  intro j k hjk hk
  simp at hk
  subst hk
  simp [Nat.le_zero.mp hjk]

theorem Sorted.of_initial {P ℓ : List E} (h : Sorted ℓ) (hP : P <+: ℓ) : Sorted P := by
  intro j k hjk hk
  rw [termAt_eq_of_prefix_le hP hk, termAt_eq_of_prefix_le hP (hjk.trans hk)]
  exact h j k hjk (hk.trans hP.length_le)

theorem Sorted.concat {ℓ : List E} {e : E} (h : Sorted ℓ)
    (he : ∀ k, termAt ℓ k ≤ Termed.term e) : Sorted (ℓ ++ [e]) := by
  intro j k hjk hk
  rcases Nat.lt_or_ge ℓ.length k with hlt | hle
  · have hkl : k = ℓ.length + 1 := by simp at hk; omega
    subst hkl
    rw [termAt_concat]
    exact termAt_concat_le he le_rfl j
  · rw [termAt_append_left hle, termAt_append_left (hjk.trans hle)]
    exact h j k hjk hle

theorem Follows.sorted {lead : ℕ → List E} {ℓ : List E} (h : Follows lead ℓ)
    (hlead : ∀ t, Sorted (lead t)) : Sorted ℓ := by
  intro j k hjk hk
  rcases Nat.eq_zero_or_pos k with rfl | hpos
  · simp [Nat.le_zero.mp hjk]
  · have hsorted := (hlead _).of_initial (h k hpos hk)
    have := hsorted j k hjk (by simp [hk])
    rwa [termAt_take hjk, termAt_take le_rfl] at this

/-- The first index of the run of the term `t` that reaches up to `k`, as far
as the indices from `base` on tell. -/
def runStart (ℓ : List E) (base t : ℕ) : ℕ → ℕ
  | 0 => 0
  | k + 1 => if base < k + 1 ∧ termAt ℓ k = t then runStart ℓ base t k else k + 1

theorem runStart_le (ℓ : List E) (base t k : ℕ) : runStart ℓ base t k ≤ k := by
  induction k with
  | zero => exact le_rfl
  | succ k ih =>
      rw [runStart]
      split <;> omega

theorem runStart_base (ℓ : List E) (t : ℕ) {base base' k : ℕ} (hbase : base ≤ base')
    (hk : base' ≤ k) : runStart ℓ base' t k = max base' (runStart ℓ base t k) := by
  induction k with
  | zero => simp [runStart, Nat.le_zero.mp hk]
  | succ k ih =>
      rcases Nat.lt_or_eq_of_le hk with hlt | rfl
      · rw [runStart, runStart]
        by_cases hterm : termAt ℓ k = t
        · rw [if_pos ⟨hlt, hterm⟩, if_pos ⟨by omega, hterm⟩, ih (by omega)]
        · rw [if_neg (by simp [hterm]), if_neg (by simp [hterm]), max_eq_right hk]
      · rw [max_eq_left (runStart_le ℓ base t _), runStart, if_neg (by simp)]

/-- The entries of term `t` start at index `i`. -/
def StartsAt (ℓ : List E) (t i : ℕ) : Prop :=
  1 ≤ i ∧ i ≤ ℓ.length ∧ termAt ℓ i = t ∧ ∀ j < i, 1 ≤ j → termAt ℓ j ≠ t

instance (ℓ : List E) (t i : ℕ) : Decidable (StartsAt ℓ t i) :=
  inferInstanceAs (Decidable (_ ∧ _))

theorem exists_startsAt {ℓ : List E} {k : ℕ} (h1 : 1 ≤ k) (hk : k ≤ ℓ.length) :
    ∃ i ≤ k, StartsAt ℓ (termAt ℓ k) i := by
  classical
  have hex : ∃ i, 1 ≤ i ∧ termAt ℓ i = termAt ℓ k := ⟨k, h1, rfl⟩
  have hle : Nat.find hex ≤ k := Nat.find_min' hex ⟨h1, rfl⟩
  obtain ⟨hpos, hterm⟩ := Nat.find_spec hex
  exact ⟨_, hle, hpos, hle.trans hk, hterm, fun j hlt hj hsame => Nat.find_min hex hlt ⟨hj, hsame⟩⟩

/-- The entries of a term that occurs in both logs start at the same index. -/
def SameStarts (ℓ m : List E) : Prop :=
  ∀ ⦃t i j⦄, StartsAt ℓ t i → StartsAt m t j → i = j

theorem SameStarts.lt_of_differ {ℓ m : List E} (h : SameStarts ℓ m) (hsorted : Sorted ℓ)
    {k p : ℕ} (hk : k ≤ ℓ.length) (hp : 1 ≤ p) (hpm : p ≤ m.length)
    (hterm : termAt ℓ k = termAt m p) (hdiffer : termAt ℓ p ≠ termAt m p) : k < p := by
  by_contra hge
  obtain ⟨j, hjp, hj⟩ := exists_startsAt hp hpm
  obtain ⟨i, -, hi⟩ := exists_startsAt (by omega : 1 ≤ k) hk
  rw [hterm] at hi
  obtain rfl := h hi hj
  have hbelow := hsorted i p hjp (by omega)
  have habove := hsorted p k (by omega) hk
  rw [hi.2.2.1] at hbelow
  omega

/-- Two logs that follow the same leaders have the entries of a term from
the one index at which its leader wrote the first of them. -/
theorem Follows.sameStarts {lead : ℕ → List E} {ℓ m : List E} (hℓ : Follows lead ℓ)
    (hm : Follows lead m) : SameStarts ℓ m := by
  have hfirst : ∀ {ℓ m : List E} {t i j : ℕ}, Follows lead ℓ → Follows lead m →
      StartsAt ℓ t i → StartsAt m t j → j ≤ i := by
    intro ℓ m t i j hℓ hm hi hj
    by_contra hlt
    have hpre := hℓ i hi.1 hi.2.1
    have hpre' := hm j hj.1 hj.2.1
    rw [hi.2.2.1] at hpre
    rw [hj.2.2.1] at hpre'
    -- up to `i` both are the log of the leader of `t`
    have hterm : termAt m i = t := by
      rw [← hi.2.2.1, ← termAt_take (show i ≤ j by omega), ← termAt_take (ℓ := ℓ) le_rfl,
        termAt_eq_of_prefix_le hpre' (by have := hj.2.1; simp; omega),
        termAt_eq_of_prefix_le hpre (by have := hi.2.1; simp; omega)]
    exact hj.2.2.2 i (by omega) hi.1 hterm
  intro t i j hi hj
  exact le_antisymm (hfirst hm hℓ hj hi) (hfirst hℓ hm hi hj)

/-! ### Comparing two logs by their ends -/

/-- `c` is at least as up to date as `v`: its last term is higher, or
the last terms are equal and `c` is at least as long. -/
def UpToDate (c v : List E) : Prop :=
  lastTerm v < lastTerm c ∨ lastTerm c = lastTerm v ∧ v.length ≤ c.length

instance (c v : List E) : Decidable (UpToDate c v) :=
  inferInstanceAs (Decidable (_ ∨ _))

theorem UpToDate.refl (ℓ : List E) : UpToDate ℓ ℓ := Or.inr ⟨rfl, le_rfl⟩

/-- **What a vote hands on.** A log at least as up to date as one that
holds `P` holds `P` too, if the leader of its last term does whenever
that term is above the terms of `P`. -/
theorem UpToDate.carries {lead : ℕ → List E} {c v P : List E} {T : ℕ}
    (hup : UpToDate c v) (hc : Follows lead c) (hv : Follows lead v) (hsv : Sorted v)
    (hPv : P <+: v) (hP : P ≠ []) (hT : lastTerm P = T) (hPle : ∀ k, termAt P k ≤ T)
    (hlater : T < lastTerm c → c ≠ [] → P <+: lead (lastTerm c)) : P <+: c := by
  have hPlen : 1 ≤ P.length := List.length_pos_iff.mpr hP
  have hvlen : 1 ≤ v.length := hPlen.trans hPv.length_le
  have hvne : v ≠ [] := List.length_pos_iff.mp hvlen
  have hTv : T ≤ lastTerm v := by
    rw [← hT, lastTerm, termAt_eq_of_prefix_le hPv le_rfl]
    exact hsv _ _ hPv.length_le le_rfl
  rcases hup with hlt | ⟨heq, hlen⟩
  · have hcne : c ≠ [] := by
      rintro rfl
      simp [lastTerm] at hlt
    have hclead : c <+: lead (lastTerm c) := hc.prefix_lead hcne
    have hPlead : P <+: lead (lastTerm c) := hlater (by omega) hcne
    -- a shorter `c` would end inside `P`, with a term that `P` does not reach
    refine List.prefix_of_prefix_length_le hPlead hclead ?_
    by_contra hshort
    have hcP : c <+: P := List.prefix_of_prefix_length_le hclead hPlead (by omega)
    have hlast : lastTerm c = termAt P c.length := termAt_eq_of_prefix_le hcP le_rfl
    have := hPle c.length
    omega
  · have hcne : c ≠ [] := by
      rintro rfl
      simp at hlen
      exact hvne hlen
    have h₁ : c <+: lead (lastTerm v) := heq ▸ hc.prefix_lead hcne
    exact hPv.trans (List.prefix_of_prefix_length_le (hv.prefix_lead hvne) h₁ hlen)

/-! ### Adopting a prefix of the leader's log -/

open Classical in
/-- Keep a log that already holds `P`, otherwise take `P`. -/
noncomputable def adopt (ℓ P : List E) : List E := if P <+: ℓ then ℓ else P

omit [Termed E] in
theorem adopt_of_holds {ℓ P : List E} (h : P <+: ℓ) : adopt ℓ P = ℓ := if_pos h

omit [Termed E] in
theorem adopt_of_not_holds {ℓ P : List E} (h : ¬ P <+: ℓ) : adopt ℓ P = P := if_neg h

omit [Termed E] in
theorem prefix_adopt (ℓ P : List E) : P <+: adopt ℓ P := by
  by_cases h : P <+: ℓ
  · rwa [adopt_of_holds h]
  · rw [adopt_of_not_holds h]

omit [Termed E] in
/-- Adopting a prefix of a log `m` keeps every prefix of `m` that was
there before. -/
theorem prefix_adopt_of_common {ℓ P Q m : List E} (hQ : Q <+: ℓ) (hQm : Q <+: m)
    (hPm : P <+: m) : Q <+: adopt ℓ P := by
  by_cases h : P <+: ℓ
  · rwa [adopt_of_holds h]
  · rw [adopt_of_not_holds h]
    rcases List.prefix_or_prefix_of_prefix hQm hPm with hQP | hPQ
    · exact hQP
    · exact absurd (hPQ.trans hQ) h

theorem Matching.adopt {ℓ m P : List E} (h : Matching ℓ m) (hP : P <+: m) :
    Matching (adopt ℓ P) m := by
  by_cases hold : P <+: ℓ
  · rw [adopt_of_holds hold]
    exact h
  · rw [adopt_of_not_holds hold]
    exact matching_of_prefix hP

open Classical in
/-- The largest index through which `ℓ` agrees with `m`. -/
noncomputable def agreed (ℓ m : List E) : ℕ := Nat.findGreatest (fun k => m.take k <+: ℓ) m.length

omit [Termed E] in
theorem take_agreed (ℓ m : List E) : m.take (agreed ℓ m) <+: ℓ := by
  classical
  exact Nat.findGreatest_spec (P := fun k => m.take k <+: ℓ) (Nat.zero_le m.length) (by simp)

omit [Termed E] in
theorem agreed_le_length (ℓ m : List E) : agreed ℓ m ≤ m.length := by
  classical
  exact Nat.findGreatest_le _

omit [Termed E] in
theorem length_le_agreed {ℓ m Q : List E} (hℓ : Q <+: ℓ) (hm : Q <+: m) :
    Q.length ≤ agreed ℓ m := by
  classical
  refine Nat.le_findGreatest hm.length_le ?_
  rw [← List.prefix_iff_eq_take.mp hm]
  exact hℓ

omit [Termed E] in
/-- Adopting a prefix of `m` extends the agreement with `m`, as far as the
prefix goes. -/
theorem agreed_adopt {ℓ P m : List E} (hP : P <+: m) :
    agreed ℓ m ≤ agreed (adopt ℓ P) m ∧ P.length ≤ agreed (adopt ℓ P) m := by
  have hkeep := prefix_adopt_of_common (take_agreed ℓ m) (List.take_prefix _ m) hP
  have hle := length_le_agreed hkeep (List.take_prefix _ m)
  rw [List.length_take, min_eq_left (agreed_le_length ℓ m)] at hle
  exact ⟨hle, length_le_agreed (prefix_adopt ℓ P) hP⟩

/-- Go through the entries `es`, the first of them meant for position
`j`: keep the log where the terms agree, and let `es` replace the rest
of it from the first position where they differ or where it ends. -/
def splice (ℓ : List E) : ℕ → List E → List E
  | _, [] => ℓ
  | j, e :: es =>
      match ℓ[j]? with
      | none => ℓ ++ e :: es
      | some x => if Termed.term x = Termed.term e then splice ℓ (j + 1) es
          else ℓ.take j ++ e :: es

theorem take_splice (ℓ es : List E) {j k : ℕ} (hj : j ≤ ℓ.length) (hk : k ≤ j) :
    (splice ℓ j es).take k = ℓ.take k := by
  induction es generalizing j with
  | nil => rw [splice]
  | cons e es ih =>
      rw [splice]
      split
      · exact List.take_append_of_le_length (hk.trans hj)
      · rename_i x hx
        split
        · exact ih (List.getElem?_eq_some_iff.mp hx).1 (by omega)
        · rw [List.take_append_of_le_length (by rw [List.length_take]; omega), List.take_take,
            min_eq_left hk]

theorem le_length_splice (ℓ es : List E) {j : ℕ} (hj : j ≤ ℓ.length) :
    j ≤ (splice ℓ j es).length := by
  have htake := congrArg List.length (take_splice ℓ es hj le_rfl)
  rw [List.length_take, List.length_take, min_eq_left hj] at htake
  omega

/-- Splicing in the rest of `P` where the logs agree so far is adopting
`P`. The induction is over the entries left; the agreement grows by log
matching, one entry at a time. -/
theorem splice_eq_adopt {ℓ P : List E} (h : Matching ℓ P) (es : List E) (j : ℕ)
    (hjℓ : j ≤ ℓ.length) (hjP : j ≤ P.length)
    (hes : P.drop j = es) (hag : ℓ.take j = P.take j) : splice ℓ j es = adopt ℓ P := by
  induction es generalizing j with
  | nil =>
      have hj : P.take j = P := List.take_of_length_le (List.drop_eq_nil_iff.mp hes)
      rw [splice, adopt_of_holds]
      rw [← hj, ← hag]
      exact List.take_prefix j ℓ
  | cons e es ih =>
      have hPe : P[j]? = some e := by
        rw [← List.head?_drop, hes, List.head?_cons]
      have hjlt : j < P.length := (List.getElem?_eq_some_iff.mp hPe).1
      have hsplit : P = P.take j ++ e :: es := by
        rw [← hes, List.take_append_drop]
      cases hx : ℓ[j]? with
      | none =>
          have hlen : ℓ.length ≤ j := List.getElem?_eq_none_iff.mp hx
          have hℓP : ℓ = P.take j := by rw [← hag, List.take_of_length_le hlen]
          simp only [splice, hx]
          rw [adopt_of_not_holds, hℓP, ← hsplit]
          intro hpre
          have := hpre.length_le
          omega
      | some x =>
          have hjlt' : j < ℓ.length := (List.getElem?_eq_some_iff.mp hx).1
          simp only [splice, hx]
          by_cases hterm : Termed.term x = Termed.term e
          · rw [if_pos hterm]
            refine ih (j + 1) hjlt' hjlt ?_ ?_
            · rw [← List.tail_drop, hes, List.tail_cons]
            · refine h hjlt' hjlt ?_
              rw [termAt_of_getElem? hx, termAt_of_getElem? hPe, hterm]
          · rw [if_neg hterm, adopt_of_not_holds, hag, ← hsplit]
            intro hpre
            have hxe : ℓ[j]? = some e := by
              rw [← hPe, List.prefix_iff_eq_take.mp hpre, List.getElem?_take_of_lt]
              simpa using hjlt
            rw [hx] at hxe
            exact hterm (by rw [Option.some.inj hxe])

end TermLog

end RaftShardedKv
