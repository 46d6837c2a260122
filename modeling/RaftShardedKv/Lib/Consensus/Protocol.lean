import RaftShardedKv.Lib.Quorum
import RaftShardedKv.Lib.TermLog
import RaftShardedKv.Lib.Transition

/-!
Consensus on a log by elected leaders, with nothing of any
implementation in it: no messages, no timers, no compaction.

The state of a server is its term, its role, its log and how far it
knows the log to be committed. Beside that stands the history every
argument about the protocol refers to: who voted for whom in which term
and with which log, who led which term, the log `lead t` that the leader
of term `t` has built so far, and `acked t v`, the length of the prefix
of `lead t` that `v` has confirmed to hold while it was in term `t`. The
history is only ever extended.

There are no messages because none are needed: what a message would
carry is a part of the history. A server that accepts entries of term
`t` adopts a prefix of `lead t`, whichever message brought it and
however late. An implementation is connected to this protocol by showing
that what its messages carry is such a part.
-/

namespace RaftShardedKv.Consensus

open TermLog

/-- The role a server plays in its term. -/
inductive Role
  | follower
  | candidate
  | leader
  deriving DecidableEq, Repr

/-- The servers and the history of the protocol. -/
structure Cluster (S E : Type*) where
  /-- The current term of a server. -/
  term : S → ℕ
  /-- Its role in that term. -/
  role : S → Role
  /-- Its log. -/
  log : S → List E
  /-- The length of the prefix of its log it knows to be committed. -/
  commit : S → ℕ
  /-- `vote t v` is the candidate that got the vote of `v` in term `t`. -/
  vote : ℕ → S → Option S
  /-- The log `v` had when it voted in term `t`. -/
  voteLog : ℕ → S → List E
  /-- The leader elected in term `t`. -/
  leader : ℕ → Option S
  /-- The log of the leader of term `t`, empty while there is none. -/
  lead : ℕ → List E
  /-- The length of the prefix of `lead t` that a server has confirmed. -/
  acked : ℕ → S → ℕ

/-- A function of a term and a server, changed at one point. -/
def set2 {S α : Type*} [DecidableEq S] (f : ℕ → S → α) (t : ℕ) (v : S) (x : α) : ℕ → S → α :=
  fun t' v' => if t' = t ∧ v' = v then x else f t' v'

section set2

variable {S α : Type*} [DecidableEq S] (f : ℕ → S → α) (t t' : ℕ) (v v' : S) (x : α)

@[simp] theorem set2_self : set2 f t v x t v = x := by simp [set2]

theorem set2_of_ne (h : ¬ (t' = t ∧ v' = v)) : set2 f t v x t' v' = f t' v' := by
  simp [set2, h]

theorem set2_cases : t' = t ∧ v' = v ∧ set2 f t v x t' v' = x ∨
    ¬ (t' = t ∧ v' = v) ∧ set2 f t v x t' v' = f t' v' := by
  by_cases h : t' = t ∧ v' = v
  · obtain ⟨rfl, rfl⟩ := h
    exact Or.inl ⟨rfl, rfl, set2_self ..⟩
  · exact Or.inr ⟨h, set2_of_ne _ _ _ _ _ _ h⟩

end set2

variable {S E : Type*} [DecidableEq S] [Termed E]

/-- A majority has confirmed the entry of term `T` at index `N` to the
leader of term `T`. -/
def Committed [Fintype S] (s : Cluster S E) (T N : ℕ) : Prop :=
  s.leader T ≠ none ∧ 1 ≤ N ∧ N ≤ (s.lead T).length ∧ termAt (s.lead T) N = T ∧
    Quorum fun v => N ≤ s.acked T v

/-- `P` is part of what some leader of a term up to `u` has committed. -/
def CommittedPrefix [Fintype S] (s : Cluster S E) (u : ℕ) (P : List E) : Prop :=
  P = [] ∨ ∃ T N, T ≤ u ∧ Committed s T N ∧ P <+: (s.lead T).take N

namespace Cluster

/-- Every server in term 0 with an empty log, and no history. -/
def start (S E : Type*) : Cluster S E where
  term _ := 0
  role _ := .follower
  log _ := []
  commit _ := 0
  vote _ _ := none
  voteLog _ _ := []
  leader _ := none
  lead _ := []
  acked _ _ := 0

/-- Server `i` moves to term `t` as a follower. -/
def observe (s : Cluster S E) (i : S) (t : ℕ) : Cluster S E :=
  { s with
    term := Function.update s.term i t
    role := Function.update s.role i .follower }

/-- Server `i` stands for election in the next term and votes for itself. -/
def timeout (s : Cluster S E) (i : S) : Cluster S E :=
  { s with
    term := Function.update s.term i (s.term i + 1)
    role := Function.update s.role i .candidate
    vote := set2 s.vote (s.term i + 1) i (some i)
    voteLog := set2 s.voteLog (s.term i + 1) i (s.log i) }

/-- Server `v` votes for `c` in its current term. -/
def grant (s : Cluster S E) (v c : S) : Cluster S E :=
  { s with
    vote := set2 s.vote (s.term v) v (some c)
    voteLog := set2 s.voteLog (s.term v) v (s.log v) }

/-- Candidate `c` becomes the leader of its term, with its own log. -/
def elect (s : Cluster S E) (c : S) : Cluster S E :=
  { s with
    role := Function.update s.role c .leader
    leader := Function.update s.leader (s.term c) (some c)
    lead := Function.update s.lead (s.term c) (s.log c)
    acked := set2 s.acked (s.term c) c (s.log c).length }

/-- Leader `i` adds the entry `e`. -/
def append (s : Cluster S E) (i : S) (e : E) : Cluster S E :=
  { s with
    log := Function.update s.log i (s.log i ++ [e])
    lead := Function.update s.lead (s.term i) (s.lead (s.term i) ++ [e])
    acked := set2 s.acked (s.term i) i ((s.log i).length + 1) }

/-- Server `i` adopts the first `m` entries of the leader of term `t`,
and confirms that it holds them. -/
noncomputable def accept (s : Cluster S E) (i : S) (t m : ℕ) : Cluster S E :=
  { s with
    term := Function.update s.term i t
    role := Function.update s.role i .follower
    log := Function.update s.log i (adopt (s.log i) ((s.lead t).take m))
    acked := set2 s.acked t i (max (s.acked t i) m) }

/-- Server `i` now knows the first `c` entries of its log to be committed. -/
def setCommit (s : Cluster S E) (i : S) (c : ℕ) : Cluster S E :=
  { s with commit := Function.update s.commit i c }

/-- Server `i` starts again as a follower, and may have forgotten how
far its log is committed. -/
def restart (s : Cluster S E) (i : S) (c : ℕ) : Cluster S E :=
  { s with
    role := Function.update s.role i .follower
    commit := Function.update s.commit i c }

end Cluster

/-- The steps of the protocol. -/
inductive Step [Fintype S] : Cluster S E → Cluster S E → Prop
  | observe {s : Cluster S E} (i : S) (t : ℕ) (ht : s.term i ≤ t) : Step s (s.observe i t)
  | timeout {s : Cluster S E} (i : S) : Step s (s.timeout i)
  | grant {s : Cluster S E} (v c : S) (hc : s.vote (s.term v) c = some c)
      (hv : s.vote (s.term v) v = none)
      (hup : UpToDate (s.voteLog (s.term v) c) (s.log v)) : Step s (s.grant v c)
  | elect {s : Cluster S E} (c : S) (hc : s.role c = .candidate)
      (hq : Quorum fun v => s.vote (s.term c) v = some c) : Step s (s.elect c)
  | append {s : Cluster S E} (i : S) (e : E) (hi : s.role i = .leader)
      (he : Termed.term e = s.term i) : Step s (s.append i e)
  | accept {s : Cluster S E} (i : S) (t m : ℕ) (hl : s.leader t ≠ none)
      (ht : s.term i ≤ t) (hm : m ≤ (s.lead t).length) : Step s (s.accept i t m)
  | commit {s : Cluster S E} (i : S) (c : ℕ) (hc : c ≤ (s.log i).length)
      (hp : CommittedPrefix s (s.term i) ((s.log i).take c)) : Step s (s.setCommit i c)
  | restart {s : Cluster S E} (i : S) (c : ℕ) (hc : c ≤ s.commit i) : Step s (s.restart i c)

/-- The protocol as a transition system. -/
def protocol (S E : Type*) [DecidableEq S] [Fintype S] [Termed E] :
    Transition.Sys (Cluster S E) Unit where
  init s := s = Cluster.start S E
  step s _ s' := Step s s'

/-! ### Steps are local -/

/-- No server but `i` has changed. -/
structure Only (i : S) (s s' : Cluster S E) : Prop where
  term : ∀ j, j ≠ i → s'.term j = s.term j
  role : ∀ j, j ≠ i → s'.role j = s.role j
  log : ∀ j, j ≠ i → s'.log j = s.log j
  commit : ∀ j, j ≠ i → s'.commit j = s.commit j
  vote : ∀ j, j ≠ i → ∀ t, s'.vote t j = s.vote t j

namespace Only

variable (s : Cluster S E) (i : S)

omit [DecidableEq S] [Termed E] in
theorem refl : Only i s s := ⟨fun _ _ => rfl, fun _ _ => rfl, fun _ _ => rfl, fun _ _ => rfl,
  fun _ _ _ => rfl⟩

omit [DecidableEq S] [Termed E] in
theorem trans {s₁ s₂ s₃ : Cluster S E} (h₁ : Only i s₁ s₂) (h₂ : Only i s₂ s₃) :
    Only i s₁ s₃ where
  term j hj := (h₂.term j hj).trans (h₁.term j hj)
  role j hj := (h₂.role j hj).trans (h₁.role j hj)
  log j hj := (h₂.log j hj).trans (h₁.log j hj)
  commit j hj := (h₂.commit j hj).trans (h₁.commit j hj)
  vote j hj t := (h₂.vote j hj t).trans (h₁.vote j hj t)

omit [Termed E] in
theorem observe (t : ℕ) : Only i s (s.observe i t) := by
  constructor <;> intro j hj <;> simp [Cluster.observe, hj]

omit [Termed E] in
theorem timeout : Only i s (s.timeout i) := by
  constructor <;> intro j hj <;> simp [Cluster.timeout, hj, set2]

omit [Termed E] in
theorem grant (c : S) : Only i s (s.grant i c) := by
  constructor <;> intro j hj <;> simp [Cluster.grant, hj, set2]

omit [Termed E] in
theorem elect : Only i s (s.elect i) := by
  constructor <;> intro j hj <;> simp [Cluster.elect, hj]

omit [Termed E] in
theorem append (e : E) : Only i s (s.append i e) := by
  constructor <;> intro j hj <;> simp [Cluster.append, hj]

omit [Termed E] in
theorem accept (t m : ℕ) : Only i s (s.accept i t m) := by
  constructor <;> intro j hj <;> simp [Cluster.accept, hj]

omit [Termed E] in
theorem setCommit (c : ℕ) : Only i s (s.setCommit i c) := by
  constructor <;> intro j hj <;> simp [Cluster.setCommit, hj]

omit [Termed E] in
theorem restart (c : ℕ) : Only i s (s.restart i c) := by
  constructor <;> intro j hj <;> simp [Cluster.restart, hj]

end Only

end RaftShardedKv.Consensus
