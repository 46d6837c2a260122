import Mathlib.Tactic

/-!
State machines that are written out and read back.

Operations and restores may fail. A request may carry what another server
gave away in a reply, so the servers of one kind are looked at together: a
state is reached by operations and by restores of what reached states were
written out as. If an invariant gets past all of them, and a state that has it
is read back as it was, then a server that was restored answers as the one it
was restored from.
-/

namespace RaftShardedKv.Snapshot

structure Machine (σ Req Rep Data : Type*) where
  start : σ → Prop
  doOp : σ → Req → Option (σ × Rep)
  snapshot : σ → Data
  restore : σ → Data → Option σ
  /-- The requests that carry nothing from another server. -/
  plain : Req → Prop
  /-- The requests that carry what this reply gave away. -/
  carries : Rep → Req → Prop

namespace Machine

variable {σ Req Rep Data : Type*} {M : Machine σ Req Rep Data}

inductive Reached (M : Machine σ Req Rep Data) : σ → Prop
  | start {s : σ} (h : M.start s) : Reached M s
  | doOp {s s' : σ} {req : Req} {rep : Rep} (h : Reached M s) (hreq : M.plain req)
      (hop : M.doOp s req = some (s', rep)) : Reached M s'
  | carry {s s' t t' : σ} {req req' : Req} {rep rep' : Rep} (h : Reached M s) (ht : Reached M t)
      (hgive : M.doOp t req' = some (t', rep')) (hreq : M.carries rep' req)
      (hop : M.doOp s req = some (s', rep)) : Reached M s'
  | restore {s s' t : σ} (h : Reached M s) (ht : Reached M t)
      (hrestore : M.restore s (M.snapshot t) = some s') : Reached M s'

/-- The answers to a list of requests, up to the first one that fails. -/
def answers (M : Machine σ Req Rep Data) (s : σ) : List Req → List Rep
  | [] => []
  | req :: reqs =>
      match M.doOp s req with
      | none => []
      | some (s, rep) => rep :: M.answers s reqs

/-- Nothing of the state is lost when it is written out, and no operation fails
in it. -/
structure Exact (M : Machine σ Req Rep Data) (s : σ) : Prop where
  restore : ∀ t, M.restore t (M.snapshot s) = some s
  answers : ∀ t s' reqs, M.restore t (M.snapshot s) = some s' →
    M.answers s' reqs = M.answers s reqs
  total : ∀ req, ∃ out, M.doOp s req = some out

/-- An invariant of the states that are reached. -/
structure Kept (M : Machine σ Req Rep Data) (I : σ → Prop) : Prop where
  start : ∀ s, M.start s → I s
  doOp : ∀ s s' req rep, I s → M.plain req → M.doOp s req = some (s', rep) → I s'
  carry : ∀ s s' t t' req req' rep rep', I s → I t → M.doOp t req' = some (t', rep') →
    M.carries rep' req → M.doOp s req = some (s', rep) → I s'
  restore : ∀ s t, I s → M.restore t (M.snapshot s) = some s
  total : ∀ s req, I s → ∃ out, M.doOp s req = some out

variable {I : σ → Prop} {s : σ}

theorem Kept.reached (hkept : M.Kept I) (h : M.Reached s) : I s := by
  induction h with
  | start h => exact hkept.start _ h
  | doOp _ hreq hop ih => exact hkept.doOp _ _ _ _ ih hreq hop
  | carry _ _ hgive hreq hop ih iht => exact hkept.carry _ _ _ _ _ _ _ _ ih iht hgive hreq hop
  | @restore s s' t _ _ hrestore _ iht =>
      rw [hkept.restore t s iht] at hrestore
      cases hrestore
      exact iht

theorem Kept.exact (hkept : M.Kept I) (h : M.Reached s) : M.Exact s where
  restore t := hkept.restore s t (hkept.reached h)
  answers t s' reqs hrestore := by
    rw [hkept.restore s t (hkept.reached h)] at hrestore
    cases hrestore
    rfl
  total req := hkept.total s req (hkept.reached h)

end Machine

end RaftShardedKv.Snapshot
