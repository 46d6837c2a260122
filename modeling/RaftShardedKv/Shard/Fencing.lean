import RaftShardedKv.Shard.Group

/-!
What an operation can do to one shard of a group, and what a sequence of
operations cannot.

The number of a shard only rises. A migration request changes the shard
only if its own number is above that, or, to delete, equal to it; after
it has done so once, the number stands in the way of every request of the
same kind and number, in whatever order and how often they come.
-/

namespace RaftShardedKv

/-! ### One operation -/

/-- The effect of a request on shard `x`, and its reply. -/
inductive ShardEffect (x : Tshid) : Request → Reply → ShardState → ShardState → Prop
  | get (args : GetArgs) (st : ShardState) (reply : GetReply)
      (h : key2Shard args.key = x → reply = st.get args) :
      ShardEffect x (.get args) (.get reply) st st
  | put (args : PutArgs) (reply : PutReply) (st : ShardState) (requests : Dedup.Table)
      (values : GoMap GoString ValueEntry) (hx : key2Shard args.key = x)
      (hstatus : st.status = .shardServing)
      (hdo : st.requests.doPut args (ShardState.applyPut args) st.values =
        some (requests, values, reply)) :
      ShardEffect x (.put args) (.put reply) st { st with requests := requests, values := values }
  | putRefused (args : PutArgs) (st : ShardState) (hx : key2Shard args.key = x)
      (hstatus : st.status ≠ .shardServing) :
      ShardEffect x (.put args) (.put ⟨.errWrongGroup⟩) st st
  | putElsewhere (args : PutArgs) (reply : PutReply) (st : ShardState)
      (hx : key2Shard args.key ≠ x) : ShardEffect x (.put args) (.put reply) st st
  | freeze (num : Tnum) (st : ShardState) (hstatus : st.status = .shardServing)
      (hnum : st.configNum < num) :
      ShardEffect x (.freezeShard x num)
        (.freezeShard (encodeShardTransfer st.values st.requests) num .ok) st
        { st with status := .shardFrozen, configNum := num }
  | frozen (num : Tnum) (st : ShardState) (hstatus : st.status = .shardFrozen)
      (hnum : num = st.configNum) :
      ShardEffect x (.freezeShard x num)
        (.freezeShard (encodeShardTransfer st.values st.requests) num .ok) st st
  | freezeRefused (num : Tnum) (data : TransferData) (st : ShardState)
      (h : st.status ≠ .shardServing ∨ num ≤ st.configNum)
      (h' : ¬ (num = st.configNum ∧ st.status = .shardFrozen)) :
      ShardEffect x (.freezeShard x num) (.freezeShard data st.configNum .errWrongGroup) st st
  | install (data : TransferData) (num : Tnum) (st : ShardState)
      (hstatus : st.status = .shardAbsent) (hnum : st.configNum < num) :
      ShardEffect x (.installShard x data num) (.installShard .ok) st
        ⟨(decodeShardTransfer data).values, .shardServing, num, (decodeShardTransfer data).requests⟩
  | installed (data : TransferData) (num : Tnum) (st : ShardState)
      (hstatus : st.status = .shardServing) (hnum : num = st.configNum) :
      ShardEffect x (.installShard x data num) (.installShard .ok) st st
  | installRefused (data : TransferData) (num : Tnum) (st : ShardState)
      (h : st.status ≠ .shardAbsent ∨ num ≤ st.configNum)
      (h' : ¬ (num = st.configNum ∧ st.status = .shardServing)) :
      ShardEffect x (.installShard x data num) (.installShard .errWrongGroup) st st
  | delete (num : Tnum) (st : ShardState) (hstatus : st.status = .shardFrozen)
      (hnum : num = st.configNum) :
      ShardEffect x (.deleteShard x num) (.deleteShard .ok) st
        { st with values := .make, requests := .empty, status := .shardAbsent }
  | deleted (num : Tnum) (st : ShardState)
      (h : num < st.configNum ∨ num = st.configNum ∧ st.status = .shardAbsent) :
      ShardEffect x (.deleteShard x num) (.deleteShard .ok) st st
  | deleteRefused (num : Tnum) (st : ShardState)
      (h : num ≠ st.configNum ∨ st.status ≠ .shardFrozen)
      (h' : ¬ (num < st.configNum ∨ num = st.configNum ∧ st.status = .shardAbsent)) :
      ShardEffect x (.deleteShard x num) (.deleteShard .errWrongGroup) st st
  | elsewhere (req : Request) (reply : Reply) (st : ShardState)
      (h : ∀ y num data, req = .freezeShard y num ∨ req = .installShard y data num ∨
        req = .deleteShard y num → y ≠ x)
      (h' : (∀ args, req ≠ .get args) ∧ ∀ args, req ≠ .put args) :
      ShardEffect x req reply st st

namespace KVServer

variable {kv kv' : KVServer} {req : Request} {reply : Reply}

theorem doOp_effect (h : kv.doOp req = some (kv', reply)) (x : Tshid) :
    ShardEffect x req reply (kv x) (kv' x) := by
  cases req with
  | get args =>
      cases h
      refine .get args (kv x) _ ?_
      rintro rfl
      rfl
  | put args =>
      obtain ⟨⟨state, reply⟩, hput, h⟩ := Option.bind_eq_some_iff.mp h
      cases h
      rcases eq_or_ne (key2Shard args.key) x with rfl | hne
      · rw [Function.update_self]
        unfold ShardState.put at hput
        split at hput
        · rename_i hstatus
          cases hput
          exact .putRefused args _ rfl hstatus
        · rename_i hstatus
          obtain ⟨⟨requests, values, reply'⟩, hdo, hput⟩ := Option.bind_eq_some_iff.mp hput
          cases hput
          exact .put args _ _ _ _ rfl (not_not.mp hstatus) hdo
      · rw [Function.update_of_ne hne.symm]
        exact .putElsewhere args _ _ hne
  | freezeShard y num =>
      simp only [doOp, Option.some.injEq, Prod.mk.injEq] at h
      obtain ⟨rfl, rfl⟩ := h
      rcases eq_or_ne y x with rfl | hne
      · rw [Function.update_self]
        unfold ShardState.freezeShard
        dsimp only
        split
        · rename_i h
          rw [← h.1]
          exact .frozen num _ h.2 h.1
        · rename_i h'
          split
          · rename_i h
            exact .freezeRefused num _ _ h h'
          · rename_i h
            obtain ⟨hstatus, hnum⟩ := not_or.mp h
            exact .freeze num _ (not_not.mp hstatus) (not_le.mp hnum)
      · rw [Function.update_of_ne hne.symm]
        refine .elsewhere _ _ _ ?_ (by simp)
        rintro y' num' data (h | h | h) <;> cases h
        exact hne
  | installShard y data num =>
      simp only [doOp, Option.some.injEq, Prod.mk.injEq] at h
      obtain ⟨rfl, rfl⟩ := h
      rcases eq_or_ne y x with rfl | hne
      · rw [Function.update_self]
        unfold ShardState.installShard
        split
        · rename_i h
          exact .installed data num _ h.2 h.1
        · rename_i h'
          split
          · rename_i h
            exact .installRefused data num _ h h'
          · rename_i h
            obtain ⟨hstatus, hnum⟩ := not_or.mp h
            exact .install data num _ (not_not.mp hstatus) (not_le.mp hnum)
      · rw [Function.update_of_ne hne.symm]
        refine .elsewhere _ _ _ ?_ (by simp)
        rintro y' num' data (h | h | h) <;> cases h
        exact hne
  | deleteShard y num =>
      simp only [doOp, Option.some.injEq, Prod.mk.injEq] at h
      obtain ⟨rfl, rfl⟩ := h
      rcases eq_or_ne y x with rfl | hne
      · rw [Function.update_self]
        unfold ShardState.deleteShard
        split
        · rename_i h
          exact .deleted num _ h
        · rename_i h'
          split
          · rename_i h
            exact .deleteRefused num _ h h'
          · rename_i h
            obtain ⟨hnum, hstatus⟩ := not_or.mp h
            exact .delete num _ (not_not.mp hstatus) (not_not.mp hnum)
      · rw [Function.update_of_ne hne.symm]
        refine .elsewhere _ _ _ ?_ (by simp)
        rintro y' num' data (h | h | h) <;> cases h
        exact hne

end KVServer

/-! ### What is fenced off -/

inductive MigrationKind
  | freeze
  | install
  | delete
  deriving DecidableEq, Repr

/-- The kind and the number of a migration request for shard `x`. -/
def Request.migration (x : Tshid) : Request → Option (MigrationKind × Tnum)
  | .freezeShard y num => if y = x then some (.freeze, num) else none
  | .installShard y _ num => if y = x then some (.install, num) else none
  | .deleteShard y num => if y = x then some (.delete, num) else none
  | _ => none

/-- Requests of this kind and number come too late for the shard. -/
def Fenced (kind : MigrationKind) (num : Tnum) (st : ShardState) : Prop :=
  num ≤ st.configNum ∧ (kind = .delete → num = st.configNum → st.status ≠ .shardFrozen)

section

variable {x : Tshid} {req : Request} {reply : Reply} {st st' : ShardState} {kind : MigrationKind}
  {num : Tnum}

theorem Fenced.of_lt (h : num < st.configNum) : Fenced kind num st :=
  ⟨h.le, fun _ heq => absurd heq h.ne⟩

theorem ShardEffect.configNum_le (h : ShardEffect x req reply st st') :
    st.configNum ≤ st'.configNum := by
  cases h with
  | freeze num st hstatus hnum => exact hnum.le
  | install data num st hstatus hnum => exact hnum.le
  | _ => exact le_rfl

theorem Fenced.effect (hf : Fenced kind num st) (h : ShardEffect x req reply st st') :
    Fenced kind num st' := by
  cases h with
  | freeze num' st hstatus hnum => exact .of_lt (hf.1.trans_lt hnum)
  | install data num' st hstatus hnum => exact .of_lt (hf.1.trans_lt hnum)
  | delete num' st hstatus hnum => exact ⟨hf.1, fun _ _ => by simp⟩
  | _ => exact hf

theorem Fenced.unchanged (hf : Fenced kind num st) (h : ShardEffect x req reply st st')
    (hreq : req.migration x = some (kind, num)) : st' = st := by
  cases h with
  | put => simp [Request.migration] at hreq
  | freeze num' st hstatus hnum =>
      simp only [Request.migration, ↓reduceIte, Option.some.injEq, Prod.mk.injEq] at hreq
      obtain ⟨-, rfl⟩ := hreq
      exact absurd hf.1 (not_le.mpr hnum)
  | install data num' st hstatus hnum =>
      simp only [Request.migration, ↓reduceIte, Option.some.injEq, Prod.mk.injEq] at hreq
      obtain ⟨-, rfl⟩ := hreq
      exact absurd hf.1 (not_le.mpr hnum)
  | delete num' st hstatus hnum =>
      simp only [Request.migration, ↓reduceIte, Option.some.injEq, Prod.mk.injEq] at hreq
      obtain ⟨rfl, rfl⟩ := hreq
      exact absurd hstatus (hf.2 rfl hnum)
  | _ => rfl

theorem ShardEffect.fenced (h : ShardEffect x req reply st st')
    (hreq : req.migration x = some (kind, num)) (hne : st' ≠ st) : Fenced kind num st' := by
  cases h with
  | put => simp [Request.migration] at hreq
  | freeze num' st hstatus hnum =>
      simp only [Request.migration, ↓reduceIte, Option.some.injEq, Prod.mk.injEq] at hreq
      obtain ⟨rfl, rfl⟩ := hreq
      exact ⟨le_rfl, nofun⟩
  | install data num' st hstatus hnum =>
      simp only [Request.migration, ↓reduceIte, Option.some.injEq, Prod.mk.injEq] at hreq
      obtain ⟨rfl, rfl⟩ := hreq
      exact ⟨le_rfl, nofun⟩
  | delete num' st hstatus hnum =>
      simp only [Request.migration, ↓reduceIte, Option.some.injEq, Prod.mk.injEq] at hreq
      obtain ⟨rfl, rfl⟩ := hreq
      exact ⟨hnum.le, fun _ _ => by simp⟩
  | _ => exact absurd rfl hne

theorem ShardEffect.content (h : ShardEffect x req reply st st')
    (hne : st'.values ≠ st.values ∨ st'.requests ≠ st.requests) :
    (st.status = .shardServing ∧ st'.status = .shardServing ∧
        ∃ args, req = .put args ∧ key2Shard args.key = x) ∨
      (st.status = .shardAbsent ∧ st'.status = .shardServing ∧
        ∃ data num, req = .installShard x data num) ∨
      st.status = .shardFrozen ∧ st'.status = .shardAbsent ∧ ∃ num, req = .deleteShard x num := by
  cases h with
  | put args reply st requests values hx hstatus =>
      exact Or.inl ⟨hstatus, hstatus, args, rfl, hx⟩
  | install data num st hstatus => exact Or.inr (Or.inl ⟨hstatus, rfl, data, num, rfl⟩)
  | delete num st hstatus => exact Or.inr (Or.inr ⟨hstatus, rfl, num, rfl⟩)
  | _ => simp at hne

end

/-! ### Sequences of operations -/

/-- A group executes `n` requests one after the other. -/
def KVServer.Executes (kv : ℕ → KVServer) (reqs : ℕ → Request) (n : ℕ) : Prop :=
  ∀ k < n, ∃ reply, (kv k).doOp (reqs k) = some (kv (k + 1), reply)

namespace KVServer.Executes

variable {kv : ℕ → KVServer} {reqs : ℕ → Request} {n : ℕ}

theorem effect (h : Executes kv reqs n) {k : ℕ} (hk : k < n) (x : Tshid) :
    ∃ reply, ShardEffect x (reqs k) reply (kv k x) (kv (k + 1) x) := by
  obtain ⟨reply, hdo⟩ := h k hk
  exact ⟨reply, doOp_effect hdo x⟩

theorem preserves (h : Executes kv reqs n) {x : Tshid} {P : ShardState → Prop}
    (hP : ∀ req reply st st', ShardEffect x req reply st st' → P st → P st') {i j : ℕ}
    (hij : i ≤ j) (hj : j ≤ n) (hi : P (kv i x)) : P (kv j x) := by
  induction j, hij using Nat.le_induction with
  | base => exact hi
  | succ j _ ih =>
      obtain ⟨reply, he⟩ := h.effect hj x
      exact hP _ _ _ _ he (ih (by omega))

theorem fenced (h : Executes kv reqs n) {x : Tshid} {kind : MigrationKind} {num : Tnum} {i j : ℕ}
    (hij : i ≤ j) (hj : j ≤ n) (hi : Fenced kind num (kv i x)) : Fenced kind num (kv j x) :=
  h.preserves (fun _ _ _ _ he hf => hf.effect he) hij hj hi

theorem unchanged (h : Executes kv reqs n) {x : Tshid} {kind : MigrationKind} {num : Tnum} {j : ℕ}
    (hj : j < n) (hreq : (reqs j).migration x = some (kind, num))
    (hf : Fenced kind num (kv j x)) : kv (j + 1) x = kv j x := by
  obtain ⟨reply, he⟩ := h.effect hj x
  exact hf.unchanged he hreq

end KVServer.Executes

/-- What a sequence of `n` requests cannot do to shard `x`. -/
structure FencedRun (kv : ℕ → KVServer) (reqs : ℕ → Request) (n : ℕ) (x : Tshid) : Prop where
  configNum : ∀ i j, i ≤ j → j ≤ n → (kv i x).configNum ≤ (kv j x).configNum
  content : ∀ k < n, (kv (k + 1) x).values ≠ (kv k x).values ∨
      (kv (k + 1) x).requests ≠ (kv k x).requests →
    ((kv k x).status = .shardServing ∧ (kv (k + 1) x).status = .shardServing ∧
        ∃ args, reqs k = .put args ∧ key2Shard args.key = x) ∨
      ((kv k x).status = .shardAbsent ∧ (kv (k + 1) x).status = .shardServing ∧
        ∃ data num, reqs k = .installShard x data num) ∨
      (kv k x).status = .shardFrozen ∧ (kv (k + 1) x).status = .shardAbsent ∧
        ∃ num, reqs k = .deleteShard x num
  once : ∀ kind num, ∀ i < n, ∀ j < n, (reqs i).migration x = some (kind, num) →
    (reqs j).migration x = some (kind, num) → kv (i + 1) x ≠ kv i x → kv (j + 1) x ≠ kv j x → i = j
  stale : ∀ kind num, ∀ k < n, (reqs k).migration x = some (kind, num) →
    num < (kv k x).configNum → kv (k + 1) x = kv k x
  installed : ∀ i data num, i < n → reqs i = .installShard x data num →
    (kv i x).status ≠ .shardServing → (kv (i + 1) x).status = .shardServing →
    ∀ j, i < j → j < n → ∀ kind num', (reqs j).migration x = some (kind, num') → num' ≤ num →
      kv (j + 1) x = kv j x

/-- Any requests, from any state of the group. -/
theorem migration_fenced {kv : ℕ → KVServer} {reqs : ℕ → Request} {n : ℕ}
    (h : KVServer.Executes kv reqs n) (x : Tshid) : FencedRun kv reqs n x := by
  refine ⟨?_, ?_, ?_, ?_, ?_⟩
  · intro i j hij hj
    exact h.preserves (P := fun st => (kv i x).configNum ≤ st.configNum)
      (fun _ _ _ _ he hle => hle.trans he.configNum_le) hij hj le_rfl
  · intro k hk hne
    obtain ⟨reply, he⟩ := h.effect hk x
    exact he.content hne
  · intro kind num i hi j hj hreqi hreqj hnei hnej
    wlog hij : i ≤ j generalizing i j
    · exact (this j hj i hi hreqj hreqi hnej hnei (by omega)).symm
    by_contra hne
    obtain ⟨reply, he⟩ := h.effect hi x
    have hf := h.fenced (show i + 1 ≤ j by omega) hj.le (he.fenced hreqi hnei)
    exact hnej (h.unchanged hj hreqj hf)
  · intro kind num k hk hreq hlt
    exact h.unchanged hk hreq (.of_lt hlt)
  · intro i data num hi hreq hbefore hafter j hij hj kind num' hreq' hle
    obtain ⟨reply, he⟩ := h.effect hi x
    rw [hreq] at he
    have hf : Fenced kind num' (kv (i + 1) x) := by
      have hnum : (kv (i + 1) x).configNum = num := by
        generalize kv (i + 1) x = st' at he hafter
        cases he with
        | install => rfl
        | installed | installRefused => exact absurd hafter hbefore
        | elsewhere _ _ _ h => exact absurd rfl (h x num data (Or.inr (Or.inl rfl)))
      exact ⟨hnum ▸ hle, fun _ _ => by rw [hafter]; decide⟩
    exact h.unchanged hj hreq' (h.fenced (by omega) hj.le hf)

def shard0 : Tshid := ⟨0, by decide⟩

/-- A shard comes and goes, and a copy of the first request is late. -/
def lateInstall : List Request :=
  [.installShard shard0 none 2, .freezeShard shard0 3, .installShard shard0 none 2,
    .deleteShard shard0 3]

def lateInstallStates (k : ℕ) : KVServer :=
  (lateInstall.take k).foldl (fun kv req => ((kv.doOp req).map Prod.fst).getD kv) (.start 2)

theorem migration_fenced_lateInstall :
    (lateInstallStates 1 shard0).status = .shardServing ∧
      (lateInstallStates 2 shard0).status = .shardFrozen ∧
      FencedRun lateInstallStates (fun k => lateInstall.getD k (.get ⟨[]⟩)) 4 shard0 := by
  refine ⟨by decide, by decide, migration_fenced ?_ shard0⟩
  intro k hk
  interval_cases k <;> exact ⟨_, rfl⟩

end RaftShardedKv
