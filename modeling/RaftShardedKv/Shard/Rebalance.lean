import RaftShardedKv.Lib.Balance
import RaftShardedKv.Lib.Loop
import RaftShardedKv.Shard.Config

/-!
Changes of a configuration, from `shardkv1/shardcfg/shardcfg.go`: groups join
or leave, and the shards are balanced over the groups there are.

The map of groups is sorted before `analyze` looks at it. `Join` takes its new
groups in the order in which Go visits the entries of the argument, which can
be any; here the argument is the list of entries in that order. `Rebalance` is
modelled with the list of the shards it wrote, in order.
-/

namespace RaftShardedKv

namespace ShardConfig

/-- `counts[g]` once the shards have been counted. -/
def counts (c : ShardConfig) : Tgid → ℤ :=
  (List.finRange NShards).foldl
    (fun counts s => Function.update counts (c.shards s) (counts (c.shards s) + 1)) fun _ => 0

/-- The results of `analyze`. -/
structure Analysis where
  mg : Tgid
  mn : ℤ
  lg : Tgid
  ln : ℤ

/-- One round of the loop in `analyze`. -/
def Analysis.visit (counts : Tgid → ℤ) (a : Analysis) (g : Tgid) : Analysis :=
  let a := if counts g < a.ln then { a with ln := counts g, lg := g } else a
  if counts g > a.mn then { a with mn := counts g, mg := g } else a

def analyze (c : ShardConfig) : Analysis :=
  (c.groups.keys.sort (· ≤ ·)).foldl (Analysis.visit c.counts)
    { mg := -1, mn := -1, lg := -1, ln := 257 }

def least (c : ShardConfig) : Tgid := c.analyze.lg

end ShardConfig

open ShardConfig

/-- `Rebalance` under way, with the shards it wrote. -/
structure Rebalancing where
  cfg : ShardConfig
  written : List Tshid

namespace Rebalancing

/-- `c.Shards[s] = g` -/
def write (r : Rebalancing) (s : Tshid) (g : Tgid) : Rebalancing where
  cfg := { r.cfg with shards := Function.update r.cfg.shards s g }
  written := r.written ++ [s]

def unassignAll (r : Rebalancing) : Rebalancing :=
  (List.finRange NShards).foldl (fun r s => r.write s 0) r

/-- One round of the loop over the shards that are with none of the groups. The
loop ranges over a copy of the array. -/
def assignShard (shards : Tshid → Tgid) (r : Rebalancing) (s : Tshid) : Rebalancing :=
  if shards s ∈ r.cfg.groups then r else r.write s (least r.cfg)

def assignUnassigned (r : Rebalancing) : Rebalancing :=
  (List.finRange NShards).foldl (assignShard r.cfg.shards) r

/-- One round of the loop that moves shards, `none` where it is left. -/
def moveShard (r : Rebalancing) : Option Rebalancing :=
  let a := analyze r.cfg
  if a.mn < a.ln + 2 then none
  else
    match (List.finRange NShards).find? fun s => r.cfg.shards s = a.mg with
    | some s => some (r.write s a.lg)
    | none => some r

end Rebalancing

/-- `Rebalance`, with at most `fuel` rounds of its last loop. -/
def ShardConfig.rebalance (fuel : ℕ) (c : ShardConfig) : Option Rebalancing :=
  if c.groups.keys.card < 1 then some (Rebalancing.unassignAll ⟨c, []⟩)
  else loop Rebalancing.moveShard fuel (Rebalancing.assignUnassigned ⟨c, []⟩)

namespace ShardConfig

/-- Why a call ends the process. Which of the servers and groups the text
names depends on the order of a map. -/
inductive Fatal
  | serverTwice (gid : Tgid)
  | joinNoChange
  | leaveNoChange
  deriving DecidableEq

inductive Outcome
  | returned (ok : Bool) (cfg : ShardConfig)
  | fatal (cause : Fatal)
  deriving DecidableEq

/-- The entries of the argument of `Join`, in the order of the loop over them. -/
abbrev Servers := List (Tgid × List GoString)

/-- The loop of `Join` and what follows it. -/
def joinLoop : Servers → Bool → ShardConfig → Outcome
  | [], changed, cfg =>
      if changed = false then .fatal .joinNoChange
      else .returned true { cfg with num := cfg.num.addOne }
  | (gid, servers) :: rest, _, cfg =>
      if gid ∈ cfg.groups then .returned false cfg
      else if ∃ xgid ∈ cfg.groups.keys, ∃ s1 ∈ cfg.servers xgid, s1 ∈ servers then
        .fatal (.serverTwice gid)
      else joinLoop rest true { cfg with groups := cfg.groups.insert gid servers }

def join (cfg : ShardConfig) (servers : Servers) : Outcome := joinLoop servers false cfg

/-- The loop of `Leave` and what follows it. -/
def leaveLoop : List Tgid → Bool → ShardConfig → Outcome
  | [], changed, cfg =>
      if changed = false then .fatal .leaveNoChange
      else .returned true { cfg with num := cfg.num.addOne }
  | gid :: gids, _, cfg =>
      if gid ∉ cfg.groups then .returned false cfg
      else leaveLoop gids true { cfg with groups := cfg.groups.erase gid }

def leave (cfg : ShardConfig) (gids : List Tgid) : Outcome := leaveLoop gids false cfg

/-- `Rebalance` after a call that returned true. -/
def thenRebalance (fuel : ℕ) : Outcome → Option Outcome
  | .returned true cfg => (cfg.rebalance fuel).map fun r => .returned true r.cfg
  | outcome => some outcome

def joinBalance (fuel : ℕ) (cfg : ShardConfig) (servers : Servers) : Option Outcome :=
  thenRebalance fuel (cfg.join servers)

def leaveBalance (fuel : ℕ) (cfg : ShardConfig) (gids : List Tgid) : Option Outcome :=
  thenRebalance fuel (cfg.leave gids)

end ShardConfig

/-! ### What the loops find -/

namespace ShardConfig

open Balance

theorem counts_fold (shards : Tshid → Tgid) (l : List Tshid) (f : Tgid → ℤ) (g : Tgid) :
    l.foldl (fun counts s => Function.update counts (shards s) (counts (shards s) + 1)) f g =
      f g + l.countP (shards · = g) := by
  induction l generalizing f with
  | nil => simp
  | cons s l ih =>
      rw [List.foldl_cons, ih, List.countP_cons]
      by_cases hs : shards s = g
      · simp [hs]
        ring
      · simp [hs, Function.update_of_ne (Ne.symm hs)]

theorem counts_eq (c : ShardConfig) (g : Tgid) : c.counts g = load c.shards g := by
  rw [counts, counts_fold, zero_add, load, List.countP_eq_length_filter]
  rfl

/-- The analysis of the groups `l`, in the order in which they were visited. -/
structure Analysis.Of (counts : Tgid → ℤ) (l : List Tgid) (a : Analysis) : Prop where
  least : a.ln = 257 ∧ l = [] ∨ a.ln = counts a.lg ∧ a.lg ∈ l
  most : a.mn = -1 ∧ l = [] ∨ a.mn = counts a.mg ∧ a.mg ∈ l
  ln_le : ∀ g ∈ l, a.ln ≤ counts g
  le_mn : ∀ g ∈ l, counts g ≤ a.mn

theorem Analysis.Of.visit {counts : Tgid → ℤ} {l : List Tgid} {a : Analysis}
    (h : Analysis.Of counts l a) {g : Tgid} (hlow : -1 < counts g) (hhigh : counts g < 257) :
    Analysis.Of counts (l ++ [g]) (a.visit counts g) := by
  obtain ⟨hleast, hmost, hln, hmn⟩ := h
  constructor <;> grind [Analysis.visit]

theorem analyze_of (c : ShardConfig) :
    Analysis.Of c.counts (c.groups.keys.sort (· ≤ ·)) c.analyze := by
  rw [analyze]
  generalize c.groups.keys.sort (· ≤ ·) = l
  induction l using List.reverseRecOn with
  | nil => constructor <;> simp
  | append_singleton l g ih =>
      rw [List.foldl_append]
      have hcard : load c.shards g ≤ 12 := load_le_card c.shards g
      refine ih.visit ?_ ?_
      · rw [counts_eq]
        omega
      · rw [counts_eq]
        omega

section Groups

variable {c : ShardConfig} (h : c.groups.keys.Nonempty)

include h

theorem sort_ne_nil : c.groups.keys.sort (· ≤ ·) ≠ [] := by
  obtain ⟨g, hg⟩ := h
  exact List.ne_nil_of_mem ((Finset.mem_sort _).mpr hg)

theorem analyze_ln : c.analyze.ln = load c.shards c.analyze.lg := by
  obtain ⟨-, hnil⟩ | ⟨hln, -⟩ := c.analyze_of.least
  · exact absurd hnil (sort_ne_nil h)
  · rw [hln, counts_eq]

theorem analyze_mn : c.analyze.mn = load c.shards c.analyze.mg := by
  obtain ⟨-, hnil⟩ | ⟨hmn, -⟩ := c.analyze_of.most
  · exact absurd hnil (sort_ne_nil h)
  · rw [hmn, counts_eq]

theorem analyze_least : Least c.groups.keys c.shards c.analyze.lg := by
  obtain ⟨-, hnil⟩ | ⟨-, hmem⟩ := c.analyze_of.least
  · exact absurd hnil (sort_ne_nil h)
  · refine ⟨(Finset.mem_sort _).mp hmem, fun g hg => ?_⟩
    have hle := c.analyze_of.ln_le g ((Finset.mem_sort _).mpr hg)
    rw [analyze_ln h, counts_eq] at hle
    exact_mod_cast hle

theorem analyze_most : Most c.groups.keys c.shards c.analyze.mg := by
  obtain ⟨-, hnil⟩ | ⟨-, hmem⟩ := c.analyze_of.most
  · exact absurd hnil (sort_ne_nil h)
  · refine ⟨(Finset.mem_sort _).mp hmem, fun g hg => ?_⟩
    have hle := c.analyze_of.le_mn g ((Finset.mem_sort _).mpr hg)
    rw [analyze_mn h, counts_eq] at hle
    exact_mod_cast hle

end Groups

/-- What `CheckConfig` asks of the shards. -/
def Balanced (c : ShardConfig) : Prop :=
  if c.groups.keys = ∅ then ∀ s, c.shards s = 0
  else Valid c.groups.keys c.shards ∧ Even c.groups.keys c.shards

end ShardConfig

/-! ### A run of `Rebalance` -/

namespace Rebalancing

open Balance

/-- `Rebalance` of `c`, under way. -/
structure Of (c : ShardConfig) (r : Rebalancing) : Prop where
  num : r.cfg.num = c.num
  groups : r.cfg.groups = c.groups
  writes : Inv c.groups.keys c.shards r.cfg.shards r.written

variable {c : ShardConfig} {r r' : Rebalancing}

theorem Of.start (c : ShardConfig) : Of c ⟨c, []⟩ := ⟨rfl, rfl, .start _⟩

@[simp] theorem shards_write (r : Rebalancing) (s : Tshid) (g : Tgid) :
    (r.write s g).cfg.shards = Function.update r.cfg.shards s g := rfl

theorem Of.analyze (hr : Of c r) (h : c.groups.keys.Nonempty) :
    Least c.groups.keys r.cfg.shards r.cfg.analyze.lg ∧
      Most c.groups.keys r.cfg.shards r.cfg.analyze.mg ∧
      r.cfg.analyze.ln = load r.cfg.shards r.cfg.analyze.lg ∧
      r.cfg.analyze.mn = load r.cfg.shards r.cfg.analyze.mg := by
  rw [← hr.groups] at h ⊢
  exact ⟨analyze_least h, analyze_most h, analyze_ln h, analyze_mn h⟩

theorem Of.assignShard (hr : Of c r) (h : c.groups.keys.Nonempty) {s : Tshid}
    (hs : r.cfg.shards s = c.shards s) : Of c (r.assignShard c.shards s) := by
  rw [Rebalancing.assignShard, hr.groups]
  split
  · exact hr
  · rename_i hnot
    refine ⟨hr.num, hr.groups, hr.writes.fill ?_ (hr.analyze h).1⟩
    rw [hs, Finmap.mem_keys]
    exact hnot

theorem assignShard_of_ne (shards : Tshid → Tgid) (r : Rebalancing) {s t : Tshid} (h : t ≠ s) :
    (r.assignShard shards s).cfg.shards t = r.cfg.shards t := by
  rw [assignShard]
  split
  · rfl
  · exact Function.update_of_ne h ..

theorem Of.assignShard_placed (hr : Of c r) (h : c.groups.keys.Nonempty) {s : Tshid}
    (hs : r.cfg.shards s = c.shards s) :
    (r.assignShard c.shards s).cfg.shards s ∈ c.groups.keys := by
  rw [Rebalancing.assignShard, hr.groups]
  split
  · rename_i hmem
    rw [hs]
    exact Finmap.mem_keys.mpr hmem
  · rw [shards_write, Function.update_self]
    exact (hr.analyze h).1.mem

theorem Of.assign_foldl (h : c.groups.keys.Nonempty) {l : List Tshid} (hl : l.Nodup) (hr : Of c r)
    (hleft : ∀ s ∈ l, r.cfg.shards s = c.shards s)
    (hplaced : ∀ s, s ∉ l → r.cfg.shards s ∈ c.groups.keys) :
    Of c (l.foldl (Rebalancing.assignShard c.shards) r) ∧
      Valid c.groups.keys (l.foldl (Rebalancing.assignShard c.shards) r).cfg.shards := by
  induction l generalizing r with
  | nil => exact ⟨hr, fun s => hplaced s (by simp)⟩
  | cons s l ih =>
      obtain ⟨hs, hl⟩ := List.nodup_cons.mp hl
      have hnow := hleft s (by simp)
      refine ih hl (hr.assignShard h hnow) (fun t ht => ?_) fun t ht => ?_
      · have hts : t ≠ s := fun heq => hs (heq ▸ ht)
        rw [assignShard_of_ne _ _ hts]
        exact hleft t (by simp [ht])
      · by_cases hts : t = s
        · rw [hts]
          exact hr.assignShard_placed h hnow
        · rw [assignShard_of_ne _ _ hts]
          exact hplaced t (by simp [hts, ht])

theorem Of.assignUnassigned (h : c.groups.keys.Nonempty) :
    Of c (assignUnassigned ⟨c, []⟩) ∧
      Valid c.groups.keys (assignUnassigned ⟨c, []⟩).cfg.shards :=
  (Of.start c).assign_foldl h (List.nodup_finRange NShards) (fun _ _ => rfl) fun s hs =>
    absurd (List.mem_finRange s) hs

/-- A round of the last loop moves a shard, for the group it takes it from has
two or more. -/
theorem Of.moveShard (hr : Of c r) (h : c.groups.keys.Nonempty)
    (hvalid : Valid c.groups.keys r.cfg.shards) (hmove : r.moveShard = some r') :
    Of c r' ∧ Valid c.groups.keys r'.cfg.shards ∧ r'.written.length = r.written.length + 1 := by
  obtain ⟨hleast, hmost, hln, hmn⟩ := hr.analyze h
  simp only [Rebalancing.moveShard, hln, hmn] at hmove
  split at hmove
  · cases hmove
  · rename_i hgap
    split at hmove
    · rename_i s hfind
      have hs : r.cfg.shards s = r.cfg.analyze.mg := by simpa using List.find?_some hfind
      cases hmove
      refine ⟨⟨hr.num, hr.groups, ?_⟩, hvalid.update hleast.mem, by simp [write]⟩
      refine hr.writes.shift hvalid (hs ▸ hmost) hleast ?_
      rw [hs]
      omega
    · rename_i hfind
      have hnone : load r.cfg.shards r.cfg.analyze.mg = 0 := by
        rw [load, Finset.card_eq_zero, Finset.filter_eq_empty_iff]
        intro s _
        simpa using List.find?_eq_none.mp hfind s (List.mem_finRange s)
      omega

theorem Of.even_of_moveShard (hr : Of c r) (h : c.groups.keys.Nonempty)
    (hmove : r.moveShard = none) : Even c.groups.keys r.cfg.shards := by
  obtain ⟨hleast, hmost, hln, hmn⟩ := hr.analyze h
  simp only [Rebalancing.moveShard, hln, hmn] at hmove
  split at hmove
  · intro x hx y hy
    have := hmost.le x hx
    have := hleast.le y hy
    omega
  · split at hmove <;> cases hmove

theorem unassign_foldl (l : List Tshid) (r : Rebalancing) :
    (l.foldl (fun r s => r.write s 0) r).cfg =
      { r.cfg with shards := fun s => if s ∈ l then 0 else r.cfg.shards s } := by
  induction l generalizing r with
  | nil => simp
  | cons s l ih =>
      rw [List.foldl_cons, ih]
      simp only [write, List.mem_cons]
      congr 1
      ext t
      by_cases hts : t = s
      · simp [hts]
      · simp [hts]

theorem unassignAll_cfg (r : Rebalancing) :
    r.unassignAll.cfg = { r.cfg with shards := fun _ => 0 } := by
  rw [unassignAll, unassign_foldl]
  simp

end Rebalancing

namespace ShardConfig

open Balance Rebalancing

variable {c : ShardConfig}

theorem rebalance_of_empty (h : c.groups.keys = ∅) (n : ℕ) :
    c.rebalance n = some (unassignAll ⟨c, []⟩) := by
  rw [rebalance, if_pos (by simp [h])]

theorem rebalance_of_nonempty (h : c.groups.keys.Nonempty) (n : ℕ) :
    c.rebalance n = loop moveShard n (assignUnassigned ⟨c, []⟩) := by
  rw [rebalance, if_neg (by simpa using Finset.nonempty_iff_ne_empty.mp h)]

/-- With groups to balance over, one round of the last loop for each shard and
a last one suffice. -/
theorem rebalance_ends (h : c.groups.keys.Nonempty) :
    ∃ r, (∀ n, NShards < n → c.rebalance n = some r) ∧ Of c r ∧
      Valid c.groups.keys r.cfg.shards ∧ Even c.groups.keys r.cfg.shards := by
  have hround : ∀ r r', Of c r ∧ Valid c.groups.keys r.cfg.shards → moveShard r = some r' →
      (Of c r' ∧ Valid c.groups.keys r'.cfg.shards) ∧
        NShards - r'.written.length < NShards - r.written.length := by
    rintro r r' ⟨hr, hvalid⟩ hmove
    obtain ⟨hr', hvalid', hlength⟩ := hr.moveShard h hvalid hmove
    have hbound : r'.written.length ≤ NShards := by simpa using hr'.writes.nodup.length_le_card
    exact ⟨⟨hr', hvalid'⟩, by omega⟩
  obtain ⟨r, hrun, ⟨hr, hvalid⟩, hdone⟩ := Loop.ends _
    (fun r : Rebalancing => NShards - r.written.length) hround (Of.assignUnassigned h)
  refine ⟨r, fun n hn => ?_, hr, hvalid, hr.even_of_moveShard h hdone⟩
  rw [rebalance_of_nonempty h]
  exact hrun n (by omega)

theorem balanced_of_nonempty (h : c.groups.keys.Nonempty) :
    c.Balanced ↔ Valid c.groups.keys c.shards ∧ Even c.groups.keys c.shards := by
  rw [Balanced, if_neg (Finset.nonempty_iff_ne_empty.mp h)]

theorem rebalance_balanced (c : ShardConfig) :
    ∃ r, (∀ n, NShards < n → c.rebalance n = some r) ∧ r.cfg.Balanced ∧
      r.cfg.groups = c.groups ∧ r.cfg.num = c.num := by
  rcases c.groups.keys.eq_empty_or_nonempty with h | h
  · refine ⟨_, fun n _ => rebalance_of_empty h n, ?_⟩
    rw [unassignAll_cfg]
    simp [Balanced, h]
  · obtain ⟨r, hrun, hr, hvalid, heven⟩ := rebalance_ends h
    refine ⟨r, hrun, ?_, hr.groups, hr.num⟩
    rw [balanced_of_nonempty (by rwa [hr.groups]), hr.groups]
    exact ⟨hvalid, heven⟩

theorem rebalance_eq {n m : ℕ} {r r' : Rebalancing} (hr : c.rebalance n = some r)
    (hr' : c.rebalance m = some r') : r = r' := by
  rcases c.groups.keys.eq_empty_or_nonempty with h | h
  · rw [rebalance_of_empty h] at hr hr'
    exact Option.some.inj (hr.symm.trans hr')
  · rw [rebalance_of_nonempty h] at hr hr'
    have hn := Loop.mono (le_max_left n m) hr
    have hm := Loop.mono (le_max_right n m) hr'
    exact Option.some.inj (hn.symm.trans hm)

theorem Balanced.rebalance (h : c.Balanced) {n : ℕ} (hn : 0 < n) :
    ∃ r, c.rebalance n = some r ∧ r.cfg = c := by
  rcases c.groups.keys.eq_empty_or_nonempty with hkeys | hkeys
  · refine ⟨_, rebalance_of_empty hkeys n, ?_⟩
    rw [Balanced, if_pos hkeys] at h
    rw [unassignAll_cfg, ← funext h]
  · obtain ⟨hvalid, heven⟩ := (balanced_of_nonempty hkeys).mp h
    have hassign : assignUnassigned ⟨c, []⟩ = ⟨c, []⟩ :=
      List.foldl_fixed' (fun s => if_pos (Finmap.mem_keys.mp (hvalid s))) _
    have hmove : moveShard ⟨c, []⟩ = none := by
      have hgap := heven _ (analyze_most hkeys).mem _ (analyze_least hkeys).mem
      rw [moveShard, if_pos]
      simp only [analyze_ln hkeys, analyze_mn hkeys]
      omega
    obtain ⟨n, rfl⟩ := Nat.exists_eq_succ_of_ne_zero hn.ne'
    refine ⟨⟨c, []⟩, ?_, rfl⟩
    rw [rebalance_of_nonempty hkeys, hassign]
    exact Loop.succ_of_none hmove n

/-- A call of `JoinBalance` or `LeaveBalance` that returns true. -/
inductive Balances : ShardConfig → ShardConfig → Prop
  | join {cfg cfg' : ShardConfig} (fuel : ℕ) (servers : Servers)
      (h : cfg.joinBalance fuel servers = some (.returned true cfg')) : Balances cfg cfg'
  | leave {cfg cfg' : ShardConfig} (fuel : ℕ) (gids : List Tgid)
      (h : cfg.leaveBalance fuel gids = some (.returned true cfg')) : Balances cfg cfg'

theorem balanced_of_thenRebalance {fuel : ℕ} {outcome : Outcome} {c' : ShardConfig}
    (h : thenRebalance fuel outcome = some (.returned true c')) : c'.Balanced := by
  cases outcome with
  | fatal cause => cases h
  | returned ok c =>
      cases ok with
      | false => cases h
      | true =>
          obtain ⟨r, hr, heq⟩ := Option.map_eq_some_iff.mp h
          obtain ⟨r', hr', hbalanced, -⟩ := c.rebalance_balanced
          cases heq
          rw [rebalance_eq hr (hr' _ NShards.lt_succ_self)]
          exact hbalanced

theorem Balances.balanced {c c' : ShardConfig} (h : Balances c c') : c'.Balanced := by
  cases h with
  | join fuel servers h => exact balanced_of_thenRebalance h
  | leave fuel gids h => exact balanced_of_thenRebalance h

end ShardConfig

open ShardConfig in
/-- `Rebalance` ends with every shard in a group and loads that differ by at
most one, or with no shard in any group where there is none, and a second
`Rebalance` changes nothing. So every sequence of calls that change the groups
and balance ends in such a configuration. -/
theorem rebalance_valid (c : ShardConfig) :
    (∃ r, (∀ n, NShards < n → c.rebalance n = some r) ∧
      (if c.groups.keys = ∅ then ∀ s, r.cfg.shards s = 0
        else Balance.Valid c.groups.keys r.cfg.shards ∧ Balance.Even c.groups.keys r.cfg.shards) ∧
      r.cfg.groups = c.groups ∧ r.cfg.num = c.num ∧
      ∃ r', (∀ n, NShards < n → r.cfg.rebalance n = some r') ∧ r'.cfg = r.cfg) ∧
    ∀ c', Relation.TransGen Balances c c' → c'.Balanced := by
  obtain ⟨r, hrun, hbalanced, hgroups, hnum⟩ := c.rebalance_balanced
  refine ⟨⟨r, hrun, ?_, hgroups, hnum, ?_⟩, fun c' hcalls => ?_⟩
  · rw [← hgroups]
    exact hbalanced
  · obtain ⟨r', hrun', -⟩ := r.cfg.rebalance_balanced
    obtain ⟨r'', hrun'', hsame⟩ :=
      hbalanced.rebalance (NShards.zero_le.trans_lt NShards.lt_succ_self)
    refine ⟨r', hrun', ?_⟩
    rw [rebalance_eq (hrun' _ NShards.lt_succ_self) hrun'']
    exact hsame
  · obtain ⟨_, -, hlast⟩ := Relation.TransGen.tail'_iff.mp hcalls
    exact hlast.balanced

open ShardConfig Balance in
/-- Among the assignments of the shards to the groups with loads that differ by
at most one, `Rebalance` ends with one that moves the fewest shards away from a
group that stays, and it writes no shard twice. -/
theorem rebalance_minimal (c : ShardConfig) (h : c.groups.keys.Nonempty) :
    ∃ r, (∀ n, NShards < n → c.rebalance n = some r) ∧
      IsLeast {k | ∃ f : Tshid → Tgid, Valid c.groups.keys f ∧ Even c.groups.keys f ∧
        k = (moved c.groups.keys c.shards f).card}
        (moved c.groups.keys c.shards r.cfg.shards).card ∧
      r.written.Nodup ∧ ∀ s, r.cfg.shards s ≠ c.shards s → s ∈ r.written := by
  obtain ⟨r, hrun, hr, hvalid, heven⟩ := rebalance_ends h
  refine ⟨r, hrun, ⟨⟨_, hvalid, heven, rfl⟩, ?_⟩, hr.writes.nodup, fun s hs => ?_⟩
  · rintro _ ⟨f, hfvalid, hfeven, rfl⟩
    exact hr.writes.card_moved_le hvalid heven hfvalid hfeven
  · by_contra hnot
    exact hs (hr.writes.kept s hnot)

/-- Ten shards with group 1 and two with a group that left; group 2 is new. -/
def joiningConfig : ShardConfig where
  num := 3
  shards s := if s.val < 10 then 1 else 7
  groups := List.toFinmap [⟨1, []⟩, ⟨2, []⟩]

open ShardConfig Balance in
theorem rebalance_minimal_joiningConfig :
    ∃ r, (∀ n, NShards < n → joiningConfig.rebalance n = some r) ∧
      IsLeast {k | ∃ f : Tshid → Tgid, Valid joiningConfig.groups.keys f ∧
        Even joiningConfig.groups.keys f ∧
        k = (moved joiningConfig.groups.keys joiningConfig.shards f).card}
        (moved joiningConfig.groups.keys joiningConfig.shards r.cfg.shards).card ∧
      r.written.Nodup ∧ ∀ s, r.cfg.shards s ≠ joiningConfig.shards s → s ∈ r.written :=
  rebalance_minimal joiningConfig ⟨1, Finmap.mem_keys.mpr (by decide +kernel)⟩

/-! ### Calls that fail -/

namespace ShardConfig

/-- A call that changes the groups. -/
inductive Call
  | join (servers : Servers)
  | leave (gids : List Tgid)
  | joinBalance (servers : Servers)
  | leaveBalance (gids : List Tgid)

def Call.run (fuel : ℕ) (cfg : ShardConfig) : Call → Option Outcome
  | join servers => some (cfg.join servers)
  | leave gids => some (cfg.leave gids)
  | joinBalance servers => cfg.joinBalance fuel servers
  | leaveBalance gids => cfg.leaveBalance fuel gids

/-- The first group that the call looks at is refused. -/
def Call.RefusedFirst (cfg : ShardConfig) : Call → Prop
  | join servers | joinBalance servers => ∃ entry ∈ servers.head?, entry.1 ∈ cfg.groups
  | leave gids | leaveBalance gids => ∃ gid ∈ gids.head?, gid ∉ cfg.groups

variable {c c' : ShardConfig}

theorem joinLoop_false {servers : Servers} {changed : Bool}
    (h : joinLoop servers changed c = .returned false c') :
    c'.num = c.num ∧ c'.shards = c.shards ∧ ∀ g ∈ c.groups, g ∈ c'.groups := by
  induction servers generalizing changed c with
  | nil =>
      rw [joinLoop] at h
      split at h <;> cases h
  | cons entry servers ih =>
      rw [joinLoop] at h
      split at h
      · cases h
        exact ⟨rfl, rfl, fun _ hg => hg⟩
      · split at h
        · cases h
        · obtain ⟨hnum, hshards, hgroups⟩ := ih h
          exact ⟨hnum, hshards, fun g hg => hgroups g (Finmap.mem_insert.mpr (Or.inr hg))⟩

theorem join_false {servers : Servers} (h : c.join servers = .returned false c') :
    c'.num = c.num ∧ c'.shards = c.shards ∧
      (c' = c ↔ ∃ entry ∈ servers.head?, entry.1 ∈ c.groups) := by
  obtain ⟨hnum, hshards, -⟩ := joinLoop_false h
  refine ⟨hnum, hshards, ?_⟩
  cases servers with
  | nil => cases h
  | cons entry servers =>
      rw [join, joinLoop] at h
      split at h
      · rename_i hmem
        cases h
        simpa using hmem
      · rename_i hnot
        split at h
        · cases h
        · obtain ⟨-, -, hkept⟩ := joinLoop_false h
          have hadded : entry.1 ∈ c'.groups := hkept _ (Finmap.mem_insert.mpr (Or.inl rfl))
          constructor
          · rintro rfl
            exact absurd hadded hnot
          · rintro ⟨e, he, hmem⟩
            cases he
            exact absurd hmem hnot

theorem leaveLoop_false {gids : List Tgid} {changed : Bool}
    (h : leaveLoop gids changed c = .returned false c') :
    c'.num = c.num ∧ c'.shards = c.shards ∧ ∀ g ∈ c'.groups, g ∈ c.groups := by
  induction gids generalizing changed c with
  | nil =>
      rw [leaveLoop] at h
      split at h <;> cases h
  | cons gid gids ih =>
      rw [leaveLoop] at h
      split at h
      · cases h
        exact ⟨rfl, rfl, fun _ hg => hg⟩
      · obtain ⟨hnum, hshards, hgroups⟩ := ih h
        exact ⟨hnum, hshards, fun g hg => (Finmap.mem_erase.mp (hgroups g hg)).2⟩

theorem leave_false {gids : List Tgid} (h : c.leave gids = .returned false c') :
    c'.num = c.num ∧ c'.shards = c.shards ∧ (c' = c ↔ ∃ gid ∈ gids.head?, gid ∉ c.groups) := by
  obtain ⟨hnum, hshards, -⟩ := leaveLoop_false h
  refine ⟨hnum, hshards, ?_⟩
  cases gids with
  | nil => cases h
  | cons gid gids =>
      rw [leave, leaveLoop] at h
      split at h
      · rename_i hnot
        cases h
        simpa using hnot
      · rename_i hmem
        rw [not_not] at hmem
        obtain ⟨-, -, hkept⟩ := leaveLoop_false h
        have hdeleted : gid ∉ c'.groups := fun hg => (Finmap.mem_erase.mp (hkept _ hg)).1 rfl
        constructor
        · rintro rfl
          exact absurd hmem hdeleted
        · rintro ⟨g, hg, hnot⟩
          cases hg
          exact absurd hmem hnot

theorem thenRebalance_false {fuel : ℕ} {outcome : Outcome}
    (h : thenRebalance fuel outcome = some (.returned false c')) :
    outcome = .returned false c' := by
  cases outcome with
  | fatal cause => cases h
  | returned ok c =>
      cases ok with
      | false => exact Option.some.inj h
      | true =>
          obtain ⟨r, -, heq⟩ := Option.map_eq_some_iff.mp h
          cases heq

end ShardConfig

open ShardConfig in
/-- A call that returns false leaves the number and the shards as they were. It
leaves the groups as they were exactly if it was refused at the first group
that it looked at; otherwise the groups before the refused one have been added
or deleted. -/
theorem failed_call_unchanged_iff (c c' : ShardConfig) (call : ShardConfig.Call) (fuel : ℕ)
    (h : call.run fuel c = some (.returned false c')) :
    c'.num = c.num ∧ c'.shards = c.shards ∧ (c' = c ↔ call.RefusedFirst c) := by
  cases call with
  | join servers => exact join_false (Option.some.inj h)
  | leave gids => exact leave_false (Option.some.inj h)
  | joinBalance servers => exact join_false (thenRebalance_false h)
  | leaveBalance gids => exact leave_false (thenRebalance_false h)

open ShardConfig in
theorem failed_call_unchanged_iff_rejoin :
    ∃ c', (ShardConfig.Call.join [(1, [])]).run 0 joiningConfig = some (.returned false c') ∧
      c'.num = joiningConfig.num ∧ c'.shards = joiningConfig.shards ∧
      (c' = joiningConfig ↔ (ShardConfig.Call.join [(1, [])]).RefusedFirst joiningConfig) := by
  have hrun : (ShardConfig.Call.join [(1, [])]).run 0 joiningConfig =
      some (.returned false joiningConfig) := by decide +kernel
  exact ⟨_, hrun, failed_call_unchanged_iff _ _ _ _ hrun⟩

open ShardConfig in
/-- Group 1 is deleted, then the call fails at group 3; group 3 is added, then
the call fails at group 1. -/
theorem failed_call_changes_groups :
    (∃ c', (ShardConfig.Call.leaveBalance [1, 3]).run 0 joiningConfig = some (.returned false c') ∧
      1 ∈ joiningConfig.groups ∧ 1 ∉ c'.groups) ∧
    ∃ c', (ShardConfig.Call.joinBalance [(3, []), (1, [])]).run 0 joiningConfig =
        some (.returned false c') ∧
      3 ∉ joiningConfig.groups ∧ 3 ∈ c'.groups := by
  refine ⟨⟨{ joiningConfig with groups := joiningConfig.groups.erase 1 }, ?_⟩,
    ⟨{ joiningConfig with groups := joiningConfig.groups.insert 3 [] }, ?_⟩⟩
  · decide +kernel
  · decide +kernel

end RaftShardedKv
