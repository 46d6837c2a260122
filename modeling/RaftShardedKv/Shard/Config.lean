import Mathlib.Data.Finmap
import RaftShardedKv.Kv.Dedup

/-!
Configurations, from `shardkv1/shardcfg/shardcfg.go`, and the record that
the controllers keep of them, from `shardkv1/shardctrler/shardctrler.go`.

Group 0 stands for no group. `Copy` copies, so it is not in the model;
the map of groups is a finite map, and `reflect.DeepEqual` is equality.
Numbers of configurations and of groups are the values of an `int` of 64
bits; the one sum that the code makes of them wraps around.
-/

namespace RaftShardedKv

def NShards : ℕ := 12

abbrev Tshid := Fin NShards

abbrev Tnum := ℤ

abbrev Tgid := ℤ

/-- `math.MaxInt64` -/
def maxInt : ℤ := 9223372036854775807

/-- `math.MinInt64` -/
def minInt : ℤ := -9223372036854775808

/-- `num + 1` -/
def Tnum.addOne (num : Tnum) : Tnum := if num = maxInt then minInt else num + 1

theorem Tnum.addOne_eq {num : Tnum} (h : num ≠ maxInt) : num.addOne = num + 1 := if_neg h

theorem Tnum.addOne_cases (num : Tnum) : num.addOne = num + 1 ∨ num.addOne = num + 1 - 2 ^ 64 := by
  rw [Tnum.addOne]
  split
  · rename_i h
    exact Or.inr (h ▸ by decide)
  · exact Or.inl rfl

theorem Tnum.addOne_ne (num : Tnum) : num.addOne ≠ num := by
  rcases num.addOne_cases with h | h <;> rw [h] <;> lia

def NumFirst : Tnum := 1

def Gid1 : Tgid := 1

def key2Shard (key : GoString) : Tshid :=
  ⟨(fnv32a key).toNat % NShards, Nat.mod_lt _ (by decide)⟩

structure ShardConfig where
  num : Tnum
  shards : Tshid → Tgid
  groups : Finmap fun _ : Tgid => List GoString
  deriving DecidableEq

namespace ShardConfig

/-- The servers of a group, none where the configuration has none. -/
def servers (cfg : ShardConfig) (gid : Tgid) : List GoString := (cfg.groups.lookup gid).getD []

/-- Every shard is with a group. -/
def Assigned (cfg : ShardConfig) : Prop := ∀ s, cfg.shards s ≠ 0

/-- The configuration that the groups start with. -/
def First (cfg : ShardConfig) : Prop := cfg.num = NumFirst ∧ ∀ s, cfg.shards s = Gid1

end ShardConfig

/-- `From` and `To` of a migration. -/
structure MigrationRecord where
  fromConfig : ShardConfig
  toConfig : ShardConfig
  deriving DecidableEq

structure ControllerState where
  owner : GoString
  epoch : ℕ
  current : ShardConfig
  pending : Option MigrationRecord
  deriving DecidableEq

end RaftShardedKv
