import Mathlib.Data.UInt
import RaftShardedKv.Kv.Oracle
import RaftShardedKv.Kvraft.Linearizable
import RaftShardedKv.Shard.Refinement

/-!
What the tests say about the replicated services: where every call has
returned and the clients have named versions that they were shown, the
log is legal.
-/

namespace RaftShardedKv

open Linearizability Oracle Shardkv

namespace Shardkv

def input : KvOp → KvInput Tversion
  | .get key => getInput key
  | .put key value version => putInput key value version

def output : KvRes → KvOutput Tversion
  | .get reply => ⟨reply.value, reply.version, reply.err⟩
  | .put err => putOutput err

/-- The calls and returns as the tests note them. -/
def seen (h : List (Event CallID KvOp KvRes)) :
    List (Event CallID (KvInput Tversion) (KvOutput Tversion)) :=
  h.map (Event.map input output)

def cellState (m : GoString → Option ValueEntry) (key : GoString) : Option (KvState Tversion) :=
  (m key).map fun entry => ⟨entry.value, entry.version⟩

theorem told_seen (h : List (Event CallID KvOp KvRes)) :
    List.Forall₂ (Event.Told input fun r out => out = output r) h (seen h) := by
  induction h with
  | nil => exact .nil
  | cons e h ih =>
      refine .cons ?_ ih
      cases e with
      | invoke i op => exact .invoke i op
      | ret i r => exact .ret i rfl

theorem kvSpec_versionedMap :
    VersionedMap kvSpec input (fun r out => out = output r) cellState where
  tells r := ⟨output r, rfl⟩
  init key := rfl
  other m op key hne := by
    cases op with
    | get key' => rfl
    | put key' value version =>
        have hset : ∀ entry, cellState (Function.update m key' entry) key = cellState m key :=
          fun entry => congrArg _ (Function.update_of_ne (Ne.symm hne) _ _)
        simp only [kvSpec]
        cases m key' with
        | none =>
            dsimp only
            split
            · exact hset _
            · rfl
        | some entry =>
            dsimp only
            split
            · exact hset _
            · rfl
  get m op out hop hout := by
    cases op with
    | get key =>
        subst hout
        refine ⟨rfl, ?_, fun herr => ?_⟩
        · simp only [kvSpec, output, cellState, input, getInput]
          cases m key <;> rfl
        · simp only [kvSpec, output, cellState, input, getInput] at herr ⊢
          cases hm : m key with
          | none => simp [hm] at herr
          | some entry => simp
    | put key value version => cases hop
  put m op out hop hout := by
    cases op with
    | get key => exact absurd rfl hop
    | put key value version =>
        refine ⟨rfl, ?_⟩
        subst hout
        have hset : ∀ entry, cellState (Function.update m key (some entry)) key =
            some ⟨entry.value, entry.version⟩ :=
          fun entry => congrArg _ (Function.update_self _ _ _)
        simp only [kvSpec, input, putInput]
        cases hm : m key with
        | none =>
            by_cases hzero : version = 0
            · simp_all [cellState, output, putOutput]
            · simp_all [cellState, output, putOutput]
        | some entry =>
            by_cases hversion : version = entry.version
            · simp_all [cellState, output, putOutput]
            · simp_all [cellState, output, putOutput, Ne.symm hversion]

theorem legal_of_trace {t : List (Event CallID KvOp KvRes ⊕ (CallID × KvOp × KvRes))}
    (ht : Trace kvSpec t) (hc : Complete (history t)) (hi : Informed (seen (history t))) :
    Legal (operations (seen (history t))) :=
  kvSpec_versionedMap.legal (told_seen _) ht.wellFormed hc ht.linearizable hi

section

variable {n : Tgid → ℕ} {Ctl Ck : Type} [DecidableEq Ctl] [DecidableEq Ck] [ShardGob]
  [∀ gid, Labgob (Op (n gid) Request)]

/-- **The deployed service passes the tests.** -/
theorem deployment_legal (ctl : Ctl ↪ GoString) (clientID : Ck ↪ {id : ℕ // id ≠ 0})
    (epoch : ∀ gid, Fin (n gid) → ℕ) {s : Deployment n Ctl Ck}
    (hs : (deploymentSys .assigned ctl clientID epoch).Reachable s)
    (hc : Complete s.clerks.history) (hi : Informed (seen s.clerks.history)) :
    Legal (operations (seen s.clerks.history)) := by
  obtain ⟨t, ht, hhistory⟩ := exists_trace ctl clientID epoch hs
  rw [← hhistory] at hc hi ⊢
  exact legal_of_trace ht hc hi

end

/-- The history of `movedClusters`. -/
def moveHistory : List (Event CallID KvOp KvRes) :=
  [.invoke (.put 0) (.put [13] [7] 0), .ret (.put 0) (.put .ok), .invoke (.get 0) (.get [13]),
    .ret (.get 0) (.get ⟨[7], 1, .ok⟩)]

theorem moveHistory_complete : Complete moveHistory := by
  intro i op hop
  have hcall : i = .put 0 ∨ i = .get 0 := by
    simp [moveHistory] at hop
    tauto
  rcases hcall with rfl | rfl
  · exact ⟨.put .ok, by decide⟩
  · exact ⟨.get ⟨[7], 1, .ok⟩, by decide⟩

theorem moveHistory_informed : Informed (seen moveHistory) := by
  intro k i inp hk hop hversion
  have hlt := (List.getElem?_eq_some_iff.mp hk).1
  simp only [seen, moveHistory, List.map_cons, List.map_nil, List.length_cons,
    List.length_nil] at hlt
  -- the only `Put` names version 0
  interval_cases k <;> cases hk
  · exact absurd rfl hversion
  · cases hop

theorem deployment_legal_move :
    let _ : ShardGob := someShardGob
    let _ : Labgob (Op 1 Request) := someShardLabgob
    movedClusters.clerks.history = moveHistory ∧
      Legal (operations (seen movedClusters.clerks.history)) := by
  intro _ _
  have hhistory : movedClusters.clerks.history = moveHistory := by decide +kernel
  exact ⟨hhistory, deployment_legal sampleIds sampleClients _ reachable_movedClusters
    (by rw [hhistory]; exact moveHistory_complete) (by rw [hhistory]; exact moveHistory_informed)⟩

end Shardkv

namespace Kvraft

variable {n : ℕ} {Ck : Type} [DecidableEq Ck] [Gob] [Labgob (Op n Request)]

theorem kvraft_legal {servers : Ck → List (Fin n)} {clientID : Ck ↪ {id : ℕ // id ≠ 0}}
    {epoch : Fin n → ℕ} {s : KvService n Ck}
    (hs : (kvServiceSys servers clientID epoch).Reachable s) (hc : Complete s.history)
    (hi : Informed (seen s.history)) : Legal (operations (seen s.history)) := by
  obtain ⟨-, t, h⟩ := KvServiceInv.reachable hs
  rw [← h.history] at hc hi ⊢
  exact legal_of_trace h.trace hc hi

end Kvraft

end RaftShardedKv
