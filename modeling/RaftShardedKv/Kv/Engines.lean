import RaftShardedKv.Kvraft.Linearizable
import RaftShardedKv.Kvsrv.System
import RaftShardedKv.Shard.Linearizable

/-!
Three key/value engines side by side: the single server, the state machine of
the replicated service, and groups of the sharded service among which the
shards are moved while requests come in.

Each of them does to what it holds what the versioned map `kvSpec` does, so
they give the same replies and hold the same keys. The first counts versions
in natural numbers, which is the same as long as no version has reached the
largest word. A shard is handed from one group to another in three operations,
and requests to the other shards may come between any two of them.
-/

namespace RaftShardedKv.Engine

open Dedup Shardkv Transition

/-! ### Requests and replies -/

/-- The request of a client that does not number its requests. -/
def Unnumbered : Kvraft.Request → Prop
  | .get _ => True
  | .put args => args.clientID = 0

def key : Kvraft.Request → GoString
  | .get args => args.key
  | .put args => args.key

def op : Kvraft.Request → KvOp
  | .get args => .get args.key
  | .put args => .put args.key args.value args.version

/-- The request as the single server has it. -/
def toSingle : Kvraft.Request → Kvsrv.Request
  | .get args => .get args.key
  | .put args => .put args.key args.value args.version.toNat

/-- The request as a shard group has it. -/
def toGroup : Kvraft.Request → Request
  | .get args => .get args
  | .put args => .put args

def ofRes : KvRes → Kvsrv.Reply
  | .get reply => .get ⟨reply.value, reply.version.toNat, reply.err⟩
  | .put err => .put err

def ofRaft : Kvraft.Reply → Kvsrv.Reply
  | .get reply => .get ⟨reply.value, reply.version.toNat, reply.err⟩
  | .put reply => .put reply.err

def ofGroup : Reply → Option Kvsrv.Reply
  | .get reply => some (.get ⟨reply.value, reply.version.toNat, reply.err⟩)
  | .put reply => some (.put reply.err)
  | _ => none

/-! ### The engines -/

structure Engines where
  single : Kvsrv.KVServer
  raft : Kvraft.KVServer
  groups : Tgid → KVServer
  /-- The shards that are frozen in one group and not yet installed in another,
  with the number and the data the group gave. -/
  pending : Tshid → Option (Tnum × TransferData)

inductive Event
  /-- A request, executed at this group. -/
  | request (req : Kvraft.Request) (gid : Tgid)
  | freeze (shard : Tshid) (gid : Tgid) (num : Tnum)
  | install (shard : Tshid) (gid : Tgid)
  | delete (shard : Tshid) (gid : Tgid) (num : Tnum)

namespace Engines

def init : Engines := ⟨.make, .start, KVServer.start, fun _ => none⟩

def setGroup (e : Engines) (gid : Tgid) (kv : KVServer) : Engines :=
  { e with groups := Function.update e.groups gid kv }

def setPending (e : Engines) (shard : Tshid) (p : Option (Tnum × TransferData)) : Engines :=
  { e with pending := Function.update e.pending shard p }

/-- One event. A request is executed at a group that serves its shard. A shard
is frozen with a number above the one the group has for it, which numbers that
increase are; what the group then gives is installed with the same number, and
until then the frozen copy is not deleted. -/
def step (e : Engines) : Event → Option Engines
  | .request req gid =>
      if (e.groups gid (key2Shard (key req))).status = .shardServing then do
        let (kv, _) ← (e.groups gid).doOp (toGroup req)
        some { e.setGroup gid kv with
          single := (e.single.handle (toSingle req)).1
          raft := (e.raft.doOp req).1 }
      else none
  | .freeze shard gid num =>
      if (e.groups gid shard).configNum < num then do
        let (kv, reply) ← (e.groups gid).doOp (.freezeShard shard num)
        match reply with
        | .freezeShard data num .ok =>
            some ((e.setGroup gid kv).setPending shard (some (num, data)))
        | _ => some (e.setGroup gid kv)
      else none
  | .install shard gid => do
      let (num, data) ← e.pending shard
      let (kv, reply) ← (e.groups gid).doOp (.installShard shard data num)
      match reply with
      | .installShard .ok => some ((e.setGroup gid kv).setPending shard none)
      | _ => some (e.setGroup gid kv)
  | .delete shard gid num =>
      if (e.pending shard).map Prod.fst = some num then none
      else do
        let (kv, _) ← (e.groups gid).doOp (.deleteShard shard num)
        some (e.setGroup gid kv)

/-- No version counter is at `2 ^ 64 - 1`. -/
def Below (e : Engines) : Prop :=
  ∀ key item, e.single.data key = some item → item.version ≠ 2 ^ 64 - 1

end Engines

def Event.Unnumbered : Event → Prop
  | .request req _ => Engine.Unnumbered req
  | _ => True

/-- The runs in which no version counter is at `2 ^ 64 - 1` when an event
comes. -/
def engineSys : Sys Engines Event where
  init e := e = .init
  step e a e' := e.Below ∧ a.Unnumbered ∧ e.step a = some e'

/-- That the engines stand for the same map. -/
structure Agree (e : Engines) : Prop where
  raft : ∀ key, (e.raft.values.get key).map (fun entry => (entry.value, entry.version.toNat)) =
    (e.single.data key).map fun item => (item.value, item.version)
  /-- A group that serves a shard has its keys, and no others. -/
  groups : ∀ gid shard, (e.groups gid shard).status = .shardServing → ∀ key,
    ((e.groups gid shard).values.get key).map (fun entry => (entry.value, entry.version.toNat)) =
      if key2Shard key = shard then (e.single.data key).map fun item => (item.value, item.version)
      else none
  /-- One group serves the shard, or none while it is on its way. -/
  serving : ∀ shard, (e.pending shard = none ∧
      ∃! gid, (e.groups gid shard).status = .shardServing) ∨
    (e.pending shard ≠ none ∧ ∀ gid, (e.groups gid shard).status ≠ .shardServing)
  /-- A shard on its way has its keys, and no others. -/
  transit : ∀ shard num data, e.pending shard = some (num, data) → ∀ key,
    ((decodeShardTransfer data).values.get key).map
        (fun entry => (entry.value, entry.version.toNat)) =
      if key2Shard key = shard then (e.single.data key).map fun item => (item.value, item.version)
      else none
  keys : ∀ gid shard key, (e.groups gid shard).values.get key ≠ none → key2Shard key = shard
  /-- Once the copy that was frozen is deleted, nothing is left of it. -/
  absent : ∀ gid shard, (e.groups gid shard).status = .shardAbsent → ∀ key,
    (e.groups gid shard).values.get key = none
  /-- Every request is answered alike. -/
  replies : ∀ req gid, Unnumbered req →
    (e.groups gid (key2Shard (key req))).status = .shardServing →
    ofRaft (e.raft.doOp req).2 = (e.single.handle (toSingle req)).2 ∧
      ∃ kv reply, (e.groups gid).doOp (toGroup req) = some (kv, reply) ∧
        ofGroup reply = some (e.single.handle (toSingle req)).2

/-! ### Each engine is the map -/

section

variable {m : GoString → Option ValueEntry} {req : Kvraft.Request}

def singleEntry (entry : ValueEntry) : Kvsrv.Entry := ⟨entry.value, entry.version.toNat⟩

theorem single_handle {kv : Kvsrv.KVServer} (h : ∀ key, kv.data key = (m key).map singleEntry) :
    ((∀ entry, m (key req) = some entry → entry.version.toNat + 1 < 2 ^ 64) →
      ∀ key, (kv.handle (toSingle req)).1.data key =
        ((kvSpec.apply m (op req)).1 key).map singleEntry) ∧
      (kv.handle (toSingle req)).2 = ofRes (kvSpec.apply m (op req)).2 := by
  cases req with
  | get args =>
      refine ⟨fun _ => h, ?_⟩
      have hkey := h args.key
      cases hm : m args.key with
      | none =>
          rw [hm, Option.map_none] at hkey
          simp [Kvsrv.KVServer.handle, Kvsrv.KVServer.get, toSingle, hkey, op, kvSpec, hm, ofRes]
      | some entry =>
          rw [hm, Option.map_some] at hkey
          simp [Kvsrv.KVServer.handle, Kvsrv.KVServer.get, toSingle, hkey, op, kvSpec, hm, ofRes,
            singleEntry]
  | put args =>
      have hkey := h args.key
      -- a write to both
      have hset : ∀ (entry : ValueEntry) (item : Kvsrv.Entry), item = singleEntry entry →
          ∀ key, (kv.set args.key item).data key =
            ((Function.update m args.key (some entry)) key).map singleEntry := by
        rintro entry item rfl key
        simp only [Kvsrv.KVServer.set]
        rcases eq_or_ne key args.key with rfl | hne
        · rw [Function.update_self, Function.update_self, Option.map_some]
        · rw [Function.update_of_ne hne, Function.update_of_ne hne, h]
      cases hm : m args.key with
      | none =>
          rw [hm, Option.map_none] at hkey
          simp only [Kvsrv.KVServer.handle, Kvsrv.KVServer.put, toSingle, hkey, op, kvSpec, hm]
          by_cases hzero : args.version = 0
          · rw [if_pos (by simp [hzero]), if_pos hzero]
            exact ⟨fun _ => hset _ _ rfl, rfl⟩
          · have hnat : args.version.toNat ≠ 0 := fun heq => hzero (UInt64.toNat_inj.mp heq)
            rw [if_neg hnat, if_neg hzero]
            exact ⟨fun _ => h, rfl⟩
      | some entry =>
          rw [hm, Option.map_some] at hkey
          simp only [Kvsrv.KVServer.handle, Kvsrv.KVServer.put, toSingle, hkey, op, kvSpec, hm]
          by_cases heq : args.version = entry.version
          · rw [if_neg (by simp [singleEntry, heq]), if_pos heq]
            refine ⟨fun hbelow => hset _ _ ?_, rfl⟩
            rw [singleEntry, singleEntry, heq, UInt64.toNat_add]
            exact congrArg _ (Nat.mod_eq_of_lt (hbelow entry hm)).symm
          · have hnat : (singleEntry entry).version ≠ args.version.toNat :=
              fun hnat => heq (UInt64.toNat_inj.mp hnat).symm
            rw [if_pos hnat, if_neg heq]
            exact ⟨fun _ => h, rfl⟩

theorem doPut_unnumbered {σ : Type} {t : Table} {args : PutArgs}
    {apply : σ → Option (σ × PutReply)} {s s' : σ} {reply : PutReply} (hzero : args.clientID = 0)
    (happly : apply s = some (s', reply)) : t.doPut args apply s = some (t, s', reply) := by
  rw [Table.doPut, if_pos hzero, happly]
  rfl

theorem raft_doOp {kv : Kvraft.KVServer} (h : Kvraft.entries kv.values = m)
    (hzero : Unnumbered req) :
    Kvraft.entries (kv.doOp req).1.values = (kvSpec.apply m (op req)).1 ∧
      ofRaft (kv.doOp req).2 = ofRes (kvSpec.apply m (op req)).2 := by
  subst h
  cases req with
  | get args =>
      rw [op, Kvraft.kvSpec_get]
      exact ⟨rfl, rfl⟩
  | put args =>
      have hdone := kv.doPut_eq args
      rw [Table.doPut, if_pos (show args.clientID = 0 from hzero)] at hdone
      obtain ⟨⟨values, reply⟩, hput, hdone⟩ := Option.bind_eq_some_iff.mp hdone
      obtain ⟨-, rfl, rfl⟩ : _ ∧ _ ∧ _ := by simpa using hdone
      rw [op, Kvraft.kvSpec_put hput]
      exact ⟨rfl, rfl⟩

def Has (st : ShardState) (content : GoString → Option ValueEntry) : Prop :=
  st.values ≠ .nil ∧ ∀ key, st.values.get key = content key

/-- The part of the map that belongs to a shard. -/
def content (m : GoString → Option ValueEntry) (shard : Tshid) (key : GoString) :
    Option ValueEntry :=
  if key2Shard key = shard then m key else none

theorem content_self (m : GoString → Option ValueEntry) (key : GoString) :
    content m (key2Shard key) key = m key := if_pos rfl

theorem content_of_ne {shard : Tshid} (hne : shard ≠ key2Shard (key req)) :
    content (kvSpec.apply m (op req)).1 shard = content m shard := by
  ext1 k
  unfold content
  split
  · rename_i hk
    have hkey : k ≠ key req := by
      rintro rfl
      exact hne hk.symm
    cases req with
    | get args => rfl
    | put args =>
        simp only [op, kvSpec, key] at hkey ⊢
        split <;> split <;> simp [Function.update_of_ne hkey]
  · rfl

/-- A group that serves the shard of a request. -/
theorem group_doOp {kv : KVServer} (hzero : Unnumbered req)
    (hstatus : (kv (key2Shard (key req))).status = .shardServing)
    (h : Has (kv (key2Shard (key req))) (content m (key2Shard (key req)))) :
    ∃ st reply, kv.doOp (toGroup req) =
        some (Function.update kv (key2Shard (key req)) st, reply) ∧
      st.status = .shardServing ∧
      Has st (content (kvSpec.apply m (op req)).1 (key2Shard (key req))) ∧
      ofGroup reply = some (ofRes (kvSpec.apply m (op req)).2) := by
  cases req with
  | get args =>
      have hkey : (kv (key2Shard args.key)).values.get args.key = m args.key :=
        (h.2 args.key).trans (content_self m args.key)
      have hreply : ofGroup (.get ((kv (key2Shard args.key)).get args)) =
          some (ofRes (kvSpec.apply m (.get args.key)).2) := by
        have hserve : ¬ (kv (key2Shard args.key)).status ≠ .shardServing := not_not.mpr hstatus
        cases hm : m args.key with
        | none =>
            rw [hm] at hkey
            simp [ShardState.get, hserve, hkey, kvSpec, hm, ofGroup, ofRes]
        | some entry =>
            rw [hm] at hkey
            simp [ShardState.get, hserve, hkey, kvSpec, hm, ofGroup, ofRes]
      refine ⟨kv (key2Shard args.key), _, ?_, hstatus, h, hreply⟩
      simp [toGroup, KVServer.doOp, key, Function.update_eq_self]
  | put args =>
      simp only [key] at hstatus h ⊢
      obtain ⟨⟨values, reply⟩, happly⟩ := ShardState.exists_applyPut args h.1
      have hdone := doPut_unnumbered (t := (kv (key2Shard args.key)).requests) hzero happly
      -- what the map does to the content of the shard
      let m' : GoString → Option ValueEntry := fun k => if k = args.key then values.get k else m k
      have hspec : kvSpec.apply m (.put args.key args.value args.version) =
          (m', .put reply.err) := by
        refine kvSpec_put happly ?_ (if_pos rfl) fun k hk => if_neg hk
        exact ((h.2 args.key).trans (content_self m args.key)).symm
      refine ⟨{ kv (key2Shard args.key) with values := values }, .put reply, ?_, hstatus,
        ⟨ShardState.applyPut_ne_nil happly h.1, fun k => ?_⟩, ?_⟩
      · simp [toGroup, KVServer.doOp, ShardState.put, hstatus, hdone]
      · rw [op, hspec]
        rcases eq_or_ne k args.key with rfl | hne
        · exact ((content_self m' args.key).trans (if_pos rfl)).symm
        · rw [applyPut_of_ne happly hne, h.2 k]
          simp [content, m', hne]
      · rw [op, hspec]
        rfl

end

/-! ### Moving a shard -/

section

variable {shard : Tshid} {f : Tgid → ShardState} {c c' : GoString → Option ValueEntry}
  {p p' : Option (Tnum × TransferData)} {gid : Tgid}

/-- Where the keys of a shard are. -/
def Placed (f : Tgid → ShardState) (c : GoString → Option ValueEntry) :
    Option (Tnum × TransferData) → Prop
  | none => ∃ gid, (f gid).status = .shardServing ∧ Has (f gid) c ∧
      ∀ other, other ≠ gid → (f other).status ≠ .shardServing
  | some (num, data) => ∃ gid, (f gid).status = .shardFrozen ∧ (f gid).configNum = num ∧
      Has (f gid) c ∧ data = encodeShardTransfer (f gid).values (f gid).requests ∧
      ∀ other, (f other).status ≠ .shardServing

/-- What holds of a shard in all groups. -/
structure ShardInv (shard : Tshid) (f : Tgid → ShardState) (c : GoString → Option ValueEntry)
    (p : Option (Tnum × TransferData)) : Prop where
  placed : Placed f c p
  keys : ∀ gid key, (f gid).values.get key ≠ none → key2Shard key = shard
  absent : ∀ gid, (f gid).status = .shardAbsent → ∀ key, (f gid).values.get key = none

theorem decode_encode {values : GoMap GoString ValueEntry} {requests : Table} (h : values ≠ .nil) :
    (decodeShardTransfer (encodeShardTransfer values requests)).values = values :=
  GoMap.orMake_of_ne_nil _ h

theorem not_serving_update {st : ShardState} {other : Tgid} (hst : st.status ≠ .shardServing)
    (h : other ≠ gid → (f other).status ≠ .shardServing) :
    (Function.update f gid st other).status ≠ .shardServing := by
  rcases eq_or_ne other gid with rfl | hne
  · rw [Function.update_self]
    exact hst
  · rw [Function.update_of_ne hne]
    exact h hne

namespace ShardInv

theorem of_serving (h : ShardInv shard f c p) (hstatus : (f gid).status = .shardServing) :
    p = none ∧ Has (f gid) c ∧ ∀ other, other ≠ gid → (f other).status ≠ .shardServing := by
  obtain _ | ⟨num, data⟩ := p
  · obtain ⟨owner, -, hhas, hother⟩ := h.placed
    obtain rfl : gid = owner := by
      by_contra hne
      exact hother gid hne hstatus
    exact ⟨rfl, hhas, hother⟩
  · obtain ⟨-, -, -, -, -, hnone⟩ := h.placed
    exact absurd hstatus (hnone gid)

theorem update {st : ShardState} (h : ShardInv shard f c p)
    (hplaced : Placed (Function.update f gid st) c' p')
    (hkeys : ∀ key, st.values.get key ≠ none → key2Shard key = shard)
    (habsent : st.status = .shardAbsent → ∀ key, st.values.get key = none) :
    ShardInv shard (Function.update f gid st) c' p' where
  placed := hplaced
  keys other key := by
    rcases eq_or_ne other gid with rfl | hne
    · rw [Function.update_self]
      exact hkeys key
    · rw [Function.update_of_ne hne]
      exact h.keys other key
  absent other := by
    rcases eq_or_ne other gid with rfl | hne
    · rw [Function.update_self]
      exact habsent
    · rw [Function.update_of_ne hne]
      exact h.absent other

theorem write {st : ShardState} (h : ShardInv shard f c p)
    (hstatus : (f gid).status = .shardServing) (hserve : st.status = .shardServing)
    (hhas : Has st c') (hkeys : ∀ key, c' key ≠ none → key2Shard key = shard) :
    ShardInv shard (Function.update f gid st) c' p := by
  obtain ⟨rfl, -, hother⟩ := h.of_serving hstatus
  refine h.update ⟨gid, ?_⟩ (fun key hkey => hkeys key (hhas.2 key ▸ hkey)) fun habs => ?_
  · rw [Function.update_self]
    refine ⟨hserve, hhas, fun other hne => ?_⟩
    rw [Function.update_of_ne hne]
    exact hother other hne
  · rw [hserve] at habs
    cases habs

theorem freeze (h : ShardInv shard f c p) {num : Tnum} (hserve : (f gid).status = .shardServing) :
    ShardInv shard
      (Function.update f gid { f gid with status := .shardFrozen, configNum := num }) c
      (some (num, encodeShardTransfer (f gid).values (f gid).requests)) := by
  obtain ⟨rfl, hhas, hother⟩ := h.of_serving hserve
  refine h.update ⟨gid, ?_⟩ (h.keys gid) fun habs => by cases habs
  rw [Function.update_self]
  exact ⟨rfl, rfl, hhas, rfl, fun other => not_serving_update (by simp) (hother other)⟩

theorem install {num : Tnum} {data : TransferData} (h : ShardInv shard f c (some (num, data))) :
    ShardInv shard (Function.update f gid ⟨(decodeShardTransfer data).values, .shardServing, num,
      (decodeShardTransfer data).requests⟩) c none := by
  obtain ⟨src, -, -, hhas, rfl, hnone⟩ := h.placed
  rw [decode_encode hhas.1]
  refine h.update ⟨gid, ?_⟩ (h.keys src) fun habs => by cases habs
  rw [Function.update_self]
  refine ⟨rfl, hhas, fun other hne => ?_⟩
  rw [Function.update_of_ne hne]
  exact hnone other

theorem delete (h : ShardInv shard f c p) (hfrozen : (f gid).status = .shardFrozen)
    (hnum : p.map Prod.fst ≠ some (f gid).configNum) :
    ShardInv shard (Function.update f gid
      { f gid with values := .make, requests := .empty, status := .shardAbsent }) c p := by
  have hempty : ∀ key, (GoMap.make : GoMap GoString ValueEntry).get key = none := fun _ => rfl
  refine h.update ?_ (fun key hkey => absurd (hempty key) hkey) fun _ => hempty
  obtain _ | ⟨num, data⟩ := p
  · obtain ⟨owner, hserve, hhas, hother⟩ := h.placed
    have hne : owner ≠ gid := by
      rintro rfl
      rw [hserve] at hfrozen
      cases hfrozen
    refine ⟨owner, ?_⟩
    rw [Function.update_of_ne hne]
    exact ⟨hserve, hhas, fun other hne => not_serving_update (by simp) fun _ => hother other hne⟩
  · obtain ⟨src, hstatus, rfl, hhas, hdata, hnone⟩ := h.placed
    have hne : src ≠ gid := by
      rintro rfl
      exact hnum rfl
    refine ⟨src, ?_⟩
    rw [Function.update_of_ne hne]
    exact ⟨hstatus, rfl, hhas, hdata, fun other =>
      not_serving_update (by simp) fun _ => hnone other⟩

end ShardInv

end

/-! ### Runs -/

/-- The engines stand for this map. -/
structure Inv (e : Engines) (m : GoString → Option ValueEntry) : Prop where
  single : ∀ key, e.single.data key = (m key).map singleEntry
  raft : Kvraft.entries e.raft.values = m
  shards : ∀ shard, ShardInv shard (fun gid => e.groups gid shard) (content m shard)
    (e.pending shard)

namespace Inv

variable {e e' : Engines} {m m' : GoString → Option ValueEntry} {shard : Tshid} {gid : Tgid}

theorem shards_update {st : ShardState} {p : Option (Tnum × TransferData)} (h : Inv e m)
    (hcontent : ∀ other, other ≠ shard → content m' other = content m other)
    (hshard : ShardInv shard (Function.update (fun g => e.groups g shard) gid st)
      (content m' shard) p) (other : Tshid) :
    ShardInv other
      (fun g => Function.update e.groups gid (Function.update (e.groups gid) shard st) g other)
      (content m' other) (Function.update e.pending shard p other) := by
  have hgroups : (fun g => Function.update e.groups gid
      (Function.update (e.groups gid) shard st) g other) =
      if other = shard then Function.update (fun g => e.groups g shard) gid st
      else fun g => e.groups g other := by
    ext1 g
    rcases eq_or_ne g gid with rfl | hg <;> rcases eq_or_ne other shard with rfl | ho <;> simp [*]
  rw [hgroups]
  rcases eq_or_ne other shard with rfl | hne
  · rw [if_pos rfl, Function.update_self]
    exact hshard
  · rw [if_neg hne, Function.update_of_ne hne, hcontent other hne]
    exact h.shards other

theorem move {st : ShardState} {p : Option (Tnum × TransferData)} (h : Inv e m)
    (hshard : ShardInv shard (Function.update (fun g => e.groups g shard) gid st)
      (content m shard) p) :
    Inv ((e.setGroup gid (Function.update (e.groups gid) shard st)).setPending shard p) m :=
  ⟨h.single, h.raft, h.shards_update (fun _ _ => rfl) hshard⟩

theorem refused (h : Inv e m) :
    Inv (e.setGroup gid (Function.update (e.groups gid) shard (e.groups gid shard))) m := by
  rw [Function.update_eq_self, Engines.setGroup, Function.update_eq_self]
  exact h

theorem init : Inv .init fun _ => none where
  single _ := rfl
  raft := rfl
  shards shard := by
    have hvalues : ∀ gid, (KVServer.start gid shard).values = .make := by
      intro gid
      unfold KVServer.start
      split <;> rfl
    have hget : ∀ gid key, (KVServer.start gid shard).values.get key = none := by
      intro gid key
      rw [hvalues]
      rfl
    have hcontent : content (fun _ => none) shard = fun _ => none := by
      ext1 key
      exact ite_self _
    have hstart : ∀ other, other ≠ Gid1 →
        KVServer.start other shard = ⟨.make, .shardAbsent, 0, .empty⟩ := fun _ hne => if_neg hne
    refine ⟨⟨Gid1, rfl, ⟨by simp [hvalues, GoMap.make, Engines.init], fun key => ?_⟩,
      fun other hne hserve => ?_⟩,
      fun gid key hkey => absurd (hget gid key) hkey, fun gid _ => hget gid⟩
    · rw [hcontent]
      exact hget Gid1 key
    · have habsent := congrArg ShardState.status (hstart other hne)
      cases habsent.symm.trans hserve

variable {req : Kvraft.Request}

theorem request (h : Inv e m) (hbelow : e.Below) (hzero : Unnumbered req)
    (hstep : e.step (.request req gid) = some e') : Inv e' (kvSpec.apply m (op req)).1 := by
  rw [Engines.step] at hstep
  split at hstep
  · rename_i hstatus
    have hshard := h.shards (key2Shard (key req))
    obtain ⟨st, reply, hop, hserve, hhas, -⟩ :=
      group_doOp hzero hstatus (hshard.of_serving hstatus).2.1
    rw [hop] at hstep
    cases hstep
    refine ⟨(single_handle h.single).1 fun entry hentry => ?_, (raft_doOp h.raft hzero).1, ?_⟩
    · have hitem : e.single.data (key req) = some (singleEntry entry) := by
        rw [h.single, hentry, Option.map_some]
      have hmax : entry.version.toNat ≠ 2 ^ 64 - 1 := hbelow _ _ hitem
      have hlt := entry.version.toNat_lt
      omega
    · have hwrite := hshard.write hstatus hserve hhas fun k hk => by
        by_contra hne
        exact hk (if_neg hne)
      have hall := h.shards_update (fun _ hne => content_of_ne hne) hwrite
      rwa [Function.update_eq_self] at hall
  · cases hstep

theorem freeze {num : Tnum} (h : Inv e m) (hstep : e.step (.freeze shard gid num) = some e') :
    Inv e' m := by
  rw [Engines.step] at hstep
  split at hstep
  · rename_i hnum
    have hne : ¬ (num = (e.groups gid shard).configNum ∧
        (e.groups gid shard).status = .shardFrozen) :=
      fun ⟨heq, _⟩ => hnum.ne' heq
    simp only [KVServer.doOp, ShardState.freezeShard, if_neg hne] at hstep
    by_cases hserve : (e.groups gid shard).status = .shardServing
    · rw [if_neg (by simp [hserve, hnum])] at hstep
      cases hstep
      exact h.move ((h.shards shard).freeze hserve)
    · rw [if_pos (Or.inl hserve)] at hstep
      cases hstep
      exact h.refused
  · cases hstep

theorem install (h : Inv e m) (hstep : e.step (.install shard gid) = some e') : Inv e' m := by
  rw [Engines.step] at hstep
  obtain ⟨⟨num, data⟩, hpending, hstep⟩ := Option.bind_eq_some_iff.mp hstep
  have hshard := h.shards shard
  rw [hpending] at hshard
  -- no group serves the shard
  have hnone : (e.groups gid shard).status ≠ .shardServing := by
    intro hserve
    cases (hshard.of_serving hserve).1
  have hne : ¬ (num = (e.groups gid shard).configNum ∧
    (e.groups gid shard).status = .shardServing) := fun ⟨_, hserve⟩ => hnone hserve
  simp only [KVServer.doOp, ShardState.installShard, if_neg hne] at hstep
  by_cases hrefused : (e.groups gid shard).status ≠ .shardAbsent ∨
      num ≤ (e.groups gid shard).configNum
  · rw [if_pos hrefused] at hstep
    cases hstep
    exact h.refused
  · rw [if_neg hrefused] at hstep
    cases hstep
    exact h.move hshard.install

theorem delete {num : Tnum} (h : Inv e m) (hstep : e.step (.delete shard gid num) = some e') :
    Inv e' m := by
  rw [Engines.step] at hstep
  split at hstep
  · cases hstep
  · rename_i hpending
    simp only [KVServer.doOp, ShardState.deleteShard] at hstep
    split_ifs at hstep with hdone hrefused
    · cases hstep
      exact h.refused
    · cases hstep
      exact h.refused
    · cases hstep
      obtain ⟨rfl, hfrozen⟩ : num = (e.groups gid shard).configNum ∧
          (e.groups gid shard).status = .shardFrozen := by
        simpa using hrefused
      have hmove := h.move ((h.shards shard).delete hfrozen hpending)
      rwa [Engines.setPending, Engines.setGroup, Function.update_eq_self] at hmove

theorem step {a : Event} (h : Inv e m) (hstep : engineSys.step e a e') : ∃ m', Inv e' m' := by
  obtain ⟨hbelow, hzero, hstep⟩ := hstep
  cases a with
  | request req gid => exact ⟨_, h.request hbelow hzero hstep⟩
  | freeze shard gid num => exact ⟨m, h.freeze hstep⟩
  | install shard gid => exact ⟨m, h.install hstep⟩
  | delete shard gid num => exact ⟨m, h.delete hstep⟩

theorem reachable (hr : engineSys.Reachable e) : ∃ m, Inv e m := by
  refine Sys.Reachable.invariant (I := fun e => ∃ m, Inv e m) ?_ ?_ hr
  · rintro _ rfl
    exact ⟨_, Inv.init⟩
  · rintro s a s' - ⟨m, h⟩ hstep
    exact h.step hstep

theorem content_single (h : Inv e m) (shard : Tshid) (key : GoString) :
    (content m shard key).map (fun entry => (entry.value, entry.version.toNat)) =
      if key2Shard key = shard then (e.single.data key).map fun item => (item.value, item.version)
      else none := by
  rw [h.single, content]
  split
  · rw [Option.map_map]
    rfl
  · rfl

theorem agree (h : Inv e m) : Agree e where
  raft key := by
    rw [h.single, ← h.raft, Kvraft.entries, Option.map_map, Option.map_map]
    rfl
  groups gid shard hserve key := by
    rw [((h.shards shard).of_serving hserve).2.1.2 key]
    exact h.content_single shard key
  serving shard := by
    have hshard := h.shards shard
    cases hp : e.pending shard with
    | none =>
        rw [hp] at hshard
        obtain ⟨gid, hserve, -, hother⟩ := hshard.placed
        refine .inl ⟨rfl, gid, hserve, fun other hother' => ?_⟩
        by_contra hne
        exact hother other hne hother'
    | some p =>
        rw [hp] at hshard
        obtain ⟨-, -, -, -, -, hnone⟩ := hshard.placed
        exact .inr ⟨Option.some_ne_none p, hnone⟩
  transit shard num data hpending key := by
    have hplaced := (h.shards shard).placed
    rw [hpending] at hplaced
    obtain ⟨src, -, -, hhas, rfl, -⟩ := hplaced
    rw [decode_encode hhas.1, hhas.2 key]
    exact h.content_single shard key
  keys gid shard := (h.shards shard).keys gid
  absent gid shard := (h.shards shard).absent gid
  replies req gid hzero hserve := by
    obtain ⟨st, reply, hop, -, -, hreply⟩ :=
      group_doOp hzero hserve ((h.shards _).of_serving hserve).2.1
    rw [(single_handle h.single).2, (raft_doOp h.raft hzero).2]
    exact ⟨rfl, _, reply, hop, hreply⟩

end Inv

/-! ### Version counters -/

def Bounded (e : Engines) (n : ℕ) : Prop :=
  ∀ key item, e.single.data key = some item → item.version ≤ n

theorem Bounded.handle {kv : Kvsrv.KVServer} {n : ℕ}
    (h : ∀ key item, kv.data key = some item → item.version ≤ n) (req : Kvraft.Request)
    (key : GoString) (item : Kvsrv.Entry)
    (hitem : (kv.handle (toSingle req)).1.data key = some item) : item.version ≤ n + 1 := by
  have hset : ∀ k (new : Kvsrv.Entry), new.version ≤ n + 1 →
      (kv.set k new).data key = some item → item.version ≤ n + 1 := by
    intro k new hnew hdata
    simp only [Kvsrv.KVServer.set] at hdata
    rcases eq_or_ne key k with rfl | hne
    · rw [Function.update_self] at hdata
      cases hdata
      exact hnew
    · rw [Function.update_of_ne hne] at hdata
      exact (h key item hdata).trans (Nat.le_succ n)
  cases req with
  | get args => exact (h key item hitem).trans (Nat.le_succ n)
  | put args =>
      simp only [toSingle, Kvsrv.KVServer.handle, Kvsrv.KVServer.put] at hitem
      cases hold : kv.data args.key with
      | none =>
          simp only [hold] at hitem
          split at hitem
          · exact hset _ _ (Nat.le_add_left 1 n) hitem
          · exact (h key item hitem).trans (Nat.le_succ n)
      | some old =>
          simp only [hold] at hitem
          split at hitem
          · exact (h key item hitem).trans (Nat.le_succ n)
          · exact hset _ _ (Nat.succ_le_succ (h args.key old hold)) hitem

theorem single_step {e e' : Engines} {a : Event} (hstep : e.step a = some e') :
    e'.single = e.single ∨ ∃ req, e'.single = (e.single.handle (toSingle req)).1 := by
  cases a with
  | request req gid =>
      rw [Engines.step] at hstep
      split at hstep
      · obtain ⟨out, -, hstep⟩ := Option.bind_eq_some_iff.mp hstep
        cases hstep
        exact .inr ⟨req, rfl⟩
      · cases hstep
  | freeze shard gid num =>
      rw [Engines.step] at hstep
      split at hstep
      · obtain ⟨out, -, hstep⟩ := Option.bind_eq_some_iff.mp hstep
        dsimp only at hstep
        split at hstep <;> cases hstep <;> exact .inl rfl
      · cases hstep
  | install shard gid =>
      obtain ⟨p, -, hstep⟩ := Option.bind_eq_some_iff.mp hstep
      obtain ⟨out, -, hstep⟩ := Option.bind_eq_some_iff.mp hstep
      dsimp only at hstep
      split at hstep <;> cases hstep <;> exact .inl rfl
  | delete shard gid num =>
      rw [Engines.step] at hstep
      split at hstep
      · cases hstep
      · obtain ⟨out, -, hstep⟩ := Option.bind_eq_some_iff.mp hstep
        cases hstep
        exact .inl rfl

theorem Bounded.step {e e' : Engines} {a : Event} {n : ℕ} (h : Bounded e n)
    (hstep : e.step a = some e') : Bounded e' (n + 1) := by
  intro key item hitem
  rcases single_step hstep with heq | ⟨req, heq⟩
  · rw [heq] at hitem
    exact (h key item hitem).trans (Nat.le_succ n)
  · rw [heq] at hitem
    exact Bounded.handle h req key item hitem

/-- A version counts requests, so it takes `2 ^ 64 - 1` of them to bring one to
the largest word. -/
theorem reachable_play_of_short {as : List Event} (hshort : as.length < 2 ^ 64 - 1)
    (hzero : ∀ a ∈ as, a.Unnumbered) :
    engineSys.Reachable (play Engines.step .init as) ∧
      Bounded (play Engines.step .init as) as.length := by
  induction as using List.reverseRecOn with
  | nil =>
      refine ⟨.init rfl, fun key item hitem => ?_⟩
      cases hitem
  | append_singleton as a ih =>
      rw [List.length_append, List.length_singleton] at hshort ⊢
      obtain ⟨hr, hbound⟩ := ih (by omega) fun b hb => hzero b (List.mem_append_left _ hb)
      have hbelow : (play Engines.step .init as).Below := by
        intro key item hitem heq
        have hle := hbound key item hitem
        omega
      rw [play_concat]
      cases hstep : (play Engines.step .init as).step a with
      | none =>
          refine ⟨hr, fun key item hitem => ?_⟩
          exact (hbound key item hitem).trans (Nat.le_succ _)
      | some e =>
          exact ⟨hr.step ⟨hbelow, hzero a (by simp), hstep⟩, hbound.step hstep⟩

/-- The three engines agree after every run. -/
theorem engines_agree {e : Engines} (hr : engineSys.Reachable e) : Agree e := by
  obtain ⟨m, h⟩ := Inv.reachable hr
  exact h.agree

/-- A key is written, its shard moved from the first group to the second, and
the key written again there. -/
def sampleEvents : List Event :=
  let put (value : GoString) (version : UInt64) : Kvraft.Request :=
    .put ⟨[97], value, version, 0, 0, 0⟩
  [.request (put [1] 0) 1, .freeze (key2Shard [97]) 1 2, .install (key2Shard [97]) 2,
    .request (put [2] 1) 2, .delete (key2Shard [97]) 1 2, .request (put [3] 1) 2]

theorem engines_agree_sampleEvents :
    ((play Engines.step .init sampleEvents).groups 2 (key2Shard [97])).status = .shardServing ∧
      (play Engines.step .init sampleEvents).single.data [97] = some ⟨[2], 2⟩ ∧
      Agree (play Engines.step .init sampleEvents) := by
  refine ⟨by decide +kernel, by decide +kernel, engines_agree (reachable_play_of_short ?_ ?_).1⟩
  · decide
  · simp [sampleEvents, Event.Unnumbered, Unnumbered]

end RaftShardedKv.Engine
