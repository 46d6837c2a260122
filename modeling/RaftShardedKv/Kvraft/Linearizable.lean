import RaftShardedKv.Kvraft.Clerk

/-!
The clerks of the replicated service see one versioned map.

A `Get` takes effect where its operation stands in the committed log, a
`Put` where the first of its operations stands that the table runs. The
log only grows, so the effects are added at the moment the log grows; a
call that returns has been told what its operation returned, and this
operation was committed while the call was under way.
-/

namespace RaftShardedKv.Kvraft

open Dedup Transition Linearizability Shardkv

/-! ### The map -/

def entries (values : Values) (key : GoString) : Option RaftShardedKv.ValueEntry :=
  (values.get key).map fun e => ⟨e.value, e.version⟩

theorem kvSpec_get (kv : KVServer) (key : GoString) :
    kvSpec.apply (entries kv.values) (.get key) = (entries kv.values, .get (kv.get ⟨key⟩)) := by
  unfold kvSpec KVServer.get entries
  dsimp only
  cases kv.values.get key <;> rfl

theorem entries_set {values values' : Values} {key : GoString} {entry : ValueEntry}
    (h : values.set key entry = some values') :
    entries values' = Function.update (entries values) key (some ⟨entry.value, entry.version⟩) := by
  ext1 key'
  unfold entries
  rw [GoMap.get_set h, Function.update_apply]
  split <;> rfl

/-- A run of `putLocked` is a step of the map. -/
theorem kvSpec_put {args : PutArgs} {values values' : Values} {reply : PutReply}
    (h : putLocked args values = some (values', reply)) :
    kvSpec.apply (entries values) (.put args.key args.value args.version) =
      (entries values', .put reply.err) := by
  unfold putLocked at h
  split at h
  · rename_i hnone
    have hentry : entries values args.key = none := by rw [entries, hnone, Option.map_none]
    simp only [kvSpec, hentry]
    split at h
    · rename_i hversion
      cases h
      rw [if_neg hversion]
    · rename_i hversion
      obtain ⟨_, hset, h⟩ := Option.bind_eq_some_iff.mp h
      cases h
      rw [if_pos (not_not.mp hversion), entries_set hset]
  · rename_i entry hsome
    have hentry : entries values args.key = some ⟨entry.value, entry.version⟩ := by
      rw [entries, hsome, Option.map_some]
    simp only [kvSpec, hentry]
    split at h
    · rename_i hversion
      cases h
      rw [if_neg (Ne.symm hversion)]
    · rename_i hversion
      obtain ⟨_, hset, h⟩ := Option.bind_eq_some_iff.mp h
      cases h
      rw [if_pos (not_not.mp hversion).symm, entries_set hset, not_not.mp hversion]

section

variable {n : ℕ} {Ck : Type}
  {servers : Ck → List (Fin n)} {clientID : Ck ↪ {id : ℕ // id ≠ 0}} {epoch : Fin n → ℕ}
  {s s' : KvService n Ck}

/-! ### One step -/

variable [DecidableEq Ck] [Labgob (Op n Request)] [Gob]

/-- The actions of the service in which no call begins and no `Get` is
handled. -/
def KvAction.Inner : KvAction n Ck → Prop
  | .get .. | .begin .. => False
  | _ => True

/-- What a step can do, apart from whom the clerks take for the leader. -/
inductive KvServiceStep (clientID : Ck ↪ {id : ℕ // id ≠ 0}) (s : KvService n Ck) :
    KvService n Ck → Prop
  | inner (a : KvAction n Ck) (kv : KvSystem n Ck) (leader : Ck → ℕ) (attempt : CallID → Attempt)
      (ha : a.Inner) (hkv : s.kv.step clientID a = some kv) :
      KvServiceStep clientID s { s with kv := kv, leader := leader, attempt := attempt }
  | get (ck : Ck) (key : GoString) :
      KvServiceStep clientID s { s with
        gets := s.gets ++ [⟨ck, key⟩]
        history := s.history ++ [.invoke (.get s.gets.length) (.get key)] }
  | put (ck : Ck) (key value : GoString) (version : Tversion) (kv : KvSystem n Ck)
      (hkv : s.kv.step clientID (.begin ck key value version) = some kv) :
      KvServiceStep clientID s { s with
        kv := kv
        history := s.history ++
          [.invoke (.put s.kv.clerks.calls.length) (.put key value version)] }
  | ask (g : ℕ) (i : Fin n) (call : GetCall Ck) (attempt : CallID → Attempt)
      (hg : s.gets[g]? = some call) (hphase : s.phase g = .loop) :
      KvServiceStep clientID s { s.setPhase g (.calling s.asked.length) with
        attempt := attempt
        asked := s.asked ++ [(g, i)] }
  | handle (k g : ℕ) (i : Fin n) (call : GetCall Ck) (hk : s.asked[k]? = some (g, i))
      (hg : s.gets[g]? = some call) :
      KvServiceStep clientID s { s with
        kv := { s.kv with rsm := submitted s.kv.rsm i (.get ⟨call.key⟩) }
        handlers := Function.update s.handlers
          ⟨i, (s.kv.rsm.rsms i).epoch, (s.kv.rsm.rsms i).nextSequence + 1⟩ (some k) }
  | retry (g k : ℕ) (leader : Ck → ℕ) (attempt : CallID → Attempt)
      (hphase : s.phase g = .calling k) :
      KvServiceStep clientID s { s.setPhase g .loop with leader := leader, attempt := attempt }
  | getReturn (g k : ℕ) (id : OpID n) (reply : GetReply) (leader : Ck → ℕ)
      (hphase : s.phase g = .calling k) (hid : s.handlers id = some k)
      (hout : s.outcome id = some (.ok (.get reply))) :
      KvServiceStep clientID s { s.setPhase g .returned with
        leader := leader
        history := s.history ++ [.ret (.get g) (.get reply)] }
  | putReturn (p : ℕ) (err : Err) (kv : KvSystem n Ck) (hphase : s.kv.phase p = .returning err)
      (hkv : s.kv.step clientID (.complete p) = some kv) :
      KvServiceStep clientID s { s with
        kv := kv
        history := s.history ++ [.ret (.put p) (.put err)] }

theorem KvServiceStep.of_step {a : KvServiceAction n Ck}
    (hs : s.step servers clientID a = some s') : KvServiceStep clientID s s' := by
  cases a with
  | rsm a =>
      obtain ⟨kv, hkv, hs⟩ := Option.bind_eq_some_iff.mp hs
      cases hs
      exact .inner (.rsm a) kv _ _ trivial hkv
  | get ck key =>
      cases hs
      exact .get ck key
  | put ck key value version =>
      obtain ⟨kv, hkv, hs⟩ := Option.bind_eq_some_iff.mp hs
      cases hs
      exact .put ck key value version kv hkv
  | ack p =>
      obtain ⟨kv, hkv, hs⟩ := Option.bind_eq_some_iff.mp hs
      cases hs
      exact .inner (.ack p) kv _ _ trivial hkv
  | send c =>
      obtain ⟨ck, hck, hs⟩ := Option.bind_eq_some_iff.mp hs
      obtain ⟨i, hi, hs⟩ := Option.bind_eq_some_iff.mp hs
      cases c with
      | get g =>
          obtain ⟨call, hg, -⟩ := Option.map_eq_some_iff.mp hck
          dsimp only at hs
          split at hs
          · rename_i hphase
            cases hs
            exact .ask g i call _ hg hphase
          · cases hs
      | put p =>
          obtain ⟨kv, hkv, hs⟩ := Option.bind_eq_some_iff.mp hs
          cases hs
          exact .inner (.send p i) kv _ _ trivial hkv
  | handleGet k =>
      obtain ⟨⟨g, i⟩, hk, hs⟩ := Option.bind_eq_some_iff.mp hs
      obtain ⟨call, hg, hs⟩ := Option.bind_eq_some_iff.mp hs
      cases hs
      exact .handle k g i call hk hg
  | handlePut k =>
      obtain ⟨kv, hkv, hs⟩ := Option.bind_eq_some_iff.mp hs
      cases hs
      exact .inner (.handle k) kv _ _ trivial hkv
  | reply c id =>
      obtain ⟨ck, -, hs⟩ := Option.bind_eq_some_iff.mp hs
      cases c with
      | get g =>
          dsimp only at hs
          split at hs
          · rename_i k k' hphase hid
            split at hs
            · rename_i hk
              subst hk
              obtain ⟨outcome, hout, hs⟩ := Option.bind_eq_some_iff.mp hs
              obtain ⟨reply, hreply, hs⟩ := Option.bind_eq_some_iff.mp hs
              have hok : reply.err = .ok ∨ reply.err = .errNoKey → outcome = .ok (.get reply) := by
                intro herr
                unfold getReply at hreply
                split at hreply
                · cases hreply
                  rfl
                · cases hreply
                · cases hreply
                  simp at herr
              split at hs
              · rename_i herr
                cases hs
                exact .getReturn g k id reply _ hphase hid (hok (Or.inl herr) ▸ hout)
              · rename_i herr
                cases hs
                exact .getReturn g k id reply _ hphase hid (hok (Or.inr herr) ▸ hout)
              · cases hs
                unfold KvService.retryAfterFailure KvService.advanceLeader
                dsimp only
                split <;> exact .retry g k _ _ hphase
            · cases hs
          · cases hs
      | put p =>
          obtain ⟨kv, hkv, hs⟩ := Option.bind_eq_some_iff.mp hs
          split at hs
          · cases hs
            unfold KvService.retryAfterFailure KvService.advanceLeader
            dsimp only
            split <;> exact .inner (.reply p id) kv _ _ trivial hkv
          · cases hs
            exact .inner (.reply p id) kv _ _ trivial hkv
          · cases hs
            exact .inner (.reply p id) kv _ _ trivial hkv
  | fail c =>
      obtain ⟨ck, -, hs⟩ := Option.bind_eq_some_iff.mp hs
      cases c with
      | get g =>
          dsimp only at hs
          split at hs
          · rename_i k hphase
            cases hs
            unfold KvService.retryAfterFailure KvService.advanceLeader
            dsimp only
            split <;> exact .retry g k _ _ hphase
          · cases hs
      | put p =>
          obtain ⟨kv, hkv, hs⟩ := Option.bind_eq_some_iff.mp hs
          cases hs
          unfold KvService.retryAfterFailure KvService.advanceLeader
          dsimp only
          split <;> exact .inner (.fail p) kv _ _ trivial hkv
  | complete p =>
      simp only [KvService.step] at hs
      split at hs
      · rename_i err hphase
        obtain ⟨kv, hkv, hs⟩ := Option.bind_eq_some_iff.mp hs
        cases hs
        exact .putReturn p err kv hphase hkv
      · cases hs

/-! ### The invariant -/

namespace KvService

/-- What a call is for. -/
def opOf (s : KvService n Ck) : CallID → Option KvOp
  | .get g => s.gets[g]?.map fun call => .get call.key
  | .put p => s.kv.clerks.calls[p]?.map Shardkv.PutCall.op

def Returned (s : KvService n Ck) : CallID → Prop
  | .get g => s.phase g = .returned
  | .put p => ∃ err, s.kv.phase p = .returned err

/-- The submission was made for call `g` of `Get`. -/
def Asks (s : KvService n Ck) (id : OpID n) (g : ℕ) : Prop :=
  ∃ k i, s.handlers id = some k ∧ s.asked[k]? = some (g, i)

end KvService

structure KvServiceInv (clientID : Ck ↪ {id : ℕ // id ≠ 0}) (epoch : Fin n → ℕ)
    (s : KvService n Ck) : Prop where
  kv : (kvSys clientID epoch).Reachable s.kv
  asked : ∀ (k g : ℕ) i, s.asked[k]? = some (g, i) → ∃ call, s.gets[g]? = some call
  calling : ∀ g k, s.phase g = .calling k → ∃ i, s.asked[k]? = some (g, i)
  handled : ∀ id args, s.kv.rsm.requests id = some (.get args) → ∃ g call, s.Asks id g ∧
    s.gets[g]? = some call ∧ call.key = args.key
  invoked : ∀ c op, .invoke c op ∈ s.history ↔ s.opOf c = some op
  returned : ∀ c r, .ret c r ∈ s.history → s.Returned c

/-- A call of `Put` as it was begun. -/
def callOf (call : PutCall Ck) : PutCall Ck :=
  { call with args := { call.args with ack := 0 }, completed := false }

omit [DecidableEq Ck] [Gob] in
theorem callOf_set {calls : List (PutCall Ck)} {p : ℕ} {call call' : PutCall Ck}
    (hp : calls[p]? = some call) (hsame : callOf call' = callOf call) (p' : ℕ) :
    (calls.set p call')[p']?.map callOf = calls[p']?.map callOf := by
  rcases eq_or_ne p' p with rfl | hne
  · rw [Pool.set_self hp, hp, Option.map_some, Option.map_some, hsame]
  · rw [List.getElem?_set_ne hne.symm]

/-- What a step of the service below keeps in which no call begins and no
`Get` is handled. -/
structure Continues (kv kv' : KvSystem n Ck) : Prop where
  calls : ∀ p : ℕ, kv'.clerks.calls[p]?.map callOf = kv.clerks.calls[p]?.map callOf
  history : kv.history <+: kv'.history
  gets : ∀ id args, kv'.rsm.requests id = some (.get args) → kv.rsm.requests id = some (.get args)
  returned : ∀ p err, kv.phase p = .returned err → kv'.phase p = .returned err

omit [DecidableEq Ck] [Labgob (Op n Request)] [Gob] in
theorem returned_update {kv : KvSystem n Ck} {p : ℕ} {phase : PutPhase}
    (hopen : ∀ err, kv.phase p ≠ .returned err) (p' : ℕ) (err : Err)
    (h : kv.phase p' = .returned err) : Function.update kv.phase p phase p' = .returned err := by
  rwa [Function.update_of_ne]
  rintro rfl
  exact hopen err h

theorem Continues.of_step {kv kv' : KvSystem n Ck} {a : KvAction n Ck} (ha : a.Inner)
    (h : KvInv clientID epoch kv) (hs : kv.step clientID a = some kv') : Continues kv kv' := by
  cases a with
  | rsm a =>
      obtain ⟨rsm, hr, hs⟩ := Option.bind_eq_some_iff.mp hs
      cases hs
      split at hr
      · cases hr
      · rename_i hnot
        have hreq := RsmSystem.requests_step hr fun i req timeout heq => hnot i req timeout heq
        exact ⟨fun _ => rfl, (RsmStep.of_step hr).operations (.reachable h.rsm),
          fun id args hid => (congrFun hreq id).symm.trans hid, fun _ _ h => h⟩
  | get i args => cases ha
  | begin ck key value version => cases ha
  | ack p =>
      simp only [KvSystem.step] at hs
      split at hs
      · rename_i hp
        obtain ⟨clerks, hc, hs⟩ := Option.bind_eq_some_iff.mp hs
        cases hs
        obtain ⟨call, hcall, -, -, hcalls, -⟩ := Clerks.ack_spec hc
        refine ⟨fun p' => ?_, List.prefix_rfl, fun _ _ h => h, returned_update (by simp [hp])⟩
        change clerks.calls[p']?.map callOf = _
        rw [hcalls]
        refine callOf_set hcall ?_ p'
        rfl
      · cases hs
  | send p i =>
      simp only [KvSystem.step] at hs
      split at hs
      · rename_i hp
        obtain ⟨clerks, hc, hs⟩ := Option.bind_eq_some_iff.mp hs
        cases hs
        obtain ⟨call, -, -, rfl⟩ := Clerks.send_spec hc
        exact ⟨fun _ => rfl, List.prefix_rfl, fun _ _ h => h, returned_update (by simp [hp])⟩
      · cases hs
  | handle k =>
      obtain ⟨x, hk, hs⟩ := Option.bind_eq_some_iff.mp hs
      cases hs
      refine ⟨fun _ => rfl, List.prefix_rfl, fun id args hid => ?_, fun _ _ h => h⟩
      change (submitted kv.rsm x.dst (.put x.args)).requests id = _ at hid
      rw [requests_submitted, Function.update_apply] at hid
      split at hid
      · cases hid
      · exact hid
  | reply p id =>
      simp only [KvSystem.step] at hs
      split at hs
      · rename_i k hp
        obtain ⟨sub, -, hs⟩ := Option.bind_eq_some_iff.mp hs
        split at hs
        · obtain ⟨err, -, hs⟩ := Option.bind_eq_some_iff.mp hs
          cases hs
          exact ⟨fun _ => rfl, List.prefix_rfl, fun _ _ h => h, returned_update (by simp [hp])⟩
        · cases hs
      · cases hs
  | fail p =>
      simp only [KvSystem.step] at hs
      split at hs
      · rename_i k hp
        cases hs
        exact ⟨fun _ => rfl, List.prefix_rfl, fun _ _ h => h, returned_update (by simp [hp])⟩
      · cases hs
  | complete p =>
      simp only [KvSystem.step] at hs
      split at hs
      · rename_i err hp
        obtain ⟨clerks, hc, hs⟩ := Option.bind_eq_some_iff.mp hs
        cases hs
        obtain ⟨call, hcall, -, -, -, hcalls, -⟩ := Clerks.complete_spec hc
        refine ⟨fun p' => ?_, List.prefix_rfl, fun _ _ h => h, returned_update (by simp [hp])⟩
        change clerks.calls[p']?.map callOf = _
        rw [hcalls]
        refine callOf_set hcall ?_ p'
        rfl
      · cases hs

/-! ### Each kind of step -/

omit [DecidableEq Ck] [Labgob (Op n Request)] [Gob] in
theorem opOf_put (s : KvService n Ck) (p : ℕ) :
    s.opOf (.put p) = (s.kv.clerks.calls[p]?.map callOf).map Shardkv.PutCall.op := by
  rw [KvService.opOf, Option.map_map]
  rfl

omit [DecidableEq Ck] [Labgob (Op n Request)] [Gob] in
theorem asks_mono {id : OpID n} {g : ℕ} (h : s.Asks id g)
    (hhandlers : s'.handlers id = s.handlers id)
    (hasked : s.asked <+: s'.asked) : s'.Asks id g := by
  obtain ⟨k, i, hid, hk⟩ := h
  obtain ⟨rest, hrest⟩ := hasked
  exact ⟨k, i, hhandlers.trans hid, hrest ▸ Pool.append hk rest⟩

theorem KvServiceInv.inner (h : KvServiceInv clientID epoch s) {a : KvAction n Ck}
    {kv : KvSystem n Ck} {leader : Ck → ℕ} {attempt : CallID → Attempt} (ha : a.Inner)
    (hkv : s.kv.step clientID a = some kv) :
    KvServiceInv clientID epoch { s with kv := kv, leader := leader, attempt := attempt } := by
  have hc := Continues.of_step ha (KvInv.reachable h.kv) hkv
  refine ⟨h.kv.step hkv, h.asked, h.calling,
    fun id args hid => h.handled id args (hc.gets id args hid),
    fun c op => ?_, fun c r hr => ?_⟩
  · rw [h.invoked c op]
    cases c with
    | get g => rfl
    | put p => rw [opOf_put, opOf_put, hc.calls p]
  · have hret := h.returned c r hr
    cases c with
    | get g => exact hret
    | put p =>
        obtain ⟨err, herr⟩ := hret
        exact ⟨err, hc.returned p err herr⟩

theorem KvServiceInv.invoke (h : KvServiceInv clientID epoch s) {gets : List (GetCall Ck)}
    {kv : KvSystem n Ck} (hkv : (kvSys clientID epoch).Reachable kv)
    (hrequests : kv.rsm.requests = s.kv.rsm.requests) (hphase : kv.phase = s.kv.phase)
    (hgets : s.gets <+: gets) {c : CallID} {op : KvOp} (hnew : s.opOf c = none)
    (hopOf : ∀ c', ({ s with kv := kv, gets := gets } : KvService n Ck).opOf c' =
      if c' = c then some op else s.opOf c') :
    KvServiceInv clientID epoch { s with
      kv := kv, gets := gets, history := s.history ++ [.invoke c op] } := by
  have hkeep : ∀ {g : ℕ} {call}, s.gets[g]? = some call → gets[g]? = some call := by
    intro g call hg
    obtain ⟨rest, rfl⟩ := hgets
    exact Pool.append hg rest
  refine ⟨hkv, fun k g i hk => ?_, h.calling, fun id args hid => ?_, fun c' op' => ?_,
    fun c' r hr => ?_⟩
  · obtain ⟨call, hg⟩ := h.asked k g i hk
    exact ⟨call, hkeep hg⟩
  · obtain ⟨g, call, hasks, hg, hkey⟩ := h.handled id args (hrequests ▸ hid)
    exact ⟨g, call, hasks, hkeep hg, hkey⟩
  · change _ ↔ ({ s with kv := kv, gets := gets } : KvService n Ck).opOf c' = some op'
    rw [hopOf, List.mem_append, List.mem_singleton, h.invoked c' op']
    split
    · rename_i heq
      subst heq
      simp [hnew, eq_comm]
    · rename_i hne
      simp [hne]
  · have hret := h.returned c' r (by simpa using hr)
    cases c' with
    | get g => exact hret
    | put p =>
        obtain ⟨err, herr⟩ := hret
        exact ⟨err, hphase ▸ herr⟩

section

omit [DecidableEq Ck] [Labgob (Op n Request)] [Gob]

theorem opOf_get_length (s : KvService n Ck) : s.opOf (.get s.gets.length) = none := by
  rw [KvService.opOf, List.getElem?_eq_none le_rfl, Option.map_none]

theorem opOf_put_length (s : KvService n Ck) : s.opOf (.put s.kv.clerks.calls.length) = none := by
  rw [KvService.opOf, List.getElem?_eq_none le_rfl, Option.map_none]

theorem opOf_get_concat (s : KvService n Ck) (call : GetCall Ck) (c : CallID) :
    ({ s with gets := s.gets ++ [call] } : KvService n Ck).opOf c =
      if c = .get s.gets.length then some (.get call.key) else s.opOf c := by
  cases c with
  | get g =>
      rw [KvService.opOf, getElem?_concat_map]
      simp only [CallID.get.injEq, KvService.opOf]
  | put p => rfl

end

theorem begin_calls {kv kv' : KvSystem n Ck} (h : KvInv clientID epoch kv) {ck : Ck}
    {key value : GoString} {version : Tversion}
    (hkv : kv.step clientID (.begin ck key value version) = some kv') :
    kv'.rsm = kv.rsm ∧ kv'.phase = kv.phase ∧ ∃ call : PutCall Ck, call.clerk = ck ∧
      Shardkv.PutCall.op call = .put key value version ∧
        kv'.clerks.calls = kv.clerks.calls ++ [call] := by
  obtain ⟨clerks, hc, hkv⟩ := Option.bind_eq_some_iff.mp hkv
  cases hkv
  obtain ⟨-, -, hcalls, -⟩ := Clerks.begin_spec h.clerks hc
  exact ⟨rfl, rfl, _, rfl, rfl, hcalls⟩

omit [DecidableEq Ck] [Labgob (Op n Request)] [Gob] in
theorem opOf_put_concat {kv : KvSystem n Ck} {call : PutCall Ck}
    (hcalls : kv.clerks.calls = s.kv.clerks.calls ++ [call]) (c : CallID) :
    ({ s with kv := kv } : KvService n Ck).opOf c =
      if c = .put s.kv.clerks.calls.length then some (Shardkv.PutCall.op call) else s.opOf c := by
  cases c with
  | get g => rfl
  | put p =>
      rw [KvService.opOf, hcalls, getElem?_concat_map]
      simp only [CallID.put.injEq, KvService.opOf]

theorem KvServiceInv.setPhase (h : KvServiceInv clientID epoch s) {g : ℕ} (phase : GetPhase)
    {asked : List (ℕ × Fin n)} (leader : Ck → ℕ) (attempt : CallID → Attempt)
    (hopen : s.phase g ≠ .returned) (hasked : s.asked <+: asked)
    (hmade : ∀ (k g : ℕ) i, asked[k]? = some (g, i) → ∃ call, s.gets[g]? = some call)
    (hcalling : ∀ k, phase = .calling k → ∃ i, asked[k]? = some (g, i)) :
    KvServiceInv clientID epoch { s.setPhase g phase with
      asked := asked, leader := leader, attempt := attempt } := by
  refine ⟨h.kv, hmade, fun g' k hk => ?_, fun id args hid => ?_, h.invoked, fun c r hr => ?_⟩
  · rcases eq_or_ne g' g with rfl | hne
    · exact hcalling k (by simpa [KvService.setPhase] using hk)
    · obtain ⟨i, hi⟩ := h.calling g' k (by simpa [KvService.setPhase, hne] using hk)
      obtain ⟨rest, rfl⟩ := hasked
      exact ⟨i, Pool.append hi rest⟩
  · obtain ⟨g', call, hasks, hg, hkey⟩ := h.handled id args hid
    exact ⟨g', call, asks_mono hasks rfl hasked, hg, hkey⟩
  · have hret := h.returned c r hr
    cases c with
    | get g' =>
        have hne : g' ≠ g := fun heq => hopen (heq ▸ hret)
        change Function.update s.phase g phase g' = .returned
        rwa [Function.update_of_ne hne]
    | put p => exact hret

theorem KvServiceInv.addRet (h : KvServiceInv clientID epoch s) {c : CallID} (hret : s.Returned c)
    (r : KvRes) : KvServiceInv clientID epoch { s with history := s.history ++ [.ret c r] } := by
  refine ⟨h.kv, h.asked, h.calling, h.handled, fun c' op => ?_, fun c' r' hr => ?_⟩
  · change _ ↔ s.opOf c' = some op
    simpa using h.invoked c' op
  · rcases List.mem_append.mp hr with hr | hr
    · exact h.returned c' r' hr
    · cases List.mem_singleton.mp hr
      exact hret

theorem KvServiceInv.step (h : KvServiceInv clientID epoch s) (hs : KvServiceStep clientID s s') :
    KvServiceInv clientID epoch s' := by
  cases hs with
  | inner a kv leader attempt ha hkv => exact h.inner ha hkv
  | get ck key =>
      exact h.invoke h.kv rfl rfl ⟨_, rfl⟩ (opOf_get_length s) (opOf_get_concat s ⟨ck, key⟩)
  | put ck key value version kv hkv =>
      obtain ⟨hrsm, hphase, call, -, hop, hcalls⟩ := begin_calls (KvInv.reachable h.kv) hkv
      refine h.invoke (h.kv.step hkv) (by rw [hrsm]) hphase List.prefix_rfl (opOf_put_length s)
        fun c => ?_
      rw [opOf_put_concat hcalls, hop]
  | ask g i call attempt hg hphase =>
      refine h.setPhase _ s.leader attempt (by simp [hphase]) ⟨_, rfl⟩ (fun k g' i' hk => ?_)
        fun k hk => ?_
      · rcases Pool.concat_cases hk with hk | ⟨-, heq⟩
        · exact h.asked k g' i' hk
        · cases heq
          exact ⟨call, hg⟩
      · cases hk
        exact ⟨i, List.getElem?_concat_length⟩
  | handle k g i call hk hg =>
      have hnext := (SubmitInv.reachable (KvInv.reachable h.kv).rsm).requests_next i
      refine ⟨h.kv.step (a := .get i ⟨call.key⟩) rfl, h.asked, h.calling, fun id args hid => ?_,
        h.invoked, h.returned⟩
      change (submitted s.kv.rsm i (.get ⟨call.key⟩)).requests id = _ at hid
      rw [requests_submitted, Function.update_apply] at hid
      split at hid
      · rename_i heq
        cases hid
        exact ⟨g, call, ⟨k, i, by rw [heq]; exact Function.update_self .., hk⟩, hg, rfl⟩
      · rename_i hne
        obtain ⟨g', call', hasks, hg', hkey⟩ := h.handled id args hid
        exact ⟨g', call', asks_mono hasks (Function.update_of_ne hne ..) List.prefix_rfl, hg', hkey⟩
  | retry g k leader attempt hphase =>
      exact h.setPhase .loop leader attempt (by simp [hphase]) List.prefix_rfl h.asked (by simp)
  | getReturn g k id reply leader hphase hid hout =>
      have hreturned := h.setPhase (g := g) .returned leader s.attempt
        (by simp [hphase]) List.prefix_rfl h.asked (by simp)
      exact hreturned.addRet (c := .get g) (Function.update_self ..) (.get reply)
  | putReturn p err kv hphase hkv =>
      have hcontinued : KvServiceInv clientID epoch { s with kv := kv } :=
        h.inner (a := .complete p) trivial hkv
      refine hcontinued.addRet (c := .put p) ⟨err, ?_⟩ (.put err)
      simp only [KvSystem.step, hphase] at hkv
      obtain ⟨clerks, -, hkv⟩ := Option.bind_eq_some_iff.mp hkv
      cases hkv
      exact Function.update_self ..

/-! ### The effects -/

/-- The effects of the calls in the first `m` operations of the log, among
what the clerks have seen. -/
structure Traced (s : KvService n Ck) (m : ℕ)
    (t : List (Event CallID KvOp KvRes ⊕ (CallID × KvOp × KvRes))) : Prop where
  trace : Trace kvSpec t
  history : Linearizability.history t = s.history
  values : kvSpec.run kvSpec.init (effects t) = entries (stateAt s.kv.history m).values
  put_run : ∀ p op r, (.put p, op, r) ∈ effects t → s.kv.runsBefore m p ≠ []
  run_put : ∀ p, ∀ reply ∈ s.kv.runsBefore m p, ∃ op, (.put p, op, .put reply.err) ∈ effects t
  get : ∀ k < m, ∀ op args, s.kv.history[k]? = some op → op.req = .get args → ∀ g, s.Asks op.id g →
    ∃ kop, (.get g, kop, .get ((stateAt s.kv.history k).get args)) ∈ effects t

variable {t : List (Event CallID KvOp KvRes ⊕ (CallID × KvOp × KvRes))} {m : ℕ}

/-- A `Get` in the log takes effect. -/
theorem Traced.execGet (h : Traced s m t) (hinv : KvServiceInv clientID epoch s)
    {op : Op n Request} {args : GetArgs} (hop : s.kv.history[m]? = some op)
    (hreq : op.req = .get args) : ∃ t', Traced s (m + 1) t' := by
  have hkv := KvInv.reachable hinv.kv
  obtain ⟨g, call, hasks, hg, hkey⟩ :=
    hinv.handled op.id args (hreq ▸ operation_submitted hkv.rsm hop)
  have hop' : s.opOf (.get g) = some (.get args.key) := by
    rw [KvService.opOf, hg, Option.map_some, hkey]
  have hinvoked : .invoke (.get g) (.get args.key) ∈ Linearizability.history t := by
    rw [h.history, hinv.invoked]
    exact hop'
  have htrace := h.trace.effect (.get g) (.get args.key) hinvoked (Or.inl fun _ => rfl)
  rw [h.values, kvSpec_get] at htrace
  have hruns : ∀ p, s.kv.runsBefore (m + 1) p = s.kv.runsBefore m p := by
    intro p
    unfold KvSystem.runsBefore
    cases s.kv.clerks.calls[p]? with
    | none => rfl
    | some call => simp [runsAt_succ hop, hreq, KVServer.runsFor]
  refine ⟨_, htrace, ?_, ?_, fun p kop r hmem => ?_, fun p reply hmem => ?_,
    fun k hk op₁ args₁ hop₁ hreq₁ g₁ hasks₁ => ?_⟩
  · rw [history_effect, h.history]
  · rw [effects_effect, Spec.run_concat, h.values, kvSpec_get, stateAt_get hop hreq]
  · rw [hruns]
    refine h.put_run p kop r ?_
    simpa using hmem
  · rw [hruns] at hmem
    obtain ⟨kop, hkop⟩ := h.run_put p reply hmem
    exact ⟨kop, by simp [hkop]⟩
  · rcases Nat.lt_succ_iff_lt_or_eq.mp hk with hk | rfl
    · obtain ⟨kop, hkop⟩ := h.get k hk op₁ args₁ hop₁ hreq₁ g₁ hasks₁
      exact ⟨kop, by simp [hkop]⟩
    · cases hop.symm.trans hop₁
      cases hreq.symm.trans hreq₁
      obtain ⟨j, i, hj, hi⟩ := hasks
      obtain ⟨j', i', hj', hi'⟩ := hasks₁
      cases hj.symm.trans hj'
      cases hi.symm.trans hi'
      exact ⟨.get args.key, by simp⟩

/-- A `Put` in the log takes effect if it is run. -/
theorem Traced.execPut (h : Traced s m t) (hinv : KvServiceInv clientID epoch s)
    {op : Op n Request} {args : PutArgs} (hop : s.kv.history[m]? = some op)
    (hreq : op.req = .put args) : ∃ t', Traced s (m + 1) t' := by
  have hkv := KvInv.reachable hinv.kv
  have hget : ∀ t', effects t <+: effects t' → ∀ k < m + 1, ∀ op₁ args₁,
      s.kv.history[k]? = some op₁ → op₁.req = .get args₁ → ∀ g, s.Asks op₁.id g →
        ∃ kop, (.get g, kop, .get ((stateAt s.kv.history k).get args₁)) ∈ effects t' := by
    intro t' hpre k hk op₁ args₁ hop₁ hreq₁ g hasks
    rcases Nat.lt_succ_iff_lt_or_eq.mp hk with hk | rfl
    · obtain ⟨kop, hkop⟩ := h.get k hk op₁ args₁ hop₁ hreq₁ g hasks
      exact ⟨kop, hpre.subset hkop⟩
    · cases hop.symm.trans hop₁
      cases hreq.symm.trans hreq₁
  obtain ⟨x, hx, rfl⟩ := hkv.puts m op args hop hreq
  obtain ⟨call, hcall, hfor, -⟩ := hkv.clerks.sent x hx
  have hself : s.kv.runsBefore (m + 1) x.call = s.kv.runsBefore m x.call ++
      (stateAt s.kv.history m).requests.runs x.args (putLocked x.args)
        (stateAt s.kv.history m).values := by
    rw [KvSystem.runsBefore_eq hcall, KvSystem.runsBefore_eq hcall, runsAt_succ hop, hreq, hfor]
    simp [KVServer.runsFor, Table.runsFor]
  have hother : ∀ p ≠ x.call, s.kv.runsBefore (m + 1) p = s.kv.runsBefore m p := by
    intro p hne
    cases hp : s.kv.clerks.calls[p]? with
    | none =>
        unfold KvSystem.runsBefore
        rw [hp]
    | some call' =>
        have hdiff : ¬ (x.args.clientID = call'.args.clientID ∧
            x.args.sequence = call'.args.sequence) := by
          rw [hfor]
          rintro ⟨hid, hq⟩
          exact hne (hkv.clerks.call_unique hp hcall hid.symm hq.symm)
        rw [KvSystem.runsBefore_eq hp, KvSystem.runsBefore_eq hp, runsAt_succ hop, hreq]
        simp [KVServer.runsFor, Table.runsFor, hdiff]
  cases Table.ran_of_doPut (hkv.puts_id m op x.args hop hreq) (stateAt_put hop hreq) with
  | kept hnil hstate =>
      have hruns : ∀ p, s.kv.runsBefore (m + 1) p = s.kv.runsBefore m p := by
        intro p
        rcases eq_or_ne p x.call with rfl | hne
        · rw [hself, hnil, List.append_nil]
        · exact hother p hne
      refine ⟨t, h.trace, h.history, ?_, fun p kop r hmem => ?_, fun p reply hmem => ?_,
        hget t List.prefix_rfl⟩
      · rw [h.values, hstate]
      · rw [hruns]
        exact h.put_run p kop r hmem
      · exact h.run_put p reply (hruns p ▸ hmem)
  | run hone happly =>
      -- the request has not been run before
      have hfresh : s.kv.runsBefore m x.call = [] := by
        have hle := hkv.length_le (List.getElem?_eq_some_iff.mp hop).1 x.call
        rw [hself, hone] at hle
        exact List.length_eq_zero_iff.mp (by simpa using hle)
      have hinvoked : .invoke (.put x.call) (.put x.args.key x.args.value x.args.version) ∈
          Linearizability.history t := by
        rw [h.history, hinv.invoked, KvService.opOf, hcall, hfor]
        rfl
      have htrace := h.trace.effect (.put x.call) (.put x.args.key x.args.value x.args.version)
        hinvoked (Or.inr fun y hy heq => by
          obtain ⟨c, kop, r⟩ := y
          obtain rfl : c = .put x.call := heq
          exact h.put_run x.call kop r hy hfresh)
      rw [h.values, kvSpec_put happly] at htrace
      refine ⟨_, htrace, ?_, ?_, fun p kop r hmem => ?_, fun p reply hmem => ?_, hget _ ?_⟩
      · rw [history_effect, h.history]
      · rw [effects_effect, Spec.run_concat, h.values, kvSpec_put happly]
      · rcases eq_or_ne p x.call with rfl | hne
        · rw [hself, hone]
          simp
        · rw [hother p hne]
          refine h.put_run p kop r ?_
          simpa [hne] using hmem
      · rcases eq_or_ne p x.call with rfl | hne
        · rw [hself, hfresh, hone, List.nil_append, List.mem_singleton] at hmem
          subst hmem
          exact ⟨_, by
            rw [effects_effect]
            exact List.mem_append_right _ (List.mem_singleton_self _)⟩
        · rw [hother p hne] at hmem
          obtain ⟨kop, hkop⟩ := h.run_put p reply hmem
          exact ⟨kop, by simp [hkop]⟩
      · rw [effects_effect]
        exact List.prefix_append _ _

theorem Traced.exec (h : Traced s m t) (hinv : KvServiceInv clientID epoch s) {m' : ℕ}
    (hle : m ≤ m') (hm : m' ≤ s.kv.history.length) : ∃ t', Traced s m' t' := by
  induction m', hle using Nat.le_induction with
  | base => exact ⟨t, h⟩
  | succ m' _ ih =>
      obtain ⟨t', h'⟩ := ih (by omega)
      obtain ⟨op, hop⟩ : ∃ op, s.kv.history[m']? = some op := ⟨_, List.getElem?_eq_getElem hm⟩
      cases hreq : op.req with
      | get args => exact h'.execGet hinv hop hreq
      | put args => exact h'.execPut hinv hop hreq

/-! ### Every run -/

omit [DecidableEq Ck] [Labgob (Op n Request)] in
theorem Traced.later (h : Traced s m t) (hm : m ≤ s.kv.history.length)
    (hgrow : s.kv.history <+: s'.kv.history)
    (hruns : ∀ p, s'.kv.runsBefore m p = s.kv.runsBefore m p) (hhistory : s'.history = s.history)
    (hasks : ∀ (k : ℕ) op args, s.kv.history[k]? = some op → op.req = .get args →
      ∀ g, s'.Asks op.id g → s.Asks op.id g) : Traced s' m t := by
  have hstate : ∀ k ≤ m, stateAt s'.kv.history k = stateAt s.kv.history k := fun k hk =>
    stateAt_mono hgrow (hk.trans hm)
  refine ⟨h.trace, h.history.trans hhistory.symm, ?_, fun p op r hmem => ?_,
    fun p reply hmem => h.run_put p reply (hruns p ▸ hmem), fun k hk op args hop hreq g hg => ?_⟩
  · rw [h.values, hstate m le_rfl]
  · rw [hruns p]
    exact h.put_run p op r hmem
  · rw [Pool.getElem?_eq hgrow (hk.trans_le hm)] at hop
    rw [hstate k hk.le]
    exact h.get k hk op args hop hreq g (hasks k op args hop hreq g hg)

omit [DecidableEq Ck] [Labgob (Op n Request)] in
theorem runsBefore_eq_of_calls {kv kv' : KvSystem n Ck} (hm : m ≤ kv.history.length)
    (hgrow : kv.history <+: kv'.history)
    (hcalls : ∀ p : ℕ, kv'.clerks.calls[p]?.map callOf = kv.clerks.calls[p]?.map callOf) (p : ℕ) :
    kv'.runsBefore m p = kv.runsBefore m p := by
  have hp := hcalls p
  cases hcall : kv.clerks.calls[p]? with
  | none =>
      rw [hcall, Option.map_none, Option.map_eq_none_iff] at hp
      rw [KvSystem.runsBefore, KvSystem.runsBefore, hcall, hp]
  | some call =>
      rw [hcall, Option.map_some] at hp
      obtain ⟨call', hcall', hargs⟩ := Option.map_eq_some_iff.mp hp
      have hid : (callOf call').args.clientID = (callOf call).args.clientID := by rw [hargs]
      have hq : (callOf call').args.sequence = (callOf call).args.sequence := by rw [hargs]
      rw [KvSystem.runsBefore_eq hcall, KvSystem.runsBefore_eq hcall', ← runsAt_mono hgrow hm]
      exact congrArg₂ (fun c q => runsAt kv'.history c q m) hid hq

omit [Labgob (Op n Request)] in
theorem runsAt_eq_nil {ops : List (Op n Request)} {c q : ℕ}
    (h : Puts (fun args => ¬ (args.clientID = c ∧ args.sequence = q)) ops) (m : ℕ) :
    runsAt ops c q m = [] := by
  induction m with
  | zero => rfl
  | succ m ih =>
      cases hop : ops[m]? with
      | none => rw [runsAt, ih, hop, List.append_nil]
      | some op =>
          rw [runsAt_succ hop, ih, List.nil_append]
          cases hreq : op.req with
          | get args => rfl
          | put args =>
              rw [KVServer.runsFor, Table.runsFor, if_neg (h m op args hop hreq)]

/-- A call that has just begun has not been run. -/
theorem runsBefore_begin {kv kv' : KvSystem n Ck} {ck : Ck} {key value : GoString}
    {version : Tversion} (h : (kvSys clientID epoch).Reachable kv)
    (hkv : kv.step clientID (.begin ck key value version) = some kv') (m p : ℕ) :
    kv'.runsBefore m p = kv.runsBefore m p := by
  have hinv := KvInv.reachable h
  have hinv' := KvInv.reachable (h.step hkv)
  obtain ⟨hrsm, -, call, -, -, hcalls⟩ := begin_calls hinv hkv
  have hhistory : kv'.history = kv.history := congrArg (·.raft.operations) hrsm
  rcases eq_or_ne p kv.clerks.calls.length with rfl | hne
  · have hnew : kv'.clerks.calls[kv.clerks.calls.length]? = some call := by
      rw [hcalls]
      exact List.getElem?_concat_length
    rw [KvSystem.runsBefore_eq hnew, KvSystem.runsBefore, List.getElem?_eq_none le_rfl, hhistory]
    refine runsAt_eq_nil (fun k op args hop hreq hsame => ?_) m
    obtain ⟨x, hx, rfl⟩ := hinv.puts k op args hop hreq
    obtain ⟨call₀, hcall₀, hfor, -⟩ := hinv.clerks.sent x hx
    rw [hfor] at hsame
    have hold : kv'.clerks.calls[x.call]? = some call₀ := by
      rw [hcalls]
      exact Pool.append hcall₀ _
    have heq := hinv'.clerks.call_unique hold hnew hsame.1 hsame.2
    have hlt := (List.getElem?_eq_some_iff.mp hcall₀).1
    omega
  · have hsame : kv'.clerks.calls[p]? = kv.clerks.calls[p]? := by
      rw [hcalls]
      rcases Nat.lt_or_gt_of_ne hne with hlt | hlt
      · exact List.getElem?_append_left hlt
      · rw [List.getElem?_eq_none hlt.le, List.getElem?_eq_none (by simp; omega)]
    rw [KvSystem.runsBefore, KvSystem.runsBefore, hsame, hhistory]

omit [DecidableEq Ck] [Labgob (Op n Request)] in
theorem Traced.event (h : Traced s m t) {e : Event CallID KvOp KvRes}
    (htrace : Trace kvSpec (t ++ [.inl e])) :
    Traced { s with history := s.history ++ [e] } m (t ++ [.inl e]) := by
  refine ⟨htrace, ?_, ?_, fun p op r hmem => ?_, fun p reply hmem => ?_,
    fun k hk op args hop hreq g hg => ?_⟩
  · rw [history_event, h.history]
  · rw [effects_event]
    exact h.values
  · rw [effects_event] at hmem
    exact h.put_run p op r hmem
  · rw [effects_event]
    exact h.run_put p reply hmem
  · rw [effects_event]
    exact h.get k hk op args hop hreq g hg

theorem Traced.invoke (h : Traced s m t) (hinv : KvServiceInv clientID epoch s) {c : CallID}
    (hnew : s.opOf c = none) (op : KvOp) :
    Traced { s with history := s.history ++ [.invoke c op] } m (t ++ [.inl (.invoke c op)]) := by
  refine h.event (h.trace.invoke c op fun op' hmem => ?_)
  rw [h.history, hinv.invoked, hnew] at hmem
  cases hmem

theorem Traced.ret (h : Traced s m t) (hinv : KvServiceInv clientID epoch s) {c : CallID}
    {op : KvOp}
    {r : KvRes} (heffect : (c, op, r) ∈ effects t) (hopen : ¬ s.Returned c) :
    Traced { s with history := s.history ++ [.ret c r] } m (t ++ [.inl (.ret c r)]) := by
  refine h.event (h.trace.ret c op r heffect fun r' hmem => ?_)
  rw [h.history] at hmem
  exact hopen (hinv.returned c r' hmem)

theorem Traced.told (h : Traced s s.kv.history.length t) (hinv : KvServiceInv clientID epoch s)
    {g k : ℕ} {id : OpID n} {reply : GetReply} (hphase : s.phase g = .calling k)
    (hid : s.handlers id = some k) (hout : s.outcome id = some (.ok (.get reply))) :
    ∃ op, (.get g, op, .get reply) ∈ effects t := by
  have hkv := KvInv.reachable hinv.kv
  obtain ⟨sub, hsub, hout⟩ := Option.bind_eq_some_iff.mp hout
  split at hout
  · rename_i outcome hreturned
    cases hout
    obtain ⟨j, op, hop, rfl, hreply⟩ :=
      (replies_reachable machine_lawful hkv.rsm).call id sub _ hsub
      (Or.inr (by rw [hreturned]; rfl))
    obtain ⟨i, hi⟩ := hinv.calling g k hphase
    cases hreq : op.req with
    | get args =>
        rw [hreq] at hreply
        rw [Reply.get.inj hreply]
        exact h.get j (List.getElem?_eq_some_iff.mp hop).1 op args hop hreq g ⟨k, i, hid, hi⟩
    | put args =>
        rw [hreq] at hreply
        cases hreply
  · cases hout

theorem Traced.step (h : Traced s s.kv.history.length t) (hinv : KvServiceInv clientID epoch s)
    (hs : KvServiceStep clientID s s') : ∃ t', Traced s' s'.kv.history.length t' := by
  have hinv' := hinv.step hs
  cases hs with
  | inner a kv leader attempt ha hkv =>
      have hc := Continues.of_step ha (KvInv.reachable hinv.kv) hkv
      have hlater : Traced { s with kv := kv, leader := leader, attempt := attempt }
          s.kv.history.length t :=
        h.later le_rfl hc.history (runsBefore_eq_of_calls le_rfl hc.history hc.calls) rfl
          fun _ _ _ _ _ _ hg => hg
      exact hlater.exec hinv' hc.history.length_le le_rfl
  | get ck key => exact ⟨_, (h.invoke hinv (opOf_get_length s) _).later le_rfl List.prefix_rfl
      (fun _ => rfl) rfl fun _ _ _ _ _ _ hg => hg⟩
  | put ck key value version kv hkv =>
      obtain ⟨hrsm, -⟩ := begin_calls (KvInv.reachable hinv.kv) hkv
      have hhistory : kv.history = s.kv.history := congrArg (·.raft.operations) hrsm
      change ∃ t', Traced _ kv.history.length t'
      rw [hhistory]
      exact ⟨_, (h.invoke hinv (opOf_put_length s) _).later le_rfl (hhistory ▸ List.prefix_rfl)
        (runsBefore_begin hinv.kv hkv _) rfl fun _ _ _ _ _ _ hg => hg⟩
  | ask g i call attempt hg hphase =>
      refine ⟨t, h.later le_rfl List.prefix_rfl (fun _ => rfl) rfl
        fun k op args hop hreq g' hg' => ?_⟩
      obtain ⟨g₀, -, hasks, -⟩ := hinv.handled op.id args
        (hreq ▸ operation_submitted (KvInv.reachable hinv.kv).rsm hop)
      obtain ⟨j, i', hj, hi'⟩ := hasks
      obtain ⟨j', i'', hj', hi''⟩ := hg'
      cases hj.symm.trans hj'
      cases (Pool.append hi' _).symm.trans hi''
      exact ⟨j, i', hj, hi'⟩
  | handle k g i call hk hg =>
      have hrsm := (KvInv.reachable hinv.kv).rsm
      refine ⟨t, h.later le_rfl List.prefix_rfl (fun _ => rfl) rfl
        fun j op args hop hreq g' hg' => ?_⟩
      obtain ⟨j', i', hj', hi'⟩ := hg'
      refine ⟨j', i', ?_, hi'⟩
      dsimp only at hj'
      rwa [Function.update_of_ne] at hj'
      -- the operation is that of an earlier call
      intro heq
      have hold := operation_submitted hrsm hop
      rw [heq, (SubmitInv.reachable hrsm).requests_next i] at hold
      cases hold
  | retry g k leader attempt hphase =>
      exact ⟨t, h.later le_rfl List.prefix_rfl (fun _ => rfl) rfl fun _ _ _ _ _ _ hg => hg⟩
  | getReturn g k id reply leader hphase hid hout =>
      obtain ⟨op, hop⟩ := h.told hinv hphase hid hout
      have hopen : ¬ s.Returned (.get g) := by simp [KvService.Returned, hphase]
      exact ⟨_, (h.ret hinv hop hopen).later le_rfl List.prefix_rfl (fun _ => rfl) rfl
        fun _ _ _ _ _ _ hg => hg⟩
  | putReturn p err kv hphase hkv =>
      have hc := Continues.of_step (a := .complete p) trivial (KvInv.reachable hinv.kv) hkv
      have hruns := (KvInv.reachable hinv.kv).answered p err (Or.inl hphase)
      have hmem : ⟨err⟩ ∈ s.kv.runs p := hruns ▸ List.mem_singleton_self _
      obtain ⟨op, hop⟩ := h.run_put p ⟨err⟩ hmem
      have hopen : ¬ s.Returned (.put p) := by simp [KvService.Returned, hphase]
      have hlater : Traced { s with
          kv := kv, history := s.history ++ [.ret (.put p) (.put err)] } s.kv.history.length _ :=
        (h.ret hinv hop hopen).later le_rfl hc.history
          (runsBefore_eq_of_calls le_rfl hc.history hc.calls) rfl fun _ _ _ _ _ _ hg => hg
      exact hlater.exec hinv' hc.history.length_le le_rfl

theorem KvServiceInv.init :
    KvServiceInv clientID epoch (KvService.init epoch : KvService n Ck) where
  kv := .init rfl
  asked k g i hk := by cases hk
  calling g k hk := by cases hk
  handled id args hid := by cases hid
  invoked c op := by cases c <;> simp [KvService.init, KvService.opOf, KvSystem.init, Clerks.init]
  returned c r hr := by cases hr

omit [DecidableEq Ck] in
theorem Traced.init : Traced (KvService.init epoch : KvService n Ck) 0 [] where
  trace := .nil
  history := rfl
  values := rfl
  put_run p op r h := by cases h
  run_put p reply h := by cases h
  get k hk := absurd hk (Nat.not_lt_zero k)

theorem KvServiceInv.reachable (hs : (kvServiceSys servers clientID epoch).Reachable s) :
    KvServiceInv clientID epoch s ∧ ∃ t, Traced s s.kv.history.length t := by
  refine hs.invariant
    (I := fun s => KvServiceInv clientID epoch s ∧ ∃ t, Traced s s.kv.history.length t)
    (fun s hi => ?_) fun s a s' _ h hstep => ?_
  · rw [hi]
    exact ⟨.init, [], Traced.init⟩
  · obtain ⟨hinv, t, htraced⟩ := h
    exact ⟨hinv.step (.of_step hstep), htraced.step hinv (.of_step hstep)⟩

/-! ### The leader of a clerk -/

/-- No clerk asks a server that it does not have. -/
structure LeaderInv (servers : Ck → List (Fin n)) (s : KvService n Ck) : Prop where
  leader : ∀ ck, servers ck ≠ [] → s.leader ck < (servers ck).length
  server : ∀ c ck, s.clerkOf c = some ck → servers ck ≠ [] →
    (s.attempt c).server < (servers ck).length
  fresh : ∀ c, s.clerkOf c = none → (s.attempt c).server = 0

omit [DecidableEq Ck] [Labgob (Op n Request)] [Gob] in
theorem LeaderInv.same (h : LeaderInv servers s) (hleader : s'.leader = s.leader)
    (hattempt : s'.attempt = s.attempt) (hclerk : ∀ c, s'.clerkOf c = s.clerkOf c ∨
      s.clerkOf c = none) : LeaderInv servers s' := by
  refine ⟨fun ck hne => hleader ▸ h.leader ck hne, fun c ck hc hne => ?_, fun c hc => ?_⟩
  · rw [hattempt]
    rcases hclerk c with heq | hnone
    · exact h.server c ck (heq ▸ hc) hne
    · rw [h.fresh c hnone]
      exact List.length_pos_iff.mpr hne
  · rw [hattempt]
    rcases hclerk c with heq | hnone
    · exact h.fresh c (heq ▸ hc)
    · exact h.fresh c hnone

omit [Labgob (Op n Request)] [Gob] in
theorem LeaderInv.rememberLeader (h : LeaderInv servers s) {ck : Ck} {server : ℕ}
    (hserver : servers ck ≠ [] → server < (servers ck).length) :
    LeaderInv servers (s.rememberLeader ck server) := by
  refine ⟨fun ck' hne => ?_, h.server, h.fresh⟩
  unfold KvService.rememberLeader
  dsimp only
  rcases eq_or_ne ck' ck with rfl | hck
  · rw [Function.update_self]
    exact hserver hne
  · rw [Function.update_of_ne hck]
    exact h.leader ck' hne

omit [DecidableEq Ck] [Labgob (Op n Request)] [Gob] in
theorem LeaderInv.setAttempt (h : LeaderInv servers s) {c : CallID} {ck : Ck} (attempt : Attempt)
    (hc : s.clerkOf c = some ck)
    (hserver : servers ck ≠ [] → attempt.server < (servers ck).length) :
    LeaderInv servers (s.setAttempt c attempt) := by
  refine ⟨h.leader, fun c' ck' hc' hne => ?_, fun c' hc' => ?_⟩
  · unfold KvService.setAttempt
    dsimp only
    rcases eq_or_ne c' c with rfl | hcc
    · rw [Function.update_self]
      cases hc.symm.trans hc'
      exact hserver hne
    · rw [Function.update_of_ne hcc]
      exact h.server c' ck' hc' hne
  · unfold KvService.setAttempt
    dsimp only
    rw [Function.update_of_ne]
    · exact h.fresh c' hc'
    · rintro rfl
      cases hc.symm.trans hc'

omit [Labgob (Op n Request)] [Gob] in
theorem LeaderInv.retryAfterFailure (h : LeaderInv servers s) {c : CallID} {ck : Ck}
    (hc : s.clerkOf c = some ck) : LeaderInv servers (s.retryAfterFailure servers c ck) := by
  unfold KvService.retryAfterFailure KvService.advanceLeader
  dsimp only
  split
  · refine (h.rememberLeader fun hne => ?_).setAttempt _ hc (h.server c ck hc)
    exact Nat.mod_lt _ (List.length_pos_iff.mpr hne)
  · exact h.setAttempt _ hc (h.server c ck hc)

omit [DecidableEq Ck] [Labgob (Op n Request)] [Gob] in
theorem clerkOf_inner {kv : KvSystem n Ck} (hc : Continues s.kv kv) (c : CallID) :
    ({ s with kv := kv } : KvService n Ck).clerkOf c = s.clerkOf c := by
  cases c with
  | get g => rfl
  | put p =>
      have hcalls := congrArg (Option.map Dedup.PutCall.clerk) (hc.calls p)
      rw [Option.map_map, Option.map_map] at hcalls
      exact hcalls

omit [DecidableEq Ck] [Labgob (Op n Request)] [Gob] in
theorem LeaderInv.inner (h : LeaderInv servers s) {kv : KvSystem n Ck} (hc : Continues s.kv kv) :
    LeaderInv servers { s with kv := kv } :=
  h.same rfl rfl fun c => Or.inl (clerkOf_inner hc c)

theorem LeaderInv.step (h : LeaderInv servers s) (hinv : KvInv clientID epoch s.kv)
    {a : KvServiceAction n Ck} (hs : s.step servers clientID a = some s') :
    LeaderInv servers s' := by
  cases a with
  | rsm a =>
      obtain ⟨kv, hkv, hs⟩ := Option.bind_eq_some_iff.mp hs
      cases hs
      exact h.inner (.of_step (a := .rsm a) trivial hinv hkv)
  | get ck key =>
      cases hs
      refine h.same rfl rfl fun c => ?_
      cases c with
      | get g =>
          rcases eq_or_ne g s.gets.length with rfl | hne
          · exact Or.inr (by simp [KvService.clerkOf])
          · refine Or.inl ?_
            simp only [KvService.clerkOf]
            rw [getElem?_concat_map, if_neg hne]
      | put p => exact Or.inl rfl
  | put ck key value version =>
      obtain ⟨kv, hkv, hs⟩ := Option.bind_eq_some_iff.mp hs
      cases hs
      obtain ⟨-, -, call, -, -, hcalls⟩ := begin_calls hinv hkv
      refine h.same rfl rfl fun c => ?_
      cases c with
      | get g => exact Or.inl rfl
      | put p =>
          rcases eq_or_ne p s.kv.clerks.calls.length with rfl | hne
          · exact Or.inr (by simp [KvService.clerkOf])
          · refine Or.inl ?_
            simp only [KvService.clerkOf, hcalls]
            rw [getElem?_concat_map, if_neg hne]
  | ack p =>
      obtain ⟨kv, hkv, hs⟩ := Option.bind_eq_some_iff.mp hs
      cases hs
      exact h.inner (.of_step (a := .ack p) trivial hinv hkv)
  | send c =>
      obtain ⟨ck, hck, hs⟩ := Option.bind_eq_some_iff.mp hs
      obtain ⟨i, hi, hs⟩ := Option.bind_eq_some_iff.mp hs
      have hset := h.setAttempt { s.attempt c with server := s.leader ck } hck (h.leader ck)
      cases c with
      | get g =>
          dsimp only at hs
          split at hs
          · cases hs
            exact hset.same rfl rfl fun c => Or.inl (by cases c <;> rfl)
          · cases hs
      | put p =>
          obtain ⟨kv, hkv, hs⟩ := Option.bind_eq_some_iff.mp hs
          cases hs
          exact hset.inner (.of_step (a := .send p i) trivial hinv hkv)
  | handleGet k =>
      obtain ⟨⟨g, i⟩, hk, hs⟩ := Option.bind_eq_some_iff.mp hs
      obtain ⟨call, hg, hs⟩ := Option.bind_eq_some_iff.mp hs
      cases hs
      exact h.same rfl rfl fun c => Or.inl (by cases c <;> rfl)
  | handlePut k =>
      obtain ⟨kv, hkv, hs⟩ := Option.bind_eq_some_iff.mp hs
      cases hs
      exact h.inner (.of_step (a := .handle k) trivial hinv hkv)
  | reply c id =>
      obtain ⟨ck, hck, hs⟩ := Option.bind_eq_some_iff.mp hs
      cases c with
      | get g =>
          have hphase : ∀ phase, LeaderInv servers (s.setPhase g phase) := fun phase =>
            h.same rfl rfl fun c => Or.inl (by cases c <;> rfl)
          dsimp only at hs
          split at hs
          · split at hs
            · obtain ⟨outcome, -, hs⟩ := Option.bind_eq_some_iff.mp hs
              obtain ⟨reply, -, hs⟩ := Option.bind_eq_some_iff.mp hs
              have hremember := (hphase .returned).rememberLeader (h.server (.get g) ck hck)
              split at hs
              · cases hs
                exact hremember.same rfl rfl fun c => Or.inl (by cases c <;> rfl)
              · cases hs
                exact hremember.same rfl rfl fun c => Or.inl (by cases c <;> rfl)
              · cases hs
                exact (hphase .loop).retryAfterFailure hck
            · cases hs
          · cases hs
      | put p =>
          obtain ⟨kv, hkv, hs⟩ := Option.bind_eq_some_iff.mp hs
          have hc := Continues.of_step (a := .reply p id) trivial hinv hkv
          have hck' := (clerkOf_inner hc (.put p)).trans hck
          split at hs
          · cases hs
            exact (h.inner hc).retryAfterFailure hck'
          · cases hs
            exact (h.inner hc).rememberLeader (h.server (.put p) ck hck)
          · cases hs
            exact h.inner hc
  | fail c =>
      obtain ⟨ck, hck, hs⟩ := Option.bind_eq_some_iff.mp hs
      cases c with
      | get g =>
          dsimp only at hs
          split at hs
          · cases hs
            have hphase : LeaderInv servers (s.setPhase g .loop) :=
              h.same rfl rfl fun c => Or.inl (by cases c <;> rfl)
            exact hphase.retryAfterFailure hck
          · cases hs
      | put p =>
          obtain ⟨kv, hkv, hs⟩ := Option.bind_eq_some_iff.mp hs
          cases hs
          have hc := Continues.of_step (a := .fail p) trivial hinv hkv
          exact (h.inner hc).retryAfterFailure ((clerkOf_inner hc (.put p)).trans hck)
  | complete p =>
      simp only [KvService.step] at hs
      split at hs
      · obtain ⟨kv, hkv, hs⟩ := Option.bind_eq_some_iff.mp hs
        cases hs
        have hinner := h.inner (.of_step (a := .complete p) trivial hinv hkv)
        exact hinner.same rfl rfl fun c => Or.inl (by cases c <;> rfl)
      · cases hs

theorem LeaderInv.reachable (hs : (kvServiceSys servers clientID epoch).Reachable s) :
    LeaderInv servers s := by
  refine hs.invariant (fun s hi => ?_) fun s a s' hr h hstep =>
    h.step (KvInv.reachable (KvServiceInv.reachable hr).1.kv) hstep
  rw [hi]
  exact ⟨fun _ hne => List.length_pos_iff.mpr hne, fun _ _ _ hne => List.length_pos_iff.mpr hne,
    fun _ _ => rfl⟩

/-- **The replicated service is linearizable.** For any clerks with any
number of calls at a time, the calls of `Get` and `Put` are those of one
versioned map; and the server that a clerk would ask next is one that it
has. -/
theorem kvraft_linearizable (hs : (kvServiceSys servers clientID epoch).Reachable s) :
    Linearizable kvSpec s.history ∧
      ∀ ck, servers ck ≠ [] → s.leader ck < (servers ck).length := by
  obtain ⟨-, t, h⟩ := KvServiceInv.reachable hs
  refine ⟨?_, (LeaderInv.reachable hs).leader⟩
  rw [← h.history]
  exact h.trace.linearizable

end

/-- The second of two servers, their leader, runs a submission. -/
def leaderRuns (q : ℕ) : List (KvServiceAction 2 Unit) :=
  [.start ⟨1, 0, q⟩, .raft (.replicate 1 0), .raft (.deliver 0), .raft (.deliver 0),
    .raft (.claim 1), .receive 1, .execute 1, .compact 1 false, .notify 1, .result ⟨1, 0, q⟩,
    .removeWaiter ⟨1, 0, q⟩].map .rsm

/-- A clerk asks the first server, which refuses its `Put`, and then the
second; a `Get` of the clerk goes to the second server at once. -/
def putThenGet : List (KvServiceAction 2 Unit) := List.flatten
  [[.rsm (.raft (.startElection 1)), .rsm (.raft (.deliver 0)), .rsm (.raft (.deliver 0)),
      .put () [107] [118] 0, .ack 0, .send (.put 0), .handlePut 0, .rsm (.start ⟨0, 0, 1⟩),
      .rsm (.removeWaiter ⟨0, 0, 1⟩), .reply (.put 0) ⟨0, 0, 1⟩, .ack 0, .send (.put 0),
      .handlePut 1],
    leaderRuns 1,
    [.reply (.put 0) ⟨1, 0, 1⟩, .complete 0, .get () [107], .send (.get 0), .handleGet 0],
    leaderRuns 2,
    [.reply (.get 0) ⟨1, 0, 2⟩]]

def aClientID : Unit ↪ {id : ℕ // id ≠ 0} := ⟨fun _ => ⟨1, by decide⟩, fun _ _ _ => rfl⟩

def servedPutThenGet [Gob] [Labgob (Op 2 Request)] : KvService 2 Unit :=
  play (KvService.step (fun _ => [0, 1]) aClientID) (.init fun _ => 0) putThenGet

theorem reachable_servedPutThenGet [Gob] [Labgob (Op 2 Request)] :
    (kvServiceSys (fun _ => [0, 1]) aClientID fun _ => 0).Reachable servedPutThenGet :=
  reachable_play _ _ putThenGet

theorem kvraft_linearizable_putThenGet :
    let _ : Gob := someGob
    let _ : Labgob (Op 2 Request) := someLabgob
    servedPutThenGet.history = [.invoke (.put 0) (.put [107] [118] 0), .ret (.put 0) (.put .ok),
      .invoke (.get 0) (.get [107]), .ret (.get 0) (.get ⟨[118], 1, .ok⟩)] ∧
    Linearizable kvSpec servedPutThenGet.history ∧ servedPutThenGet.leader () = 1 := by
  intro _ _
  exact ⟨by decide +kernel, (kvraft_linearizable reachable_servedPutThenGet).1, by decide +kernel⟩

end RaftShardedKv.Kvraft
