import RaftShardedKv.Shard.Service

/-!
The sharded service is one versioned map.

A `Put` takes effect where the table of its shard runs it, a `Get` where a
group that serves the shard executes it. Both are about the content of
the shard, which is what one group has at a time and which no migration
changes, so the effects of all calls, in the order in which they happen,
are a run of the map. The table that knows which requests have been run
goes along with the content, so none is run twice.
-/

namespace RaftShardedKv.Shardkv

open Dedup Transition Linearizability

/-! ### One `Put` -/

section

variable {args : PutArgs} {values values' : GoMap GoString ValueEntry} {reply : PutReply}

theorem applyPut_of_ne (h : ShardState.applyPut args values = some (values', reply))
    {key : GoString} (hne : key ≠ args.key) : values'.get key = values.get key := by
  unfold ShardState.applyPut at h
  dsimp only at h
  split at h
  · cases h
    rfl
  · split at h
    · cases h
      rfl
    · obtain ⟨values'', hset, h⟩ := Option.bind_eq_some_iff.mp h
      cases h
      rw [GoMap.get_set hset, if_neg hne]

/-- What a group does to the values of a shard, the map does. -/
theorem kvSpec_put (h : ShardState.applyPut args values = some (values', reply))
    {m m' : GoString → Option ValueEntry} (hm : m args.key = values.get args.key)
    (hself : m' args.key = values'.get args.key) (hother : ∀ key ≠ args.key, m' key = m key) :
    kvSpec.apply m (.put args.key args.value args.version) = (m', .put reply.err) := by
  have hsame : values'.get args.key = values.get args.key → m' = m := by
    intro heq
    ext1 key
    rcases eq_or_ne key args.key with rfl | hne
    · rw [hself, heq, hm]
    · exact hother key hne
  have hset : ∀ entry, values'.get args.key = some entry →
      m' = Function.update m args.key (some entry) := by
    intro entry heq
    ext1 key
    rcases eq_or_ne key args.key with rfl | hne
    · rw [Function.update_self, hself, heq]
    · rw [Function.update_of_ne hne, hother key hne]
  unfold ShardState.applyPut at h
  dsimp only at h
  cases hget : values.get args.key with
  | none =>
      rw [hget] at h hm
      simp only [kvSpec, hm]
      by_cases hzero : args.version = 0
      · rw [if_pos hzero]
        rw [hzero, if_neg (by simp), if_neg (by simp)] at h
        obtain ⟨values'', hwrite, h⟩ := Option.bind_eq_some_iff.mp h
        cases h
        rw [hset ⟨args.value, 1⟩ (by rw [GoMap.get_set hwrite, if_pos rfl]; rfl)]
      · rw [if_neg hzero]
        rw [if_pos ⟨rfl, hzero⟩] at h
        cases h
        rw [hsame rfl]
  | some entry =>
      rw [hget] at h hm
      simp only [kvSpec, hm]
      rw [if_neg (by simp)] at h
      dsimp only [Option.getD_some] at h
      by_cases hversion : args.version = entry.version
      · rw [if_pos hversion]
        rw [if_neg (by simp [hversion])] at h
        obtain ⟨values'', hwrite, h⟩ := Option.bind_eq_some_iff.mp h
        cases h
        rw [hset ⟨args.value, entry.version + 1⟩ (by rw [GoMap.get_set hwrite, if_pos rfl]),
          hversion]
      · rw [if_neg hversion]
        rw [if_pos (Ne.symm hversion)] at h
        cases h
        rw [hsame rfl]

end

theorem kvSpec_get_readOnly (key : GoString) : kvSpec.ReadOnly (.get key) := fun _ => rfl

variable {Ctl Ck : Type}

noncomputable def valuesOf (s : ShardSystem Ctl) (key : GoString) : Option ValueEntry :=
  (s.content (key2Shard key)).values.get key

variable [DecidableEq Ctl] [DecidableEq Ck]

/-- What becomes of a `Put` at a group. -/
inductive Executed (args : PutArgs) (s : ShardSystem Ctl) (reply : PutReply)
    (runs : List PutReply) (s' : ShardSystem Ctl) : Prop
  | refused (hreply : reply = ⟨.errWrongGroup⟩) (hruns : runs = [])
      (hcontent : ∀ x, s'.content x = s.content x)
  | done (hruns : runs = (s.content (key2Shard args.key)).requests.runs args
        (ShardState.applyPut args) (s.content (key2Shard args.key)).values)
      (hdo : (s.content (key2Shard args.key)).requests.doPut args (ShardState.applyPut args)
          (s.content (key2Shard args.key)).values =
        some ((s'.content (key2Shard args.key)).requests,
          (s'.content (key2Shard args.key)).values, reply))
      (hcontent : ∀ x ≠ key2Shard args.key, s'.content x = s.content x)

section

variable {id : Ctl ↪ GoString} {clientID : Ck ↪ {id : ℕ // id ≠ 0}}

theorem executed_of_doOp {s s' : ShardSystem Ctl} (hr : (shardSys .assigned id).Reachable s)
    (hr' : (shardSys .assigned id).Reachable s') {gid : Tgid} {kv : KVServer}
    (hgroups : s'.groups = Function.update s.groups gid kv) {args : PutArgs} {reply : PutReply}
    (hdo : (s.groups gid).doOp (.put args) = some (kv, .put reply)) :
    Executed args s reply (putRuns (s.groups gid (key2Shard args.key)) args) s' := by
  have hother : ∀ x ≠ key2Shard args.key, s'.content x = s.content x := by
    intro x hx
    rcases content_put hr hr' hgroups hdo x with ⟨-, hcontent⟩ | ⟨heq, -⟩
    · exact hcontent
    · exact absurd heq.symm hx
  rcases content_put hr hr' hgroups hdo (key2Shard args.key) with
    ⟨hwhy, hcontent⟩ | ⟨-, hserving, hcontent, hdo⟩
  · obtain ⟨hstatus, hreply⟩ := hwhy.resolve_left (not_not.mpr rfl)
    refine .refused hreply (if_neg hstatus) fun x => ?_
    rcases eq_or_ne x (key2Shard args.key) with rfl | hx
    · exact hcontent
    · exact hother x hx
  · refine .done ?_ hdo hother
    rw [putRuns, if_pos hserving, hcontent]

/-! ### One step -/

variable {G : Configs} {s s' : Service Ctl Ck}

/-- A call of `Get` is told something that it may be told. -/
def Service.GetTold (s : Service Ctl Ck) (g : ℕ) (reply : GetReply) : Prop :=
  reply.err = .errWrongLeader ∨
    ∃ e ∈ s.getExecs, ∃ r, s.clerks.pc (.get g) = .calling r e.rpc ∧ e.reply = reply

/-- A call of `Put` is told something that it may be told. -/
def Service.PutTold (s : Service Ctl Ck) (p : ℕ) (reply : PutReply) : Prop :=
  reply.err = .errWrongLeader ∨
    ∃ e ∈ s.putExecs, ∃ r, s.clerks.pc (.put p) = .calling r e.rpc ∧ e.reply = reply

/-- What a step can do. -/
inductive ServiceStep (G : Configs) (id : Ctl → GoString) (clientID : Ck ↪ {id : ℕ // id ≠ 0})
    (s : Service Ctl Ck) : Service Ctl Ck → Prop
  | controller (a : ShardAction Ctl) (shards : ShardSystem Ctl)
      (hs : (shardSys G id).step s.shards a shards) (hclient : ∀ gid req, a ≠ .client gid req) :
      ServiceStep G id clientID s { s with shards := shards }
  | clerk (a : ClerkAction Ck) (clerks : ClerkState Ck) (hs : ClerkStep clientID s.clerks a clerks)
      (hget : ∀ g reply, a = .getReply g reply → s.GetTold g reply)
      (hput : ∀ p reply, a = .putReply p reply → s.PutTold p reply) :
      ServiceStep G id clientID s { s with clerks := clerks }
  | get (k g : ℕ) (gid : Tgid) (call : GetCall Ck) (hk : s.clerks.asked[k]? = some (g, gid))
      (hg : s.clerks.gets[g]? = some call) :
      ServiceStep G id clientID s { s with getExecs := s.getExecs ++
        [⟨k, (s.shards.groups gid (key2Shard call.key)).get ⟨call.key⟩⟩] }
  | put (k : ℕ) (x : Sent Tgid) (kv : KVServer) (reply : PutReply)
      (hk : s.clerks.puts.sent[k]? = some x)
      (hdo : (s.shards.groups x.dst).doOp (.put x.args) = some (kv, .put reply)) :
      ServiceStep G id clientID s { s.setGroup x.dst kv with putExecs := s.putExecs ++
        [⟨k, x, reply, putRuns (s.shards.groups x.dst (key2Shard x.args.key)) x.args⟩] }

theorem ServiceStep.of_clerk {a : ClerkAction Ck} (hs : s.clerkStep clientID a = some s')
    (hget : ∀ g reply, a = .getReply g reply → s.GetTold g reply)
    (hput : ∀ p reply, a = .putReply p reply → s.PutTold p reply) :
    ServiceStep G id clientID s s' := by
  obtain ⟨clerks, hclerks, heq⟩ := Option.bind_eq_some_iff.mp hs
  cases heq
  exact .clerk a clerks (.of_step hclerks) hget hput

theorem ServiceStep.of_getReply {g : ℕ} {reply : GetReply}
    (hs : s.clerkStep clientID (.getReply g reply) = some s') (htold : s.GetTold g reply) :
    ServiceStep G id clientID s s' := by
  refine .of_clerk hs (fun g' reply' h => ?_) fun _ _ h => by cases h
  cases h
  exact htold

theorem ServiceStep.of_putReply {p : ℕ} {reply : PutReply}
    (hs : s.clerkStep clientID (.putReply p reply) = some s') (htold : s.PutTold p reply) :
    ServiceStep G id clientID s s' := by
  refine .of_clerk hs (fun _ _ h => by cases h) fun p' reply' h => ?_
  cases h
  exact htold

theorem ServiceStep.of_step {a : ServiceAction Ctl Ck}
    (hs : (serviceSys G id clientID).step s a s') : ServiceStep G id clientID s s' := by
  obtain ⟨hgiven, hs⟩ := hs
  cases a with
  | controller a =>
      change s.step id clientID (.controller a) = some s' at hs
      simp only [Service.step] at hs
      split at hs
      · cases hs
      · rename_i hnot
        obtain ⟨shards, hshards, heq⟩ := Option.bind_eq_some_iff.mp hs
        cases heq
        exact .controller a shards ⟨hgiven, hshards⟩ hnot
  | clerk a =>
      change s.step id clientID (.clerk a) = some s' at hs
      simp only [Service.step] at hs
      split at hs
      · cases hs
      · cases hs
      · cases hs
      · rename_i _ hget hput
        exact .of_clerk hs (fun g reply h => absurd h (hget g reply))
          fun p reply h => absurd h (hput p reply)
  | query c => exact .of_clerk hs (fun _ _ h => by cases h) fun _ _ h => by cases h
  | executeGet k =>
      obtain ⟨⟨g, gid⟩, hk, hs⟩ := Option.bind_eq_some_iff.mp hs
      obtain ⟨call, hg, hs⟩ := Option.bind_eq_some_iff.mp hs
      have heq : s.setGroup gid (s.shards.groups gid) = s := by
        unfold Service.setGroup
        rw [Function.update_eq_self]
      simp only [KVServer.doOp, heq, Option.some.injEq] at hs
      cases hs
      exact .get k g gid call hk hg
  | executePut k =>
      obtain ⟨x, hk, hs⟩ := Option.bind_eq_some_iff.mp hs
      dsimp only at hs
      split at hs
      · rename_i kv reply hdo
        cases hs
        exact .put k x kv reply hk hdo
      · cases hs
  | getReply g i =>
      obtain ⟨exec, hi, hs⟩ := Option.bind_eq_some_iff.mp hs
      split at hs
      · rename_i r k hpc
        split at hs
        · rename_i heq
          exact .of_getReply hs
            (Or.inr ⟨exec, List.mem_of_getElem? hi, r, by rw [hpc, heq], rfl⟩)
        · cases hs
      · cases hs
  | putReply p i =>
      obtain ⟨exec, hi, hs⟩ := Option.bind_eq_some_iff.mp hs
      split at hs
      · rename_i r k hpc
        split at hs
        · rename_i heq
          exact .of_putReply hs
            (Or.inr ⟨exec, List.mem_of_getElem? hi, r, by rw [hpc, heq], rfl⟩)
        · cases hs
      · cases hs
  | refuse c =>
      cases c with
      | get g => exact .of_getReply hs (Or.inl rfl)
      | put p => exact .of_putReply hs (Or.inl rfl)

/-! ### The runs of a `Put` -/

/-- The runs of a client's request on a shard. -/
def runsOn (execs : List PutExec) (x : Tshid) (c q : ℕ) : List PutReply :=
  execs.flatMap fun e => if key2Shard e.request.args.key = x ∧ e.request.args.clientID = c ∧
    e.request.args.sequence = q then e.runs else []

theorem runsOn_concat (execs : List PutExec) (e : PutExec) (x : Tshid) (c q : ℕ) :
    runsOn (execs ++ [e]) x c q = runsOn execs x c q ++
      if key2Shard e.request.args.key = x ∧ e.request.args.clientID = c ∧
        e.request.args.sequence = q then e.runs else [] := by
  simp [runsOn]

omit [DecidableEq Ctl] [DecidableEq Ck] in
theorem Service.runs_concat (s : Service Ctl Ck) (e : PutExec) (p : ℕ) :
    Service.runs { s with putExecs := s.putExecs ++ [e] } p =
      s.runs p ++ if e.request.call = p then e.runs else [] := by
  simp [Service.runs]

omit [DecidableEq Ctl] [DecidableEq Ck] in
theorem runs_eq_runsOn (hinv : s.clerks.puts.Inv clientID)
    (hsent : ∀ e ∈ s.putExecs, e.request ∈ s.clerks.puts.sent) {p : ℕ} {call : PutCall Ck}
    (hp : s.clerks.puts.calls[p]? = some call) :
    s.runs p = runsOn s.putExecs (key2Shard call.args.key) call.args.clientID
      call.args.sequence := by
  refine List.flatMap_congr fun e he => if_congr ?_ rfl rfl
  obtain ⟨call', hcall', hfor, -⟩ := hinv.sent e.request (hsent e he)
  rw [hfor]
  constructor
  · intro heq
    rw [heq, hp] at hcall'
    cases hcall'
    exact ⟨rfl, rfl, rfl⟩
  · rintro ⟨-, hid, hq⟩
    exact hinv.call_unique hcall' hp hid hq

/-! ### The invariant -/

structure ServiceInv (id : Ctl ↪ GoString) (clientID : Ck ↪ {id : ℕ // id ≠ 0})
    (s : Service Ctl Ck) : Prop where
  shards : (shardSys .assigned id).Reachable s.shards
  clerks : ClerkInv clientID s.clerks
  within : ∀ x, (s.shards.content x).requests.Within (s.clerks.puts.watermark clientID)
  recorded : ∀ x c q, (s.shards.content x).requests.Recorded c q (runsOn s.putExecs x c q)
  sent : ∀ e ∈ s.putExecs, s.clerks.puts.sent[e.rpc]? = some e.request
  /-- A reply that a call may still wait for is that of a run. -/
  executed : ∀ e ∈ s.putExecs, e.reply = ⟨.errWrongGroup⟩ ∨ e.reply ∈ s.runs e.request.call ∨
    s.clerks.pc (.put e.request.call) = .returned
  returning : ∀ p err, s.clerks.pc (.put p) = .returning err → ⟨err⟩ ∈ s.runs p

/-- The effects of the calls, in their order. -/
structure Linearized (s : Service Ctl Ck)
    (t : List (Event CallID KvOp KvRes ⊕ (CallID × KvOp × KvRes))) : Prop where
  trace : Trace kvSpec t
  history : history t = s.clerks.history
  values : kvSpec.run kvSpec.init (effects t) = valuesOf s.shards
  put_run : ∀ p op r, (.put p, op, r) ∈ effects t → s.runs p ≠ []
  run_put : ∀ p, ∀ reply ∈ s.runs p, ∃ op, (.put p, op, .put reply.err) ∈ effects t
  get : ∀ e ∈ s.getExecs, e.reply.err = .errWrongGroup ∨ ∃ g gid,
    s.clerks.asked[e.rpc]? = some (g, gid) ∧ ∃ op, (.get g, op, .get e.reply) ∈ effects t

omit [DecidableEq Ck] in
theorem ServiceInv.mem_sent (h : ServiceInv id clientID s) :
    ∀ e ∈ s.putExecs, e.request ∈ s.clerks.puts.sent :=
  fun e he => List.mem_of_getElem? (h.sent e he)

omit [DecidableEq Ck] in
theorem ServiceInv.length_runs_le (h : ServiceInv id clientID s) (p : ℕ) :
    (s.runs p).length ≤ 1 := by
  cases hp : s.clerks.puts.calls[p]? with
  | some call =>
      rw [runs_eq_runsOn h.clerks.puts h.mem_sent hp]
      exact (h.recorded _ _ _).length_le
  | none =>
      have hnil : s.runs p = [] := by
        refine List.flatMap_eq_nil_iff.mpr fun e he => if_neg ?_
        rintro rfl
        obtain ⟨call, hcall, -⟩ := h.clerks.puts.sent e.request (h.mem_sent e he)
        cases hp.symm.trans hcall
      rw [hnil]
      exact Nat.zero_le 1

/-! ### The controllers -/

omit [DecidableEq Ck] in
theorem ServiceInv.controller (h : ServiceInv id clientID s) {a : ShardAction Ctl}
    {shards : ShardSystem Ctl} (hs : (shardSys .assigned id).step s.shards a shards)
    (hclient : ∀ gid req, a ≠ .client gid req) :
    ServiceInv id clientID { s with shards := shards } := by
  have hcontent : ∀ x, shards.content x = s.shards.content x :=
    fun x => content_step h.shards hs hclient
  refine ⟨h.shards.step hs, h.clerks, fun x => ?_, fun x c q => ?_, h.sent, h.executed,
    h.returning⟩
  · rw [hcontent]
    exact h.within x
  · rw [hcontent]
    exact h.recorded x c q

omit [DecidableEq Ck] in
theorem Linearized.controller {t : List (Event CallID KvOp KvRes ⊕ (CallID × KvOp × KvRes))}
    (hr : (shardSys .assigned id).Reachable s.shards) (h : Linearized s t) {a : ShardAction Ctl}
    {shards : ShardSystem Ctl} (hs : (shardSys .assigned id).step s.shards a shards)
    (hclient : ∀ gid req, a ≠ .client gid req) : Linearized { s with shards := shards } t := by
  refine ⟨h.trace, h.history, h.values.trans ?_, h.put_run, h.run_put, h.get⟩
  ext1 key
  unfold valuesOf
  rw [content_step hr hs hclient]

/-! ### The clerks -/

omit [DecidableEq Ck] in
theorem ServiceInv.told (h : ServiceInv id clientID s) {p : ℕ} {err : Err} {r : Round} {k : ℕ}
    (hpc : s.clerks.pc (.put p) = .calling r k) (htold : s.PutTold p ⟨err⟩)
    (hgroup : err ≠ .errWrongGroup) (hleader : err ≠ .errWrongLeader) : ⟨err⟩ ∈ s.runs p := by
  rcases htold with hrefused | ⟨e, he, r', hpc', hreply⟩
  · exact absurd hrefused hleader
  · have hwaits := h.clerks.waits (.put p)
    rw [hpc'] at hwaits
    obtain ⟨x, hx, rfl⟩ := hwaits
    obtain rfl : e.request = x := Option.some.inj ((h.sent e he).symm.trans hx)
    rcases h.executed e he with heq | hmem | hreturned
    · rw [hreply] at heq
      exact absurd (congrArg PutReply.err heq) hgroup
    · rwa [hreply] at hmem
    · cases hpc.symm.trans hreturned

theorem ServiceInv.clerk (h : ServiceInv id clientID s) {a : ClerkAction Ck}
    {clerks : ClerkState Ck} (hs : ClerkStep clientID s.clerks a clerks)
    (hput : ∀ p reply, a = .putReply p reply → s.PutTold p reply) :
    ServiceInv id clientID { s with clerks := clerks } := by
  have hlater := h.clerks.later hs
  refine ⟨h.shards, h.clerks.step hs, fun x => ?_, h.recorded, fun e he => ?_, fun e he => ?_,
    fun p err herr => ?_⟩
  · exact (h.within x).mono hlater.puts.watermark
  · obtain ⟨rest, hrest⟩ := hlater.sent
    exact hrest ▸ Pool.append (h.sent e he) rest
  · exact (h.executed e he).imp_right (Or.imp_right (hlater.returned _))
  · by_cases hsame : clerks.pc (.put p) = s.clerks.pc (.put p)
    · exact h.returning p err (hsame ▸ herr)
    · obtain ⟨r, k, hpc, rfl, hgroup, hleader⟩ := (hs.ends h.clerks hsame).1 err herr
      exact h.told hpc (hput p ⟨err⟩ rfl) hgroup hleader

omit [DecidableEq Ck] in
/-- What a clerk writes to the history is what a trace may go on with. -/
theorem Linearized.records {t : List (Event CallID KvOp KvRes ⊕ (CallID × KvOp × KvRes))}
    (hinv : ServiceInv id clientID s) (h : Linearized s t) {a : ClerkAction Ck}
    {events : List (Event CallID KvOp KvRes)} (hrecords : Records s.clerks a events)
    (hget : ∀ g reply, a = .getReply g reply → s.GetTold g reply) :
    ∃ t', Trace kvSpec t' ∧ Linearizability.history t' = s.clerks.history ++ events ∧
      effects t' = effects t := by
  have hfresh : ∀ c, s.clerks.pc c ≠ .returned → ∀ r, .ret c r ∉ Linearizability.history t := by
    intro c hpc r hr
    rw [h.history] at hr
    exact hpc (hinv.clerks.returned c r hr)
  cases hrecords with
  | nothing => exact ⟨t, h.trace, by rw [h.history, List.append_nil], rfl⟩
  | invoke a c op hnone =>
      refine ⟨_, h.trace.invoke c op fun op' hop' => ?_, by rw [history_event, h.history],
        effects_event ..⟩
      rw [h.history, hinv.clerks.invoked, hnone] at hop'
      cases hop'
  | getReturn g k r reply hpc herr =>
      rcases hget g reply rfl with hrefused | ⟨e, he, r', hpc', rfl⟩
      · rcases herr with herr | herr <;> cases herr.symm.trans hrefused
      · have hwaits := hinv.clerks.waits (.get g)
        rw [hpc'] at hwaits
        obtain ⟨gid, hasked⟩ := hwaits
        rcases h.get e he with hgroup | ⟨g', gid', hasked', op, hmem⟩
        · rcases herr with herr | herr <;> cases herr.symm.trans hgroup
        · cases hasked.symm.trans hasked'
          exact ⟨_, h.trace.ret _ op _ hmem (hfresh _ (by simp [hpc])),
            by rw [history_event, h.history], effects_event ..⟩
  | putReturn p err hpc =>
      obtain ⟨op, hmem⟩ := h.run_put p ⟨err⟩ (hinv.returning p err hpc)
      exact ⟨_, h.trace.ret _ op _ hmem (hfresh _ (by simp [hpc])),
        by rw [history_event, h.history], effects_event ..⟩

theorem Linearized.clerk {t : List (Event CallID KvOp KvRes ⊕ (CallID × KvOp × KvRes))}
    (hinv : ServiceInv id clientID s) (h : Linearized s t) {a : ClerkAction Ck}
    {clerks : ClerkState Ck} (hs : ClerkStep clientID s.clerks a clerks)
    (hget : ∀ g reply, a = .getReply g reply → s.GetTold g reply) :
    ∃ t', Linearized { s with clerks := clerks } t' := by
  obtain ⟨events, hrecords, hhistory⟩ := hs.records
  obtain ⟨t', htrace, hhistory', heffects⟩ := h.records hinv hrecords hget
  refine ⟨t', htrace, hhistory'.trans hhistory.symm, ?_, ?_, ?_, fun e he => ?_⟩
  · rw [heffects]
    exact h.values
  · rw [heffects]
    exact h.put_run
  · rw [heffects]
    exact h.run_put
  · rw [heffects]
    obtain ⟨rest, hrest⟩ := (hinv.clerks.later hs).asked
    refine (h.get e he).imp_right fun ⟨g, gid, hasked, hmem⟩ => ⟨g, gid, ?_, hmem⟩
    exact hrest ▸ Pool.append hasked rest

/-! ### The groups -/

omit [DecidableEq Ck] in
theorem ServiceInv.get (h : ServiceInv id clientID s) (execs : List GetExec) :
    ServiceInv id clientID { s with getExecs := execs } :=
  ⟨h.shards, h.clerks, h.within, h.recorded, h.sent, h.executed, h.returning⟩

omit [DecidableEq Ck] in
/-- A `Get` takes effect where it is executed. -/
theorem Linearized.getExec {t : List (Event CallID KvOp KvRes ⊕ (CallID × KvOp × KvRes))}
    (hinv : ServiceInv id clientID s) (h : Linearized s t) {k g : ℕ} {gid : Tgid}
    {call : GetCall Ck} (hk : s.clerks.asked[k]? = some (g, gid))
    (hg : s.clerks.gets[g]? = some call) :
    ∃ t', Linearized { s with getExecs := s.getExecs ++
      [⟨k, (s.shards.groups gid (key2Shard call.key)).get ⟨call.key⟩⟩] } t' := by
  rcases content_get hinv.shards gid ⟨call.key⟩ with hgroup | hreply
  · refine ⟨t, h.trace, h.history, h.values, h.put_run, h.run_put, fun e he => ?_⟩
    rcases List.mem_append.mp he with he | he
    · exact h.get e he
    · cases List.mem_singleton.mp he
      exact Or.inl hgroup
  · have hop : s.clerks.opOf (.get g) = some (.get call.key) := by
      rw [ClerkState.opOf, hg, Option.map_some]
    have hinvoked : .invoke (.get g) (.get call.key) ∈ Linearizability.history t := by
      rw [h.history]
      exact (hinv.clerks.invoked _ _).mpr hop
    have hresult : (kvSpec.apply (kvSpec.run kvSpec.init (effects t)) (.get call.key)).2 =
        .get ((s.shards.groups gid (key2Shard call.key)).get ⟨call.key⟩) := by
      rw [h.values, hreply]
      rfl
    refine ⟨_, h.trace.effect _ _ hinvoked (Or.inl (kvSpec_get_readOnly _)),
      by rw [history_effect, h.history], ?_, fun p op r hmem => ?_, fun p reply hmem => ?_,
      fun e he => ?_⟩
    · rw [effects_effect, Spec.run_concat, kvSpec_get_readOnly]
      exact h.values
    · rw [effects_effect, List.mem_append, List.mem_singleton] at hmem
      exact h.put_run p op r (hmem.resolve_right fun heq => by cases heq)
    · obtain ⟨op, hmem⟩ := h.run_put p reply hmem
      exact ⟨op, by rw [effects_effect]; exact List.mem_append_left _ hmem⟩
    · rw [effects_effect]
      rcases List.mem_append.mp he with he | he
      · refine (h.get e he).imp_right fun hrun => ?_
        obtain ⟨g', gid', hasked, op, hmem⟩ := hrun
        exact ⟨g', gid', hasked, op, List.mem_append_left _ hmem⟩
      · cases List.mem_singleton.mp he
        refine Or.inr ⟨g, gid, hk, .get call.key, List.mem_append_right _ ?_⟩
        rw [hresult]
        exact List.mem_singleton_self _

section

variable {k : ℕ} {x : Sent Tgid} {kv : KVServer} {reply : PutReply} {runs : List PutReply}

/-- The service after a group has executed a `Put`. -/
def Service.putDone (s : Service Ctl Ck) (k : ℕ) (x : Sent Tgid) (kv : KVServer) (reply : PutReply)
    (runs : List PutReply) : Service Ctl Ck :=
  { s.setGroup x.dst kv with putExecs := s.putExecs ++ [⟨k, x, reply, runs⟩] }

omit [DecidableEq Ctl] [DecidableEq Ck] in
theorem runs_putDone (p : ℕ) : (s.putDone k x kv reply runs).runs p =
    s.runs p ++ if x.call = p then runs else [] :=
  s.runs_concat ⟨k, x, reply, runs⟩ p

section

omit [DecidableEq Ck]

theorem reachable_putDone (h : (shardSys .assigned id).Reachable s.shards)
    (hdo : (s.shards.groups x.dst).doOp (.put x.args) = some (kv, .put reply)) :
    (shardSys .assigned id).Reachable (s.putDone k x kv reply runs).shards := by
  refine h.step (a := .client x.dst (.put x.args)) ⟨trivial, ?_⟩
  exact Option.bind_eq_some_iff.mpr ⟨_, hdo, rfl⟩

theorem ServiceInv.call (h : ServiceInv id clientID s) (hk : s.clerks.puts.sent[k]? = some x) :
    ∃ call, s.clerks.puts.calls[x.call]? = some call ∧ Clerks.For x.args call ∧
      s.runs x.call = runsOn s.putExecs (key2Shard x.args.key) x.args.clientID x.args.sequence := by
  obtain ⟨call, hcall, hfor, -⟩ := h.clerks.puts.sent x (List.mem_of_getElem? hk)
  refine ⟨call, hcall, hfor, ?_⟩
  rw [runs_eq_runsOn h.clerks.puts h.mem_sent hcall, hfor]

theorem ServiceInv.answer (h : ServiceInv id clientID s) (hk : s.clerks.puts.sent[k]? = some x)
    {shards : ShardSystem Ctl} (hexec : Executed x.args s.shards reply runs shards) :
    reply = ⟨.errWrongGroup⟩ ∨ s.runs x.call ++ runs = [reply] ∨
      s.clerks.pc (.put x.call) = .returned := by
  cases hexec with
  | refused hreply => exact Or.inl hreply
  | done hruns hdo =>
      obtain ⟨call, hcall, hfor, hsame⟩ := h.call hk
      obtain ⟨hid, hack⟩ := h.clerks.puts.sent_ack (List.mem_of_getElem? hk)
      cases hdone : call.completed with
      | true => exact Or.inr (Or.inr (h.clerks.completed _ call hcall hdone))
      | false =>
          have hseq := h.clerks.puts.active hcall hdone
          have hactive : s.clerks.puts.watermark clientID x.args.clientID < x.args.sequence := by
            rw [hfor]
            exact hseq
          refine Or.inr (Or.inl ?_)
          rw [hsame, hruns]
          exact (h.recorded _ _ _).active (h.within _) hid hack hactive hdo

theorem ServiceInv.put (h : ServiceInv id clientID s) (hk : s.clerks.puts.sent[k]? = some x)
    (hr : (shardSys .assigned id).Reachable (s.putDone k x kv reply runs).shards)
    (hexec : Executed x.args s.shards reply runs (s.putDone k x kv reply runs).shards) :
    ServiceInv id clientID (s.putDone k x kv reply runs) := by
  have hmem := List.mem_of_getElem? hk
  obtain ⟨hid, hack⟩ := h.clerks.puts.sent_ack hmem
  have hmore : ∀ p, ∀ r ∈ s.runs p, r ∈ (s.putDone k x kv reply runs).runs p := by
    intro p r hr
    rw [runs_putDone]
    exact List.mem_append_left _ hr
  refine ⟨hr, h.clerks, fun y => ?_, fun y c q => ?_, fun e he => ?_, fun e he => ?_,
    fun p err hpc => hmore p _ (h.returning p err hpc)⟩
  · cases hexec with
    | refused _ _ hcontent =>
        rw [hcontent]
        exact h.within y
    | done hruns hdo hcontent =>
        rcases eq_or_ne y (key2Shard x.args.key) with rfl | hne
        · exact (h.within _).done (Table.done_of_doPut hdo) hack
        · rw [hcontent y hne]
          exact h.within y
  · change Table.Recorded _ c q (runsOn (s.putExecs ++ [⟨k, x, reply, runs⟩]) y c q)
    rw [runsOn_concat]
    cases hexec with
    | refused _ hruns hcontent =>
        rw [hcontent, hruns, ite_self, List.append_nil]
        exact h.recorded y c q
    | done hruns hdo hcontent =>
        rcases eq_or_ne y (key2Shard x.args.key) with rfl | hne
        · have hput := (h.recorded (key2Shard x.args.key) c q).doPut hid hdo
          unfold Table.runsFor at hput
          rw [← hruns] at hput
          simpa using hput
        · rw [hcontent y hne, if_neg fun heq => hne heq.1.symm, List.append_nil]
          exact h.recorded y c q
  · rcases List.mem_append.mp he with he | he
    · exact h.sent e he
    · cases List.mem_singleton.mp he
      exact hk
  · rcases List.mem_append.mp he with he | he
    · exact (h.executed e he).imp_right (Or.imp_left (hmore _ _))
    · cases List.mem_singleton.mp he
      refine (h.answer hk hexec).imp_right (Or.imp_left fun hruns => ?_)
      rw [runs_putDone, if_pos rfl, hruns]
      exact List.mem_singleton_self _

end

omit [DecidableEq Ctl] [DecidableEq Ck] in
theorem Linearized.putKept {t : List (Event CallID KvOp KvRes ⊕ (CallID × KvOp × KvRes))}
    (h : Linearized s t) (hruns : runs = [])
    (hvalues : valuesOf (s.putDone k x kv reply runs).shards = valuesOf s.shards) :
    Linearized (s.putDone k x kv reply runs) t := by
  have hsame : ∀ p, (s.putDone k x kv reply runs).runs p = s.runs p := by
    intro p
    rw [runs_putDone, hruns, ite_self, List.append_nil]
  refine ⟨h.trace, h.history, h.values.trans hvalues.symm, fun p op r hmem => ?_,
    fun p r hr => ?_, h.get⟩
  · rw [hsame]
    exact h.put_run p op r hmem
  · rw [hsame] at hr
    exact h.run_put p r hr

omit [DecidableEq Ck] in
/-- A `Put` that is run for the first time takes effect then. -/
theorem Linearized.putRun {t : List (Event CallID KvOp KvRes ⊕ (CallID × KvOp × KvRes))}
    (hinv : ServiceInv id clientID s) (h : Linearized s t)
    (hk : s.clerks.puts.sent[k]? = some x) (hnil : s.runs x.call = []) (hruns : runs = [reply])
    (happlied : kvSpec.apply (valuesOf s.shards) (.put x.args.key x.args.value x.args.version) =
      (valuesOf (s.putDone k x kv reply runs).shards, .put reply.err)) :
    ∃ t', Linearized (s.putDone k x kv reply runs) t' := by
  obtain ⟨call, hcall, hfor, -⟩ := hinv.call hk
  have hop : s.clerks.opOf (.put x.call) = some (.put x.args.key x.args.value x.args.version) := by
    rw [ClerkState.opOf, hcall, Option.map_some, hfor]
    rfl
  have hinvoked : .invoke (.put x.call) (.put x.args.key x.args.value x.args.version) ∈
      Linearizability.history t := by
    rw [h.history]
    exact (hinv.clerks.invoked _ _).mpr hop
  have hfirst : ∀ y ∈ effects t, y.1 ≠ .put x.call := by
    rintro ⟨c, op, r⟩ hy rfl
    exact h.put_run x.call op r hy hnil
  rw [← h.values] at happlied
  have htrace := h.trace.effect _ _ hinvoked (Or.inr hfirst)
  rw [happlied] at htrace
  refine ⟨_, htrace, by rw [history_effect, h.history]; rfl, ?_, fun p op r hmem => ?_,
    fun p r hr => ?_, fun e he => ?_⟩
  · rw [effects_effect, Spec.run_concat, happlied]
  · rw [runs_putDone]
    rw [effects_effect, List.mem_append, List.mem_singleton] at hmem
    rcases hmem with hmem | heq
    · exact List.append_ne_nil_of_left_ne_nil (h.put_run p op r hmem) _
    · cases heq
      rw [if_pos rfl, hruns]
      exact List.append_ne_nil_of_right_ne_nil _ (by simp)
  · rw [effects_effect]
    rw [runs_putDone, List.mem_append] at hr
    rcases hr with hr | hr
    · obtain ⟨op, hmem⟩ := h.run_put p r hr
      exact ⟨op, List.mem_append_left _ hmem⟩
    · split at hr
      · rename_i heq
        rw [hruns, List.mem_singleton] at hr
        subst heq hr
        exact ⟨_, List.mem_append_right _ (List.mem_singleton_self _)⟩
      · cases hr
  · rw [effects_effect]
    refine (h.get e he).imp_right fun hrun => ?_
    obtain ⟨g, gid, hasked, op, hmem⟩ := hrun
    exact ⟨g, gid, hasked, op, List.mem_append_left _ hmem⟩

omit [DecidableEq Ck] in
/-- A `Put` takes effect where it is run. -/
theorem Linearized.put {t : List (Event CallID KvOp KvRes ⊕ (CallID × KvOp × KvRes))}
    (hinv : ServiceInv id clientID s) (h : Linearized s t)
    (hk : s.clerks.puts.sent[k]? = some x)
    (hexec : Executed x.args s.shards reply runs (s.putDone k x kv reply runs).shards) :
    ∃ t', Linearized (s.putDone k x kv reply runs) t' := by
  cases hexec with
  | refused _ hruns hcontent =>
      refine ⟨t, h.putKept hruns ?_⟩
      ext1 key
      unfold valuesOf
      rw [hcontent]
  | done hruns hdo hcontent =>
      obtain ⟨call, -, -, hsame⟩ := hinv.call hk
      obtain ⟨hid, -⟩ := hinv.clerks.puts.sent_ack (List.mem_of_getElem? hk)
      cases Table.ran_of_doPut hid hdo with
      | kept hnone hstate =>
          refine ⟨t, h.putKept (hruns.trans hnone) ?_⟩
          ext1 key
          unfold valuesOf
          rcases eq_or_ne (key2Shard key) (key2Shard x.args.key) with heq | hne
          · rw [heq, hstate]
          · rw [hcontent _ hne]
      | run hone happly hnew =>
          have hnil : s.runs x.call = [] := by
            rw [hsame]
            rcases (hinv.recorded (key2Shard x.args.key) x.args.clientID x.args.sequence).settled
              with hnil | ⟨r, -, hs⟩
            · exact hnil
            · exact absurd hs (hnew r)
          have hother : ∀ key ≠ x.args.key,
              valuesOf (s.putDone k x kv reply runs).shards key = valuesOf s.shards key := by
            intro key hkey
            unfold valuesOf
            rcases eq_or_ne (key2Shard key) (key2Shard x.args.key) with heq | hne
            · rw [heq]
              exact applyPut_of_ne happly hkey
            · rw [hcontent _ hne]
          exact h.putRun hinv hk hnil (hruns.trans hone) (kvSpec_put happly rfl rfl hother)

end

/-! ### Every run -/

theorem content_init (id : Ctl ↪ GoString) (x : Tshid) :
    (ShardSystem.init Ctl).content x = ⟨.make, .empty⟩ := by
  have hr : (shardSys .assigned id).Reachable (ShardSystem.init Ctl) := .init rfl
  obtain ⟨a, hi, h, -⟩ := exists_ownership hr x
  rw [h.content_serving hi (g := Gid1) rfl]
  rfl

omit [DecidableEq Ck] in
theorem ServiceInv.init : ServiceInv id clientID (Service.init : Service Ctl Ck) where
  shards := .init rfl
  clerks := .init
  within x := by
    change Table.Within _ ((ShardSystem.init Ctl).content x).requests
    rw [content_init id]
    exact .empty
  recorded x c q := by
    change Table.Recorded ((ShardSystem.init Ctl).content x).requests c q []
    rw [content_init id]
    exact .empty
  sent e he := by cases he
  executed e he := by cases he
  returning p err h := by cases h

omit [DecidableEq Ck] in
theorem Linearized.init (id : Ctl ↪ GoString) : Linearized (Service.init : Service Ctl Ck) [] where
  trace := .nil
  history := rfl
  values := by
    ext1 key
    change none = ((ShardSystem.init Ctl).content _).values.get key
    rw [content_init id]
    rfl
  put_run p op r h := by cases h
  run_put p r h := by cases h
  get e he := by cases he

theorem ServiceInv.reachable (hs : (serviceSys .assigned id clientID).Reachable s) :
    ServiceInv id clientID s ∧ ∃ t, Linearized s t := by
  refine hs.invariant (I := fun s => ServiceInv id clientID s ∧ ∃ t, Linearized s t)
    (fun s hi => ?_) fun s a s' _ ⟨hinv, t, h⟩ hstep => ?_
  · rw [hi]
    exact ⟨.init, [], .init id⟩
  · cases ServiceStep.of_step hstep with
    | controller a shards hs hclient =>
        exact ⟨hinv.controller hs hclient, t, h.controller hinv.shards hs hclient⟩
    | clerk a clerks hs hget hput => exact ⟨hinv.clerk hs hput, h.clerk hinv hs hget⟩
    | get k g gid call hk hg => exact ⟨hinv.get _, h.getExec hinv hk hg⟩
    | put k x kv reply hk hdo =>
        have hr : (shardSys .assigned id).Reachable (s.putDone k x kv reply
            (putRuns (s.shards.groups x.dst (key2Shard x.args.key)) x.args)).shards :=
          reachable_putDone hinv.shards hdo
        have hexec := executed_of_doOp hinv.shards hr rfl hdo
        exact ⟨hinv.put hk hr hexec, h.put hinv hk hexec⟩

/-- **The service is linearizable.** The calls of `Get` and `Put` are
those of one versioned map, and a `Put` is run once at most, over all
groups and migrations and whether it returns or not. -/
theorem sharded_linearizable (id : Ctl ↪ GoString) (clientID : Ck ↪ {id : ℕ // id ≠ 0})
    {s : Service Ctl Ck} (hs : (serviceSys .assigned id clientID).Reachable s) :
    Linearizable kvSpec s.clerks.history ∧ ∀ p, (s.runs p).length ≤ 1 := by
  obtain ⟨hinv, t, h⟩ := ServiceInv.reachable hs
  refine ⟨?_, hinv.length_runs_le⟩
  rw [← h.history]
  exact h.trace.linearizable

end

/-! ### A `Put` that is sent to two groups -/

def sampleClients : Fin 1 ↪ {id : ℕ // id ≠ 0} :=
  ⟨fun _ => ⟨5, by decide⟩, fun _ _ _ => Subsingleton.elim _ _⟩

/-- A call loads the configuration and sends its request. -/
def askActions (c : CallID) : List (ServiceAction (Fin 3) (Fin 1)) :=
  [.clerk (.load c), .query c, .clerk (.merge c), .clerk (.route c), .clerk (.send c)]

/-- Group 1 runs the `Put` of a key in the first shard and its reply is
lost. The shard moves to group 2, which is sent the same request; then the
key is read. -/
def twiceActions : List (ServiceAction (Fin 3) (Fin 1)) := List.flatten
  [(moveActions.take 3).map .controller,
    .clerk (.put 0 [13] [7] 0) :: askActions (.put 0),
    [.executePut 0, .clerk (.fail (.put 0)), .clerk (.send (.put 0))],
    (moveActions.drop 3).map .controller,
    .controller (.reply 0 1) :: List.replicate 12 (.controller (.run 0)),
    .controller (.executePut 2) :: askActions (.put 0),
    [.executePut 1, .putReply 0 1, .clerk (.complete 0), .clerk (.get 0 [13]),
      .clerk (.load (.get 0)), .clerk (.route (.get 0)), .clerk (.send (.get 0)), .executeGet 0,
      .getReply 0 0]]

def sampleTwice : Service (Fin 3) (Fin 1) :=
  play (Service.step sampleIds sampleClients) .init twiceActions

theorem sharded_linearizable_twice :
    sampleTwice.clerks.history = [.invoke (.put 0) (.put [13] [7] 0), .ret (.put 0) (.put .ok),
      .invoke (.get 0) (.get [13]), .ret (.get 0) (.get ⟨[7], 1, .ok⟩)] ∧
    sampleTwice.putExecs.map (fun e => (e.request.dst, e.reply, e.runs)) =
      [(1, ⟨.ok⟩, [⟨.ok⟩]), (2, ⟨.ok⟩, [])] ∧
    Linearizable kvSpec sampleTwice.clerks.history ∧ ∀ p, (sampleTwice.runs p).length ≤ 1 := by
  have hgiven : ∀ a ∈ twiceActions, ServiceAction.Given .assigned a := by
    simp [twiceActions, askActions, moveActions, ServiceAction.Given, ShardAction.Given,
      Configs.assigned, sampleConfig_first, sampleConfig_assigned]
  refine ⟨by decide +kernel, by decide +kernel, sharded_linearizable sampleIds sampleClients ?_⟩
  exact reachable_playIn _ _ twiceActions hgiven

end RaftShardedKv.Shardkv
