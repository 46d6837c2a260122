import RaftShardedKv.Shard.Calls

/-!
The tables of the shards under any migration.

Whatever controllers do, they freeze, install and delete. Here each of
these comes to any group at any time, and a shard is installed with
anything that a group has ever returned for a shard it has frozen, or
with nothing. A request of a clerk may be executed at any group, any
number of times, and `Query` may return anything.

Along with a table goes what it has seen: the runs of each request in
this table and in those it was copied from.
-/

namespace RaftShardedKv.Shardkv

open Dedup Transition

/-- The runs of each client's requests, with what they return. -/
abbrev RunLog := ℕ → ℕ → List PutReply

namespace RunLog

def empty : RunLog := fun _ _ => []

def add (log : RunLog) (args : PutArgs) (runs : List PutReply) : RunLog := fun c q =>
  log c q ++ if args.clientID = c ∧ args.sequence = q then runs else []

end RunLog

structure Tables (Ck : Type) where
  clerks : ClerkState Ck
  groups : Tgid → KVServer
  logs : Tgid → Tshid → RunLog
  /-- What `FreezeShard` has returned, with what the table has seen. -/
  frozen : List (TransferData × RunLog)
  execs : List PutExec

inductive TablesAction (Ck : Type)
  /-- A step of a clerk that is not told what has become of a `Put`. -/
  | clerk (a : ClerkAction Ck)
  | execute (k : ℕ) (gid : Tgid)
  | putReply (p i : ℕ)
  | refuse (p : ℕ)
  | freeze (gid : Tgid) (shard : Tshid) (num : Tnum)
  | install (gid : Tgid) (shard : Tshid) (source : Option ℕ) (num : Tnum)
  | delete (gid : Tgid) (shard : Tshid) (num : Tnum)

namespace Tables

variable {Ck : Type}

def setShard (s : Tables Ck) (gid : Tgid) (shard : Tshid) (state : ShardState) (log : RunLog) :
    Tables Ck :=
  { s with
    groups := Function.update s.groups gid (Function.update (s.groups gid) shard state)
    logs := Function.update s.logs gid (Function.update (s.logs gid) shard log) }

/-- What an installation is given. -/
def transfer (s : Tables Ck) : Option ℕ → Option (TransferData × RunLog)
  | none => some (none, .empty)
  | some j => s.frozen[j]?

variable (clientID : Ck ↪ {id : ℕ // id ≠ 0}) [DecidableEq Ck]

def clerkStep (s : Tables Ck) (a : ClerkAction Ck) : Option (Tables Ck) := do
  let clerks ← s.clerks.step clientID a
  some { s with clerks := clerks }

def step (s : Tables Ck) : TablesAction Ck → Option (Tables Ck)
  | .clerk a =>
      match a with
      | .putReply .. => none
      | a => s.clerkStep clientID a
  | .execute k gid => do
      let x ← s.clerks.puts.sent[k]?
      let shard := key2Shard x.args.key
      let runs := putRuns (s.groups gid shard) x.args
      let (state, reply) ← (s.groups gid shard).put x.args
      some { s.setShard gid shard state ((s.logs gid shard).add x.args runs) with
        execs := s.execs ++ [⟨k, x, reply, runs⟩] }
  | .putReply p i => do
      let exec ← s.execs[i]?
      match s.clerks.pc (.put p) with
      | .calling _ k =>
          if exec.rpc = k then s.clerkStep clientID (.putReply p exec.reply) else none
      | _ => none
  | .refuse p => s.clerkStep clientID (.putReply p ⟨.errWrongLeader⟩)
  | .freeze gid shard num =>
      let (state, reply) := (s.groups gid shard).freezeShard num
      let s' := s.setShard gid shard state (s.logs gid shard)
      match reply with
      | .freezeShard data _ .ok => some { s' with frozen := s.frozen ++ [(data, s.logs gid shard)] }
      | _ => some s'
  | .install gid shard source num => do
      let (data, log) ← s.transfer source
      let state := ((s.groups gid shard).installShard data num).1
      -- the shard is installed where it was absent and is served now
      if (s.groups gid shard).status = .shardAbsent ∧ state.status = .shardServing then
        some (s.setShard gid shard state log)
      else some (s.setShard gid shard state (s.logs gid shard))
  | .delete gid shard num =>
      let state := ((s.groups gid shard).deleteShard num).1
      if (s.groups gid shard).status = .shardFrozen ∧ state.status = .shardAbsent then
        some (s.setShard gid shard state .empty)
      else some (s.setShard gid shard state (s.logs gid shard))

def init : Tables Ck where
  clerks := .init
  groups := KVServer.start
  logs _ _ := .empty
  frozen := []
  execs := []

end Tables

abbrev tablesSys {Ck : Type} [DecidableEq Ck] (clientID : Ck ↪ {id : ℕ // id ≠ 0}) :
    Sys (Tables Ck) (TablesAction Ck) :=
  Sys.ofStep Tables.init (Tables.step clientID)

/-! ### One table -/

/-- A table that has seen these runs. -/
structure Copy (ack : ℕ → ℕ) (t : Table) (log : RunLog) : Prop where
  within : t.Within ack
  recorded : ∀ c q, t.Recorded c q (log c q)
  replies : ∀ c q, ∀ reply ∈ log c q, reply.err ≠ .errStaleRequest

section

variable {ack ack' : ℕ → ℕ} {t t' : Table} {log : RunLog} {args : PutArgs}

theorem Copy.empty : Copy ack .empty .empty :=
  ⟨.empty, fun _ _ => .empty, fun _ _ _ h => by cases h⟩

theorem Copy.mono (h : Copy ack t log) (hle : ∀ c, ack c ≤ ack' c) : Copy ack' t log :=
  ⟨h.within.mono hle, h.recorded, h.replies⟩

theorem applyPut_ne_stale {values values' : GoMap GoString ValueEntry} {reply : PutReply}
    (h : ShardState.applyPut args values = some (values', reply)) :
    reply.err ≠ .errStaleRequest := by
  unfold ShardState.applyPut at h
  dsimp only at h
  split at h
  · cases h
    decide
  · split at h
    · cases h
      decide
    · obtain ⟨values'', -, h⟩ := Option.bind_eq_some_iff.mp h
      cases h
      decide

theorem Copy.doPut (h : Copy ack t log) (hid : args.clientID ≠ 0)
    (hack : args.ack ≤ ack args.clientID) {values values' : GoMap GoString ValueEntry}
    {reply : PutReply}
    (hput : t.doPut args (ShardState.applyPut args) values = some (t', values', reply)) :
    Copy ack t' (log.add args (t.runs args (ShardState.applyPut args) values)) := by
  refine ⟨h.within.done (Table.done_of_doPut hput) hack,
    fun c q => (h.recorded c q).doPut hid hput, fun c q reply' hmem => ?_⟩
  rcases List.mem_append.mp hmem with hmem | hmem
  · exact h.replies c q reply' hmem
  · split at hmem
    · cases Table.ran_of_doPut hid hput with
      | kept hruns =>
          rw [hruns] at hmem
          cases hmem
      | run hruns happly =>
          rw [hruns] at hmem
          cases List.mem_singleton.mp hmem
          exact applyPut_ne_stale happly
    · cases hmem

theorem put_cases {state state' : ShardState} {reply : PutReply}
    (h : state.put args = some (state', reply)) :
    state' = state ∧ reply = ⟨.errWrongGroup⟩ ∧ putRuns state args = [] ∨
      state.requests.doPut args (ShardState.applyPut args) state.values =
          some (state'.requests, state'.values, reply) ∧
        putRuns state args =
          state.requests.runs args (ShardState.applyPut args) state.values := by
  unfold ShardState.put at h
  split at h
  · rename_i hstatus
    cases h
    exact Or.inl ⟨rfl, rfl, if_neg hstatus⟩
  · rename_i hstatus
    obtain ⟨⟨requests, values, reply'⟩, hdo, h⟩ := Option.bind_eq_some_iff.mp h
    cases h
    exact Or.inr ⟨hdo, if_pos (not_not.mp hstatus)⟩

theorem RunLog.add_nil (log : RunLog) (args : PutArgs) : log.add args [] = log := by
  ext1 c
  ext1 q
  simp [RunLog.add]

theorem Copy.put {state state' : ShardState} {reply : PutReply} (h : Copy ack state.requests log)
    (hid : args.clientID ≠ 0) (hack : args.ack ≤ ack args.clientID)
    (hput : state.put args = some (state', reply)) :
    Copy ack state'.requests (log.add args (putRuns state args)) := by
  rcases put_cases hput with ⟨rfl, -, hruns⟩ | ⟨hdo, hruns⟩
  · rw [hruns, RunLog.add_nil]
    exact h
  · rw [hruns]
    exact h.doPut hid hack hdo

theorem Copy.answers (h : Copy ack t log) (hid : args.clientID ≠ 0)
    (hack : args.ack ≤ ack args.clientID) (hseq : ack args.clientID < args.sequence)
    (values : GoMap GoString ValueEntry) :
    t.Answers args (ShardState.applyPut args) values (log args.clientID args.sequence) :=
  (h.recorded _ _).answers h.within hid hack hseq (h.replies _ _)
    fun _ _ happly => applyPut_ne_stale happly

end

/-! ### Migrations -/

theorem requests_freezeShard (state : ShardState) (num : Tnum) :
    (state.freezeShard num).1.requests = state.requests ∧
      ∀ data n, (state.freezeShard num).2 = .freezeShard data n .ok →
        (decodeShardTransfer data).requests = state.requests := by
  unfold ShardState.freezeShard
  dsimp only
  split
  · refine ⟨rfl, fun data n h => ?_⟩
    cases h
    rfl
  · split
    · refine ⟨rfl, fun data n h => ?_⟩
      cases h
    · refine ⟨rfl, fun data n h => ?_⟩
      cases h
      rfl

theorem requests_installShard (state : ShardState) (data : TransferData) (num : Tnum) :
    if state.status = .shardAbsent ∧ (state.installShard data num).1.status = .shardServing then
      (state.installShard data num).1.requests = (decodeShardTransfer data).requests
    else (state.installShard data num).1.requests = state.requests := by
  unfold ShardState.installShard
  split
  · rename_i h
    simp [h.2]
  · split
    · rename_i h
      cases hstatus : state.status <;> simp
    · rename_i h
      have hstatus : state.status = .shardAbsent := by
        by_contra hne
        exact h (Or.inl hne)
      simp [hstatus]

theorem requests_deleteShard (state : ShardState) (num : Tnum) :
    if state.status = .shardFrozen ∧ (state.deleteShard num).1.status = .shardAbsent then
      (state.deleteShard num).1.requests = .empty
    else (state.deleteShard num).1.requests = state.requests := by
  unfold ShardState.deleteShard
  split
  · cases hstatus : state.status <;> simp
  · split
    · cases hstatus : state.status <;> simp
    · rename_i h
      have hstatus : state.status = .shardFrozen := by
        by_contra hne
        exact h (Or.inr hne)
      simp [hstatus]

/-! ### The invariant -/

variable {Ck : Type} {clientID : Ck ↪ {id : ℕ // id ≠ 0}} {s s' : Tables Ck}

structure TablesInv (clientID : Ck ↪ {id : ℕ // id ≠ 0}) (s : Tables Ck) : Prop where
  clerks : ClerkInv clientID s.clerks
  copies : ∀ gid x, Copy (s.clerks.puts.watermark clientID) (s.groups gid x).requests (s.logs gid x)
  frozen : ∀ d ∈ s.frozen,
    Copy (s.clerks.puts.watermark clientID) (decodeShardTransfer d.1).requests d.2
  sent : ∀ e ∈ s.execs, s.clerks.puts.sent[e.rpc]? = some e.request
  executed : ∀ e ∈ s.execs, e.reply.err ≠ .errStaleRequest ∨
    s.clerks.pc (.put e.request.call) = .returned
  sound : ∀ p, s.clerks.pc (.put p) ≠ .panicked

theorem TablesInv.init : TablesInv clientID (Tables.init : Tables Ck) where
  clerks := .init
  copies gid x := by
    change Copy _ (KVServer.start gid x).requests RunLog.empty
    unfold KVServer.start
    split <;> exact .empty
  frozen d hd := by cases hd
  sent e he := by cases he
  executed e he := by cases he
  sound p h := by cases h

theorem TablesInv.answers (h : TablesInv clientID s) {x : Sent Tgid}
    (hx : x ∈ s.clerks.puts.sent) {call : PutCall Ck}
    (hcall : s.clerks.puts.calls[x.call]? = some call) (hnot : call.completed = false)
    {t : Table} {log : RunLog} (hcopy : Copy (s.clerks.puts.watermark clientID) t log)
    (values : GoMap GoString ValueEntry) :
    t.Answers x.args (ShardState.applyPut x.args) values
      (log x.args.clientID x.args.sequence) := by
  obtain ⟨hid, hack⟩ := h.clerks.puts.sent_ack hx
  obtain ⟨call', hcall', hfor, -⟩ := h.clerks.puts.sent x hx
  obtain rfl := Option.some.inj (hcall.symm.trans hcall')
  have hseq := h.clerks.puts.active hcall hnot
  refine hcopy.answers hid hack ?_ values
  rw [hfor]
  exact hseq

theorem TablesInv.setShard (h : TablesInv clientID s) (gid : Tgid) (shard : Tshid)
    {state : ShardState} {log : RunLog}
    (hcopy : Copy (s.clerks.puts.watermark clientID) state.requests log) :
    TablesInv clientID (s.setShard gid shard state log) := by
  refine ⟨h.clerks, fun g x => ?_, h.frozen, h.sent, h.executed, h.sound⟩
  unfold Tables.setShard
  rcases eq_or_ne g gid with rfl | hg
  · simp only [Function.update_self]
    rcases eq_or_ne x shard with rfl | hx
    · simpa using hcopy
    · simpa [hx] using h.copies g x
  · simpa [hg] using h.copies g x

variable [DecidableEq Ck]

theorem TablesInv.clerk (h : TablesInv clientID s) {a : ClerkAction Ck} {clerks : ClerkState Ck}
    (hs : ClerkStep clientID s.clerks a clerks)
    (hput : ∀ p reply, a = .putReply p reply → reply.err ≠ .errStaleRequest) :
    TablesInv clientID { s with clerks := clerks } := by
  have hlater := h.clerks.later hs
  refine ⟨h.clerks.step hs, fun gid x => (h.copies gid x).mono hlater.puts.watermark,
    fun d hd => (h.frozen d hd).mono hlater.puts.watermark, fun e he => ?_, fun e he => ?_,
    fun p hpanic => ?_⟩
  · obtain ⟨rest, hrest⟩ := hlater.sent
    exact hrest ▸ Pool.append (h.sent e he) rest
  · exact (h.executed e he).imp_right (hlater.returned _)
  · by_cases hsame : clerks.pc (.put p) = s.clerks.pc (.put p)
    · exact h.sound p (hsame ▸ hpanic)
    · obtain ⟨r, k, -, ha⟩ := (hs.ends h.clerks hsame).2 hpanic
      exact hput p _ ha rfl

omit [DecidableEq Ck] in
theorem TablesInv.execute (h : TablesInv clientID s) {k : ℕ} {gid : Tgid} {x : Sent Tgid}
    {state : ShardState} {reply : PutReply} {runs : List PutReply}
    (hk : s.clerks.puts.sent[k]? = some x)
    (hruns : runs = putRuns (s.groups gid (key2Shard x.args.key)) x.args)
    (hput : (s.groups gid (key2Shard x.args.key)).put x.args = some (state, reply)) :
    TablesInv clientID { s.setShard gid (key2Shard x.args.key) state
      ((s.logs gid (key2Shard x.args.key)).add x.args runs) with
        execs := s.execs ++ [⟨k, x, reply, runs⟩] } := by
  have hx := List.mem_of_getElem? hk
  obtain ⟨hid, hack⟩ := h.clerks.puts.sent_ack hx
  have hcopy := h.copies gid (key2Shard x.args.key)
  have hset := h.setShard gid (key2Shard x.args.key) (hcopy.put hid hack hput)
  rw [← hruns] at hset
  refine ⟨hset.clerks, hset.copies, hset.frozen, fun e he => ?_, fun e he => ?_, hset.sound⟩
  · rcases List.mem_append.mp he with he | he
    · exact h.sent e he
    · cases List.mem_singleton.mp he
      exact hk
  · rcases List.mem_append.mp he with he | he
    · exact h.executed e he
    · cases List.mem_singleton.mp he
      obtain ⟨call, hcall, -⟩ := h.clerks.puts.sent x hx
      cases hdone : call.completed with
      | true => exact Or.inr (h.clerks.completed _ call hcall hdone)
      | false =>
          left
          rcases put_cases hput with ⟨-, rfl, -⟩ | ⟨hdo, -⟩
          · nofun
          · exact (h.answers hx hcall hdone hcopy _).fresh _ _ _ hdo

omit [DecidableEq Ck] in
theorem TablesInv.told (h : TablesInv clientID s) {p i k : ℕ} {exec : PutExec} {r : Round}
    (hi : s.execs[i]? = some exec) (hpc : s.clerks.pc (.put p) = .calling r k)
    (hrpc : exec.rpc = k) : exec.reply.err ≠ .errStaleRequest := by
  have hmem := List.mem_of_getElem? hi
  have hwaits := h.clerks.waits (.put p)
  rw [hpc] at hwaits
  obtain ⟨x, hx, rfl⟩ := hwaits
  have hsent := h.sent exec hmem
  rw [hrpc, hx] at hsent
  cases hsent
  refine (h.executed exec hmem).resolve_right fun hreturned => ?_
  cases hpc.symm.trans hreturned

theorem TablesInv.clerkStep (h : TablesInv clientID s) {a : ClerkAction Ck}
    (hs : s.clerkStep clientID a = some s')
    (hput : ∀ p reply, a = .putReply p reply → reply.err ≠ .errStaleRequest) :
    TablesInv clientID s' := by
  obtain ⟨clerks, hclerks, heq⟩ := Option.bind_eq_some_iff.mp hs
  cases heq
  exact h.clerk (.of_step hclerks) hput

omit [DecidableEq Ck] in
theorem TablesInv.transfer (h : TablesInv clientID s) {source : Option ℕ}
    {d : TransferData × RunLog}
    (hd : s.transfer source = some d) :
    Copy (s.clerks.puts.watermark clientID) (decodeShardTransfer d.1).requests d.2 := by
  cases source with
  | none =>
      cases hd
      exact .empty
  | some j => exact h.frozen d (List.mem_of_getElem? hd)

theorem TablesInv.step (h : TablesInv clientID s) {a : TablesAction Ck}
    (hs : s.step clientID a = some s') : TablesInv clientID s' := by
  cases a with
  | clerk a =>
      simp only [Tables.step] at hs
      split at hs
      · cases hs
      · rename_i hnot
        exact h.clerkStep hs fun p reply heq => absurd heq (hnot p reply)
  | execute k gid =>
      obtain ⟨x, hk, hs⟩ := Option.bind_eq_some_iff.mp hs
      obtain ⟨⟨state, reply⟩, hput, hs⟩ := Option.bind_eq_some_iff.mp hs
      cases hs
      exact h.execute hk rfl hput
  | putReply p i =>
      obtain ⟨exec, hi, hs⟩ := Option.bind_eq_some_iff.mp hs
      split at hs
      · rename_i r k hpc
        split at hs
        · rename_i hrpc
          refine h.clerkStep hs fun p' reply heq => ?_
          cases heq
          exact h.told hi hpc hrpc
        · cases hs
      · cases hs
  | refuse p =>
      refine h.clerkStep hs fun p' reply heq => ?_
      cases heq
      nofun
  | freeze gid shard num =>
      have hcopy := h.copies gid shard
      obtain ⟨hrequests, hdata⟩ := requests_freezeShard (s.groups gid shard) num
      have hset := h.setShard gid shard (hrequests.symm ▸ hcopy)
      simp only [Tables.step] at hs
      split at hs
      · rename_i data n hreply
        cases hs
        refine ⟨hset.clerks, hset.copies, fun d hd => ?_, hset.sent, hset.executed, hset.sound⟩
        rcases List.mem_append.mp hd with hd | hd
        · exact h.frozen d hd
        · cases List.mem_singleton.mp hd
          exact (hdata data n hreply).symm ▸ hcopy
      · cases hs
        exact hset
  | install gid shard source num =>
      obtain ⟨⟨data, log⟩, hd, hs⟩ := Option.bind_eq_some_iff.mp hs
      have hrequests := requests_installShard (s.groups gid shard) data num
      dsimp only at hs
      split at hs
      · rename_i hstatus
        rw [if_pos hstatus] at hrequests
        cases hs
        exact h.setShard _ _ (hrequests.symm ▸ h.transfer hd)
      · rename_i hstatus
        rw [if_neg hstatus] at hrequests
        cases hs
        exact h.setShard _ _ (hrequests.symm ▸ h.copies gid shard)
  | delete gid shard num =>
      have hrequests := requests_deleteShard (s.groups gid shard) num
      simp only [Tables.step] at hs
      split at hs
      · rename_i hstatus
        rw [if_pos hstatus] at hrequests
        cases hs
        exact h.setShard _ _ (hrequests.symm ▸ .empty)
      · rename_i hstatus
        rw [if_neg hstatus] at hrequests
        cases hs
        exact h.setShard _ _ (hrequests.symm ▸ h.copies gid shard)

theorem TablesInv.reachable (hs : (tablesSys clientID).Reachable s) : TablesInv clientID s :=
  hs.invariant (fun _ hi => hi ▸ .init) fun _ _ _ _ ih hstep => ih.step hstep

end RaftShardedKv.Shardkv
