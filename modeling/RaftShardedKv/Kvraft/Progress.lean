import RaftShardedKv.Kvraft.Linearizable
import RaftShardedKv.Rsm.Progress

/-!
Every call of a clerk can return.

The servers of a live majority elect a leader. The clerk goes on from the
server that it took for the leader to the next one, as often as it has to:
a server that does not run does not answer, another one that runs refuses
the request, and at the leader the submission of the handler succeeds. The
session of the clerk knows the request of a `Put` still, so the reply is
one that the call returns.
-/

namespace RaftShardedKv.Kvraft

open Dedup Linearizability Shardkv Transition

section

variable {n : ℕ} {Ck : Type}

namespace KvService

/-- The request that a call waits for, and its server. -/
def pending (s : KvService n Ck) : CallID → Option (ℕ × Fin n)
  | .get g =>
      match s.phase g with
      | .calling k => s.asked[k]?.map fun x => (k, x.2)
      | _ => none
  | .put p =>
      match s.kv.phase p with
      | .calling k => s.kv.clerks.sent[k]?.map fun x => (k, x.dst)
      | _ => none

/-- The number of requests that there have been of the kind of `c`. -/
def requests (s : KvService n Ck) : CallID → ℕ
  | .get _ => s.asked.length
  | .put _ => s.kv.clerks.sent.length

/-- A call that waits for nobody. -/
def Open (s : KvService n Ck) : CallID → Prop
  | .get g => s.phase g = .loop
  | .put p => s.kv.phase p = .loop ∨ s.kv.phase p = .ready

/-- A call waits for request `k`, which has not reached server `i`. -/
def Calls (s : KvService n Ck) (k : ℕ) (i : Fin n) : CallID → Prop
  | .get g => s.phase g = .calling k ∧ s.asked[k]? = some (g, i) ∧ ∀ id, s.handlers id ≠ some k
  | .put p => s.kv.phase p = .calling k ∧ (∃ args, s.kv.clerks.sent[k]? = some ⟨p, i, args⟩) ∧
      s.kv.handlers k = []

/-- A call waits for what submission `id` of `req` leads to. -/
def Awaits (s : KvService n Ck) (id : OpID n) (req : Request) : CallID → Prop
  | .get g => ∃ k args, s.phase g = .calling k ∧ s.handlers id = some k ∧ req = .get args
  | .put p => ∃ k args, s.kv.phase p = .calling k ∧ id ∈ s.kv.handlers k ∧ req = .put args

end KvService

/-! The servers act, and the calls are where they were. -/

section

variable (s : KvService n Ck) (rsm : RsmSystem n KVServer Request Reply) (c : CallID)

theorem clerkOf_rsm : ({ s with kv := { s.kv with rsm := rsm } } : KvService n Ck).clerkOf c =
    s.clerkOf c := by
  cases c <;> rfl

theorem open_rsm : ({ s with kv := { s.kv with rsm := rsm } } : KvService n Ck).Open c ↔
    s.Open c := by
  cases c <;> exact Iff.rfl

theorem awaits_rsm (id : OpID n) (req : Request) :
    ({ s with kv := { s.kv with rsm := rsm } } : KvService n Ck).Awaits id req c ↔
      s.Awaits id req c := by
  cases c <;> exact Iff.rfl

end

/-- What the servers of `Q` and the clerks do without anybody else, when
no call begins. A request to a server of `Q` is not lost and arrives once,
but for those that had been sent when the state was `s₀`. -/
def KvServiceAction.Among (shouldSnapshot : RsmSystem n KVServer Request Reply → Fin n → Bool)
    (Q : Finset (Fin n)) (s₀ s : KvService n Ck) : KvServiceAction n Ck → Prop
  | .rsm a => a.Among shouldSnapshot Q s.kv.rsm ∨
      ∃ id : OpID n, id.server ∈ Q ∧ a = .giveUp id .deadline
  | .ack _ | .send _ | .complete _ => True
  | .handleGet k => (∃ g, ∃ i ∈ Q, s.asked[k]? = some (g, i)) ∧ ∀ id, s.handlers id ≠ some k
  | .handlePut k => (∃ x, x.dst ∈ Q ∧ s.kv.clerks.sent[k]? = some x) ∧ s.kv.handlers k = []
  | .reply _ id => id.server ∈ Q
  | .fail c => ∃ k i, s.pending c = some (k, i) ∧ (i ∉ Q ∨ k < s₀.requests c)
  | .get .. | .put .. => False

variable [DecidableEq Ck] [Labgob (Op n Request)] [Gob]

/-- The service where only the servers of `Q` and the clerks act. -/
def servedSys (servers : Ck → List (Fin n)) (clientID : Ck ↪ {id : ℕ // id ≠ 0})
    (shouldSnapshot : RsmSystem n KVServer Request Reply → Fin n → Bool) (Q : Finset (Fin n))
    (s₀ : KvService n Ck) : Sys (KvService n Ck) (KvServiceAction n Ck) where
  init s := s = s₀
  step s a s' := a.Among shouldSnapshot Q s₀ s ∧ s.step servers clientID a = some s'

variable {servers : Ck → List (Fin n)} {clientID : Ck ↪ {id : ℕ // id ≠ 0}}
  {shouldSnapshot : RsmSystem n KVServer Request Reply → Fin n → Bool} {Q : Finset (Fin n)}
  {epoch : Fin n → ℕ} {s₀ s s' : KvService n Ck} {c : CallID} {ck : Ck} {i q : Fin n}

theorem served_reachable {P : KvService n Ck → Prop}
    (hs : (kvServiceSys servers clientID epoch).Reachable s)
    (h : (servedSys servers clientID shouldSnapshot Q s₀).Can s P) :
    (servedSys servers clientID shouldSnapshot Q s₀).Can s fun s' =>
      (kvServiceSys servers clientID epoch).Reachable s' ∧ P s' :=
  h.reachable (fun _ _ _ hstep => hstep.2) hs

theorem serve_rsm {P : RsmSystem n KVServer Request Reply → Prop}
    (h : (awaitSys machine shouldSnapshot Q).Can s.kv.rsm P) :
    (servedSys servers clientID shouldSnapshot Q s₀).Can s fun s' =>
      ∃ rsm, s' = { s with kv := { s.kv with rsm := rsm } } ∧ P rsm := by
  obtain ⟨rsm, hstar, hP⟩ := h
  refine ⟨{ s with kv := { s.kv with rsm := rsm } }, ?_, rsm, rfl, hP⟩
  clear hP
  induction hstar with
  | refl => exact .refl
  | tail _ hnext ih =>
      obtain ⟨a, ha, hstep⟩ := hnext
      refine ih.tail ⟨.rsm a, ha, ?_⟩
      have hnot : ∀ i req timeout, a ≠ .submit i req timeout := by
        rintro i req timeout rfl
        rcases ha with ha | ⟨id, -, ha⟩
        · exact ha
        · cases ha
      cases a with
      | submit i req timeout => exact absurd rfl (hnot i req timeout)
      | _ =>
          simp only [KvService.step, KvSystem.step, hstep, Option.bind_eq_bind, Option.bind_some]

/-! ### One request -/

theorem handlers_lt (hs : (kvServiceSys servers clientID epoch).Reachable s) :
    ∀ id k, s.handlers id = some k → k < s.asked.length := by
  refine hs.invariant (I := fun s => ∀ id k, s.handlers id = some k → k < s.asked.length)
    (fun s hi => ?_) fun s a s' _ h hstep => ?_
  · rw [hi]
    intro id k hk
    cases hk
  · cases KvServiceStep.of_step hstep with
    | ask g i call attempt hg hphase =>
        intro id k hk
        have hlt := h id k hk
        simp only [List.length_append]
        omega
    | handle k g i call hk hg =>
        intro id k' hk'
        dsimp only at hk'
        rw [Function.update_apply] at hk'
        split at hk'
        · cases hk'
          exact (List.getElem?_eq_some_iff.mp hk).1
        · exact h id k' hk'
    | _ => exact h

theorem exists_call (hs : (kvServiceSys servers clientID epoch).Reachable s) {p : ℕ}
    (hc : s.clerkOf (.put p) = some ck) (hopen : ∀ err, s.kv.phase p ≠ .returned err) :
    ∃ call, s.kv.clerks.calls[p]? = some call ∧ call.completed = false ∧ call.clerk = ck := by
  obtain ⟨call, hcall, hck⟩ := Option.map_eq_some_iff.mp hc
  refine ⟨call, hcall, ?_, hck⟩
  cases hdone : call.completed with
  | false => rfl
  | true =>
      obtain ⟨err, herr⟩ :=
        (KvInv.reachable (KvServiceInv.reachable hs).1.kv).completed p call hcall hdone
      exact absurd herr (hopen err)

/-- The clerk of call `c` has turned to the server that it takes for the
leader. -/
structure Turned (ck : Ck) (c : CallID) (s s' : KvService n Ck) : Prop where
  raft : s'.kv.rsm.raft = s.kv.rsm.raft
  leader : s'.leader = s.leader
  clerk : s'.clerkOf c = some ck
  attempt : (s'.attempt c).server = s'.leader ck

omit [DecidableEq Ck] [Labgob (Op n Request)] [Gob] in
theorem clerkOf_set {s' : KvService n Ck} {p : ℕ} {call call' : PutCall Ck}
    (hcall : s.kv.clerks.calls[p]? = some call)
    (hcalls : s'.kv.clerks.calls = s.kv.clerks.calls.set p call')
    (hck : call'.clerk = call.clerk) :
    s'.clerkOf (.put p) = s.clerkOf (.put p) := by
  simp only [KvService.clerkOf, hcalls, Pool.set_self hcall, hcall, Option.map_some, hck]

theorem ack_call (hs : (kvServiceSys servers clientID epoch).Reachable s) {p : ℕ}
    (hc : s.clerkOf (.put p) = some ck) (hopen : s.Open (.put p)) :
    (servedSys servers clientID shouldSnapshot Q s₀).Can s fun s' => s'.kv.rsm = s.kv.rsm ∧
      s'.leader = s.leader ∧ s'.clerkOf (.put p) = some ck ∧ s'.kv.phase p = .ready := by
  rcases hopen with hloop | hready
  · obtain ⟨call, hcall, hnot, -⟩ := exists_call hs hc (by simp [hloop])
    obtain ⟨clerks, hclerks⟩ : ∃ clerks, s.kv.clerks.ack p = some clerks := by
      simp [Clerks.ack, hcall, hnot]
    obtain ⟨call', hcall', -, -, hcalls, -⟩ := Clerks.ack_spec hclerks
    set s₁ : KvService n Ck := { s with kv := { s.kv with
      clerks := clerks, phase := Function.update s.kv.phase p .ready } } with hs₁
    have hstep : s.step servers clientID (.ack p) = some s₁ := by
      simp only [KvService.step, KvSystem.step, hloop, hclerks, Option.bind_eq_bind,
        Option.bind_some, hs₁]
    refine .step (a := .ack p) ⟨trivial, hstep⟩ (.now ⟨rfl, rfl, ?_, ?_⟩)
    · rw [← hc]
      exact clerkOf_set hcall' hcalls rfl
    · simp [hs₁]
  · exact .now ⟨rfl, rfl, hc, hready⟩

/-- An open call sends a request to the server that its clerk takes for the
leader. -/
theorem send_call (hs : (kvServiceSys servers clientID epoch).Reachable s)
    (hc : s.clerkOf c = some ck) (hopen : s.Open c) (hi : (servers ck)[s.leader ck]? = some i) :
    (servedSys servers clientID shouldSnapshot Q s₀).Can s fun s' =>
      Turned ck c s s' ∧ ∃ k, s'.Calls k i c := by
  cases c with
  | get g =>
      set s₁ : KvService n Ck := { (s.setAttempt (.get g) { s.attempt (.get g) with
        server := s.leader ck }).setPhase g (.calling s.asked.length) with
          asked := s.asked ++ [(g, i)] } with hs₁
      have hphase : s.phase g = .loop := hopen
      have hstep : s.step servers clientID (.send (.get g)) = some s₁ := by
        simp only [KvService.step, hc, hi, Option.bind_eq_bind, Option.bind_some]
        simp only [KvService.setAttempt, hphase]
        rfl
      refine .step (a := .send (.get g)) ⟨trivial, hstep⟩ (.now ⟨⟨rfl, rfl, hc, ?_⟩,
        s.asked.length, ?_, ?_, fun id hid => ?_⟩)
      · simp [hs₁, KvService.setPhase, KvService.setAttempt]
      · simp [hs₁, KvService.setPhase]
      · simp [hs₁]
      · exact absurd (handlers_lt hs id _ hid) (lt_irrefl _)
  | put p =>
      refine (served_reachable hs (ack_call hs hc hopen)).andThen fun s₁ hnext => ?_
      obtain ⟨hs₁, hrsm, hleader, hclerk, hready⟩ := hnext
      obtain ⟨call, hcall, hnot, -⟩ := exists_call hs₁ hclerk (by simp [hready])
      set k := s₁.kv.clerks.sent.length with hk
      set s₂ : KvService n Ck := { s₁.setAttempt (.put p) { s₁.attempt (.put p) with
        server := s₁.leader ck } with kv := { s₁.kv with
          clerks := { s₁.kv.clerks with sent := s₁.kv.clerks.sent ++ [⟨p, i, call.args⟩] }
          phase := Function.update s₁.kv.phase p (.calling k) } } with hs₂
      have hstep : s₁.step servers clientID (.send (.put p)) = some s₂ := by
        rw [← hleader] at hi
        simp only [KvService.step, hclerk, hi, Option.bind_eq_bind, Option.bind_some]
        simp only [KvService.setAttempt, KvSystem.step, hready, Clerks.send, hcall, hnot,
          Option.bind_eq_bind, Option.bind_some, Bool.false_eq_true, if_false]
        rfl
      refine .step (a := .send (.put p)) ⟨trivial, hstep⟩ (.now ⟨⟨?_, hleader, hclerk, ?_⟩, k,
        ?_, ⟨call.args, ?_⟩, ?_⟩)
      · exact congrArg RsmSystem.raft hrsm
      · simp [hs₂, KvService.setAttempt]
      · simp [hs₂]
      · simp [hs₂, hk]
      · refine List.eq_nil_iff_forall_not_mem.mpr fun id hid => ?_
        obtain ⟨x, hx, -⟩ := (KvInv.reachable (KvServiceInv.reachable hs₁).1.kv).handled k id hid
        exact absurd (List.getElem?_eq_some_iff.mp hx).1 (lt_irrefl _)

/-- The request of a call reaches its server. -/
theorem handle_call (hs : (kvServiceSys servers clientID epoch).Reachable s) {k : ℕ}
    (hcalls : s.Calls k i c) (hi : i ∈ Q) :
    (servedSys servers clientID shouldSnapshot Q s₀).Can s fun s' => ∃ req,
      s'.kv.rsm = submitted s.kv.rsm i req ∧ s'.leader = s.leader ∧
      s'.clerkOf c = s.clerkOf c ∧ s'.attempt = s.attempt ∧
      s'.Awaits ⟨i, (s.kv.rsm.rsms i).epoch, (s.kv.rsm.rsms i).nextSequence + 1⟩ req c := by
  cases c with
  | get g =>
      obtain ⟨hphase, hasked, hnew⟩ := hcalls
      obtain ⟨call, hg⟩ := (KvServiceInv.reachable hs).1.asked k g i hasked
      have hstep : s.step servers clientID (.handleGet k) = some { s with
          kv := { s.kv with rsm := submitted s.kv.rsm i (.get ⟨call.key⟩) }
          handlers := Function.update s.handlers
            ⟨i, (s.kv.rsm.rsms i).epoch, (s.kv.rsm.rsms i).nextSequence + 1⟩ (some k) } := by
        simp only [KvService.step, hasked, hg, Option.bind_eq_bind, Option.bind_some]
        rfl
      exact .step (a := .handleGet k) ⟨⟨⟨g, i, hi, hasked⟩, hnew⟩, hstep⟩
        (.now ⟨.get ⟨call.key⟩, rfl, rfl, rfl, rfl, k, _, hphase, by simp, rfl⟩)
  | put p =>
      obtain ⟨hphase, ⟨args, hsent⟩, hnew⟩ := hcalls
      have hstep : s.step servers clientID (.handlePut k) = some { s with kv := { s.kv with
          rsm := submitted s.kv.rsm i (.put args)
          handlers := Function.update s.kv.handlers k
            (⟨i, (s.kv.rsm.rsms i).epoch, (s.kv.rsm.rsms i).nextSequence + 1⟩ ::
              s.kv.handlers k) } } := by
        simp only [KvService.step, KvSystem.step, hsent, Option.bind_eq_bind, Option.bind_some]
        rfl
      exact .step (a := .handlePut k) ⟨⟨⟨_, hi, hsent⟩, hnew⟩, hstep⟩
        (.now ⟨.put args, rfl, rfl, rfl, rfl, k, _, hphase, by simp, rfl⟩)

/-- The clerk has turned away from a server that has failed its call. -/
structure Retried (servers : Ck → List (Fin n)) (ck : Ck) (c : CallID) (s s' : KvService n Ck) :
    Prop where
  rsm : s'.kv.rsm = s.kv.rsm
  isOpen : s'.Open c
  clerk : s'.clerkOf c = some ck
  leader : (s.attempt c).server = s.leader ck →
    s'.leader ck = (s.leader ck + 1) % (servers ck).length

omit [Labgob (Op n Request)] [Gob] in
theorem Retried.of_retry (s₁ : KvService n Ck) (hrsm : s₁.kv.rsm = s.kv.rsm) (hopen : s₁.Open c)
    (hclerk : s₁.clerkOf c = some ck) (hattempt : s₁.attempt = s.attempt)
    (hleader : s₁.leader = s.leader) :
    Retried servers ck c s (s₁.retryAfterFailure servers c ck) := by
  obtain ⟨hkv, hphase, hgets⟩ : (s₁.retryAfterFailure servers c ck).kv = s₁.kv ∧
      (s₁.retryAfterFailure servers c ck).phase = s₁.phase ∧
      (s₁.retryAfterFailure servers c ck).gets = s₁.gets := by
    unfold KvService.retryAfterFailure KvService.advanceLeader
    dsimp only
    split
    · exact ⟨rfl, rfl, rfl⟩
    · exact ⟨rfl, rfl, rfl⟩
  refine ⟨by rw [hkv, hrsm], ?_, ?_, fun h => ?_⟩
  · cases c with
    | get g => exact (congrFun hphase g).trans hopen
    | put p =>
        unfold KvService.Open
        rw [hkv]
        exact hopen
  · rw [← hclerk]
    cases c with
    | get g => rw [KvService.clerkOf, hgets, KvService.clerkOf]
    | put p => rw [KvService.clerkOf, hkv, KvService.clerkOf]
  · rw [← hleader, ← hattempt] at h
    rw [← hleader]
    simp [KvService.retryAfterFailure, KvService.advanceLeader, h, KvService.rememberLeader,
      KvService.setAttempt]

/-- `Call` returns false. -/
theorem fail_call (hc : s.clerkOf c = some ck) {k : ℕ} (hpending : s.pending c = some (k, i))
    (hlost : i ∉ Q ∨ k < s₀.requests c) :
    (servedSys servers clientID shouldSnapshot Q s₀).Can s (Retried servers ck c s) := by
  cases c with
  | get g =>
      have hpending' := hpending
      simp only [KvService.pending] at hpending'
      split at hpending'
      · rename_i hphase
        refine .step (a := .fail (.get g)) ⟨⟨k, i, hpending, hlost⟩, ?_⟩
          (.now (.of_retry (s.setPhase g .loop) rfl ?_ hc rfl rfl))
        · simp only [KvService.step, hc, hphase, Option.bind_eq_bind, Option.bind_some]
        · simp [KvService.Open, KvService.setPhase]
      · cases hpending'
  | put p =>
      have hpending' := hpending
      simp only [KvService.pending] at hpending'
      split at hpending'
      · rename_i hphase
        refine .step (a := .fail (.put p)) ⟨⟨k, i, hpending, hlost⟩, ?_⟩
          (.now (.of_retry { s with kv := { s.kv with
            phase := Function.update s.kv.phase p .loop } } rfl ?_ hc rfl rfl))
        · simp only [KvService.step, KvSystem.step, hc, hphase, Option.bind_eq_bind,
            Option.bind_some]
        · simp [KvService.Open]
      · cases hpending'

theorem refused_call (hc : s.clerkOf c = some ck) {id : OpID n} {req : Request}
    {sub : Submission Request Reply} (hi : id.server ∈ Q) (hawaits : s.Awaits id req c)
    (hsub : s.kv.rsm.submissions id = some sub) (hphase : sub.phase = .returned .errWrongLeader) :
    (servedSys servers clientID shouldSnapshot Q s₀).Can s (Retried servers ck c s) := by
  cases c with
  | get g =>
      obtain ⟨k, args, hcalling, hhandler, rfl⟩ := hawaits
      refine .step (a := .reply (.get g) id) ⟨hi, ?_⟩
        (.now (.of_retry (s.setPhase g .loop) rfl ?_ hc rfl rfl))
      · simp only [KvService.step, hc, hcalling, hhandler, KvService.outcome, hsub, hphase,
          getReply, Option.bind_eq_bind, Option.bind_some, if_true]
      · simp [KvService.Open, KvService.setPhase]
  | put p =>
      obtain ⟨k, args, hcalling, hhandler, rfl⟩ := hawaits
      refine .step (a := .reply (.put p) id) ⟨hi, ?_⟩
        (.now (.of_retry { s with kv := { s.kv with
            phase := Function.update s.kv.phase p .loop } } rfl ?_ hc rfl rfl))
      · simp only [KvService.step, KvSystem.step, hc, hcalling, hhandler, hsub, hphase, putReply,
          PutPhase.answered, Option.bind_eq_bind, Option.bind_some, if_true, Function.update_self]
      · simp [KvService.Open]

theorem exists_doOp {rsm : RsmSystem n KVServer Request Reply}
    (hs : (rsmSys machine epoch).Reachable rsm) {id : OpID n} {sub : Submission Request Reply}
    {reply : Reply} (hsub : rsm.submissions id = some sub)
    (hphase : sub.phase = .returned (.ok reply)) :
    ∃ kv : KVServer, reply = (kv.doOp sub.req).2 := by
  obtain ⟨k, op, hop, rfl, hreply⟩ := (replies_reachable machine_lawful hs).call id sub reply hsub
    (Or.inr (by rw [hphase]; rfl))
  have hreq := operation_submitted hs hop
  rw [RsmSystem.requests, hsub, Option.map_some] at hreq
  rw [Option.some.inj hreq]
  exact ⟨_, hreply⟩

omit [DecidableEq Ck] in
theorem answered_returning {kv : KvSystem n Ck} (h : KvInv clientID epoch kv) {p k : ℕ}
    {id : OpID n} {sub : Submission Request Reply} {reply : PutReply}
    (hp : kv.phase p = .calling k) (hid : id ∈ kv.handlers k)
    (hsub : kv.rsm.submissions id = some sub)
    (hphase : sub.phase = .returned (.ok (.put reply))) :
    PutPhase.answered reply.err = .returning reply.err := by
  have hmem : reply ∈ kv.runs p := by simp [h.reply_runs hp hid hsub hphase]
  obtain ⟨x, hx, rfl⟩ := h.calling p k hp
  obtain ⟨call, hcall, -⟩ := h.clerks.sent x (List.mem_of_getElem? hx)
  rw [KvSystem.runs, KvSystem.runsBefore_eq hcall] at hmem
  rcases runsAt_reply h.puts_id le_rfl hmem with rfl | rfl | rfl <;> rfl

theorem complete_call (hs : (kvServiceSys servers clientID epoch).Reachable s) {p : ℕ} {err : Err}
    (hc : s.clerkOf (.put p) = some ck) (hphase : s.kv.phase p = .returning err) :
    (servedSys servers clientID shouldSnapshot Q s₀).Can s fun s' =>
      ∃ r, .ret (.put p) r ∈ s'.history := by
  obtain ⟨call, hcall, hnot, -⟩ := exists_call hs hc (by simp [hphase])
  obtain ⟨clerks, hclerks⟩ : ∃ clerks, s.kv.clerks.complete p = some clerks := by
    simp [Clerks.complete, hcall, hnot]
  have hstep : s.step servers clientID (.complete p) = some { s with
      kv := { s.kv with clerks := clerks, phase := Function.update s.kv.phase p (.returned err) }
      history := s.history ++ [.ret (.put p) (.put err)] } := by
    simp only [KvService.step, KvSystem.step, hphase, hclerks, Option.bind_eq_bind,
      Option.bind_some]
  exact .step (a := .complete p) ⟨trivial, hstep⟩ (.now ⟨.put err, by simp⟩)

/-- `Call` returns true, and the request has been executed. -/
theorem answered_call (hs : (kvServiceSys servers clientID epoch).Reachable s)
    (hc : s.clerkOf c = some ck) {id : OpID n} {sub : Submission Request Reply} {reply : Reply}
    (hi : id.server ∈ Q) (hawaits : s.Awaits id sub.req c)
    (hsub : s.kv.rsm.submissions id = some sub) (hphase : sub.phase = .returned (.ok reply)) :
    (servedSys servers clientID shouldSnapshot Q s₀).Can s fun s' =>
      ∃ r, .ret c r ∈ s'.history := by
  have hkv := KvInv.reachable (KvServiceInv.reachable hs).1.kv
  obtain ⟨kv, hreply⟩ := exists_doOp hkv.rsm hsub hphase
  cases c with
  | get g =>
      obtain ⟨k, args, hcalling, hhandler, hreq⟩ := hawaits
      rw [hreq] at hreply
      obtain rfl : reply = .get (kv.get args) := hreply
      have hstep : s.step servers clientID (.reply (.get g) id) = some
          { (s.setPhase g .returned).rememberLeader ck (s.attempt (.get g)).server with
            history := s.history ++ [.ret (.get g) (.get (kv.get args))] } := by
        simp only [KvService.step, hc, hcalling, hhandler, KvService.outcome, hsub, hphase,
          getReply, Option.bind_eq_bind, Option.bind_some, if_true]
        have herr : (kv.get args).err = .ok ∨ (kv.get args).err = .errNoKey := by
          unfold KVServer.get
          split
          · exact Or.inr rfl
          · exact Or.inl rfl
        rcases herr with herr | herr <;> rw [herr]
      exact .step (a := .reply (.get g) id) ⟨hi, hstep⟩ (.now ⟨.get (kv.get args), by simp⟩)
  | put p =>
      obtain ⟨k, args, hcalling, hhandler, hreq⟩ := hawaits
      rw [hreq] at hreply
      obtain rfl : reply = .put (kv.put args).2 := hreply
      have hreturning := answered_returning hkv hcalling hhandler hsub hphase
      set phase := Function.update s.kv.phase p (.returning (kv.put args).2.err) with hupdate
      set s₁ : KvService n Ck := { s with kv := { s.kv with phase := phase } }.rememberLeader ck
        (s.attempt (.put p)).server with hs₁
      have hstep : s.step servers clientID (.reply (.put p) id) = some s₁ := by
        simp only [KvService.step, KvSystem.step, hc, hcalling, hhandler, hsub, hphase, putReply,
          hreturning, Option.bind_eq_bind, Option.bind_some, if_true, Function.update_self, hs₁,
          hupdate]
      have hphase₁ : s₁.kv.phase p = .returning (kv.put args).2.err := by
        simp [hs₁, hupdate, KvService.rememberLeader]
      exact .step (a := .reply (.put p) id) ⟨hi, hstep⟩ (complete_call (hs.step hstep) hc hphase₁)

/-! ### From server to server -/

/-- An open call while server `q` leads. -/
structure Seeks (servers : Ck → List (Fin n)) (clientID : Ck ↪ {id : ℕ // id ≠ 0})
    (epoch : Fin n → ℕ) (Q : Finset (Fin n)) (q : Fin n) (ck : Ck) (c : CallID)
    (s : KvService n Ck) : Prop where
  reachable : (kvServiceSys servers clientID epoch).Reachable s
  leads : Leads Q q s.kv.rsm.raft
  isOpen : s.Open c
  clerk : s.clerkOf c = some ck

/-- An open call gets its request to the server that its clerk takes for the
leader, if that runs. -/
theorem Seeks.ask (h : Seeks servers clientID epoch Q q ck c s)
    (hi : (servers ck)[s.leader ck]? = some i) (hiQ : i ∈ Q) :
    (servedSys servers clientID shouldSnapshot Q s₀).Can s fun s' => Turned ck c s s' ∧
      (kvServiceSys servers clientID epoch).Reachable s' ∧
      ∃ id req, id.server = i ∧ s'.Awaits id req c ∧
        id.epoch = (s'.kv.rsm.rsms i).epoch ∧
        s'.kv.rsm.submissions id = some ⟨req, true, .registered, true, none⟩ := by
  refine (served_reachable h.reachable (send_call h.reachable h.clerk h.isOpen hi)).andThen
    fun s₁ hnext => ?_
  obtain ⟨hs₁, hturned, k, hcalls⟩ := hnext
  refine (served_reachable hs₁ (handle_call hs₁ hcalls hiQ)).mono fun s₂ hnext => ?_
  obtain ⟨hs₂, req, hrsm, hleader, hclerk, hattempt, hawaits⟩ := hnext
  refine ⟨⟨?_, hleader.trans hturned.leader, hclerk.trans hturned.clerk, ?_⟩, hs₂, _, req, rfl,
    hawaits, ?_, ?_⟩
  · rw [hrsm]
    exact hturned.raft
  · rw [hattempt, hleader, hturned.attempt]
  · rw [hrsm]
    simp [submitted, RsmSystem.setSubmission, RsmSystem.setRsm]
  · rw [hrsm]
    simp [submitted, RsmSystem.setSubmission]

/-- A server other than the leader makes the clerk go on to the next. -/
theorem Seeks.turn (h : Seeks servers clientID epoch Q q ck c s)
    (hi : (servers ck)[s.leader ck]? = some i) (hne : i ≠ q) :
    (servedSys servers clientID shouldSnapshot Q s₀).Can s fun s' =>
      Seeks servers clientID epoch Q q ck c s' ∧
      s'.leader ck = (s.leader ck + 1) % (servers ck).length := by
  by_cases hiQ : i ∈ Q
  · refine (h.ask hi hiQ).andThen fun s₁ hnext => ?_
    obtain ⟨hturned, hs₁, id, req, hserver, hawaits, hepoch, hsub⟩ := hnext
    subst hserver
    have hleads : Leads Q q s₁.kv.rsm.raft := hturned.raft ▸ h.leads
    have hrefused : (awaitSys machine shouldSnapshot Q).Can s₁.kv.rsm fun rsm =>
        Leads Q q rsm.raft ∧
        rsm.submissions id = some ⟨req, true, .returned .errWrongLeader, false, none⟩ :=
      hleads.refused hiQ hne hepoch hsub rfl rfl rfl
    refine (served_reachable hs₁ (serve_rsm hrefused)).andThen fun s₂ h₂ => ?_
    obtain ⟨hs₂, rsm, rfl, hleads₂, hsub₂⟩ := h₂
    have hclerk₂ := (clerkOf_rsm s₁ rsm c).trans hturned.clerk
    have hawaits₂ := (awaits_rsm s₁ rsm c id req).mpr hawaits
    refine (served_reachable hs₂ (refused_call hclerk₂ hiQ hawaits₂ hsub₂ rfl)).mono
      fun s₃ hnext => ?_
    obtain ⟨hs₃, hretried⟩ := hnext
    refine ⟨⟨hs₃, ?_, hretried.isOpen, hretried.clerk⟩, ?_⟩
    · rw [hretried.rsm]
      exact hleads₂
    · rw [hretried.leader hturned.attempt]
      exact congrArg (fun f => (f ck + 1) % (servers ck).length) hturned.leader
  · refine (served_reachable h.reachable (send_call h.reachable h.clerk h.isOpen hi)).andThen
      fun s₁ hnext => ?_
    obtain ⟨hs₁, hturned, k, hcalls⟩ := hnext
    have hpending : s₁.pending c = some (k, i) := by
      cases c with
      | get g => simp [KvService.pending, hcalls.1, hcalls.2.1]
      | put p =>
          obtain ⟨hphase, ⟨args, hsent⟩, -⟩ := hcalls
          simp [KvService.pending, hphase, hsent]
    refine (served_reachable hs₁ (fail_call hturned.clerk hpending (Or.inl hiQ))).mono
      fun s₂ hnext => ?_
    obtain ⟨hs₂, hretried⟩ := hnext
    refine ⟨⟨hs₂, ?_, hretried.isOpen, hretried.clerk⟩, ?_⟩
    · rw [hretried.rsm, hturned.raft]
      exact h.leads
    · rw [hretried.leader hturned.attempt, hturned.leader]

/-- How often a clerk goes on from server `l` before it is at server `j`. -/
def turns (length j l : ℕ) : ℕ := if l ≤ j then j - l else j + length - l

omit [Gob] in
theorem turns_lt {length j l : ℕ} (hl : l < length) (hj : j < length) (hne : l ≠ j) :
    turns length j ((l + 1) % length) < turns length j l := by
  have hnext : (l + 1) % length = if l + 1 = length then 0 else l + 1 := by
    split
    · rename_i heq
      rw [heq, Nat.mod_self]
    · exact Nat.mod_eq_of_lt (by omega)
  rw [hnext, turns, turns]
  split_ifs <;> omega

theorem Seeks.arrive (h : Seeks servers clientID epoch Q q ck c s) (hq : q ∈ servers ck) :
    (servedSys servers clientID shouldSnapshot Q s₀).Can s fun s' =>
      Seeks servers clientID epoch Q q ck c s' ∧ (servers ck)[s'.leader ck]? = some q := by
  obtain ⟨j, hj⟩ := List.getElem?_of_mem hq
  have hlength : j < (servers ck).length := (List.getElem?_eq_some_iff.mp hj).1
  refine Sys.Can.descend (Seeks servers clientID epoch Q q ck c)
    (fun s => (servers ck)[s.leader ck]? = some q)
    (fun s => turns (servers ck).length j (s.leader ck)) (fun s₁ h₁ hnot => ?_) h
  have hleader := (LeaderInv.reachable h₁.reachable).leader ck (List.ne_nil_of_mem hq)
  have hi := List.getElem?_eq_getElem hleader
  have hne : (servers ck)[s₁.leader ck] ≠ q := fun heq => hnot (heq ▸ hi)
  refine (h₁.turn hi hne).mono fun s₂ hnext => ?_
  obtain ⟨h₂, hleader₂⟩ := hnext
  refine ⟨h₂, Or.inr ?_⟩
  rw [hleader₂]
  exact turns_lt hleader hlength fun heq => hnot (heq ▸ hj)

theorem Seeks.finish (h : Seeks servers clientID epoch Q q ck c s) (hq : q ∈ Q)
    (hQ : n / 2 + 1 ≤ Q.card) (hi : (servers ck)[s.leader ck]? = some q) :
    (servedSys servers clientID shouldSnapshot Q s₀).Can s fun s' =>
      ∃ r, .ret c r ∈ s'.history := by
  refine (h.ask hi hq).andThen fun s₁ hnext => ?_
  obtain ⟨hturned, hs₁, id, req, hserver, hawaits, hepoch, hsub⟩ := hnext
  subst hserver
  have hleads : Leads Q id.server s₁.kv.rsm.raft := hturned.raft ▸ h.leads
  have hrsm := (KvInv.reachable (KvServiceInv.reachable hs₁).1.kv).rsm
  have hreturned : (awaitSys machine shouldSnapshot Q).Can s₁.kv.rsm fun rsm => ∃ reply,
      rsm.submissions id = some ⟨req, true, .returned (.ok reply), false, some reply⟩ :=
    attend_await (hleads.submitted hq hQ hrsm hepoch hsub rfl rfl)
  refine (served_reachable hs₁ (serve_rsm hreturned)).andThen fun s₂ h₂ => ?_
  obtain ⟨hs₂, rsm, rfl, reply, hsub₂⟩ := h₂
  exact answered_call hs₂ ((clerkOf_rsm s₁ rsm c).trans hturned.clerk) hq
    ((awaits_rsm s₁ rsm c id req).mpr hawaits) hsub₂ rfl

/-! ### All together -/

/-- A call that has not returned gives up the request it waits for, or has
its reply already. -/
theorem open_call (hs : (kvServiceSys servers clientID epoch).Reachable s)
    (hc : s.clerkOf c = some ck) (hopen : ¬ s.Returned c) :
    (servedSys servers clientID shouldSnapshot Q s).Can s fun s' =>
      (∃ r, .ret c r ∈ s'.history) ∨
        s'.kv.rsm = s.kv.rsm ∧ s'.Open c ∧ s'.clerkOf c = some ck := by
  have hfail : ∀ k i, s.pending c = some (k, i) → k < s.requests c →
      (servedSys servers clientID shouldSnapshot Q s).Can s fun s' =>
        (∃ r, .ret c r ∈ s'.history) ∨
          s'.kv.rsm = s.kv.rsm ∧ s'.Open c ∧ s'.clerkOf c = some ck :=
    fun k i hpending hlt => (fail_call hc hpending (Or.inr hlt)).mono
      fun s' h' => Or.inr ⟨h'.rsm, h'.isOpen, h'.clerk⟩
  cases c with
  | get g =>
      cases hphase : s.phase g with
      | loop => exact .now (Or.inr ⟨rfl, hphase, hc⟩)
      | calling k =>
          obtain ⟨i, hi⟩ := (KvServiceInv.reachable hs).1.calling g k hphase
          exact hfail k i (by simp [KvService.pending, hphase, hi])
            (List.getElem?_eq_some_iff.mp hi).1
      | returned => exact absurd hphase hopen
  | put p =>
      have hkv := KvInv.reachable (KvServiceInv.reachable hs).1.kv
      cases hphase : s.kv.phase p with
      | loop => exact .now (Or.inr ⟨rfl, Or.inl hphase, hc⟩)
      | ready => exact .now (Or.inr ⟨rfl, Or.inr hphase, hc⟩)
      | calling k =>
          obtain ⟨x, hx, -⟩ := hkv.calling p k hphase
          exact hfail k x.dst (by simp [KvService.pending, hphase, hx])
            (List.getElem?_eq_some_iff.mp hx).1
      | returning err => exact (complete_call hs hc hphase).mono fun s' h' => Or.inl h'
      | returned err => exact absurd ⟨err, hphase⟩ hopen
      | panicked => exact absurd hphase (hkv.sound p)

/-- **Every call of a clerk can return.** From every reachable state, whatever
has become of the requests sent before, the servers of any majority that
runs and the clerk of a call that knows them can bring the call to its end,
without help of the others, without a crash and without losing a message
or delivering a request twice, and whenever the servers take snapshots. -/
theorem clerk_progress (hs : (kvServiceSys servers clientID epoch).Reachable s)
    (hQ : n / 2 + 1 ≤ Q.card) (hlive : ∀ i ∈ Q, (s.kv.rsm.raft.rf i).dead = false)
    (hc : s.clerkOf c = some ck) (hknown : ∀ i ∈ Q, i ∈ servers ck) (hopen : ¬ s.Returned c)
    (shouldSnapshot : RsmSystem n KVServer Request Reply → Fin n → Bool) :
    ∃ s' r, (servedSys servers clientID shouldSnapshot Q s).Star s s' ∧ .ret c r ∈ s'.history := by
  suffices hcan : (servedSys servers clientID shouldSnapshot Q s).Can s fun s' =>
      ∃ r, .ret c r ∈ s'.history by
    obtain ⟨s', hstar, r, hr⟩ := hcan
    exact ⟨s', r, hstar, hr⟩
  refine (served_reachable hs (open_call hs hc hopen)).andThen fun s₁ hnext => ?_
  obtain ⟨hs₁, h₁⟩ := hnext
  rcases h₁ with hdone | ⟨hrsm, hopen₁, hclerk₁⟩
  · exact .now hdone
  have hreach := (KvInv.reachable (KvServiceInv.reachable hs₁).1.kv).rsm
  have halive : Alive Q s₁.kv.rsm.raft :=
    ⟨(ReplicaInv.reachable hreach).raft, fun i hi => by rw [hrsm]; exact hlive i hi⟩
  have helect : (awaitSys machine shouldSnapshot Q).Can s₁.kv.rsm fun rsm =>
      (rsmSys machine epoch).Reachable rsm ∧
        ∃ raft, rsm = { s₁.kv.rsm with raft := raft } ∧ ∃ q ∈ Q, Leads Q q raft :=
    attend_await (attend_raft hreach (halive.elect hQ))
  refine (served_reachable hs₁ (serve_rsm helect)).andThen fun s₂ h₂ => ?_
  obtain ⟨hs₂, _, rfl, -, raft, rfl, q, hq, hleads⟩ := h₂
  have hseeks : Seeks servers clientID epoch Q q ck c
      { s₁ with kv := { s₁.kv with rsm := { s₁.kv.rsm with raft := raft } } } :=
    ⟨hs₂, hleads, (open_rsm s₁ _ c).mpr hopen₁, (clerkOf_rsm s₁ _ c).trans hclerk₁⟩
  refine (hseeks.arrive (hknown q hq)).andThen fun s₃ hnext => ?_
  obtain ⟨hseeks₃, hi⟩ := hnext
  exact hseeks₃.finish hq hQ hi

end

/-- Three servers; a clerk has sent a `Put` to the leader, which has begun
with it and has been killed. -/
def putAtStopped : List (KvServiceAction 3 Unit) :=
  [.rsm (.raft (.startElection 0)), .rsm (.raft (.deliver 0)), .rsm (.raft (.deliver 0)),
    .put () [107] [118] 0, .ack 0, .send (.put 0), .handlePut 0, .rsm (.start ⟨0, 0, 1⟩),
    .rsm (.raft (.kill 0))]

theorem clerk_progress_putAtStopped :
    let _ : Gob := someGob
    let _ : Labgob (Op 3 Request) := someLabgob
    let s : KvService 3 Unit :=
      play (KvService.step (fun _ => [0, 1, 2]) aClientID) (.init fun _ => 0) putAtStopped
    s.kv.phase 0 = .calling 0 ∧ (s.kv.rsm.raft.rf 0).dead = true ∧
      ∃ s' r, (servedSys (fun _ => [0, 1, 2]) aClientID (fun _ _ => true) {1, 2} s).Star s s' ∧
        .ret (.put 0) r ∈ s'.history := by
  intro _ _ s
  have hs : (kvServiceSys (fun _ => [0, 1, 2]) aClientID fun _ => 0).Reachable s :=
    reachable_play _ _ putAtStopped
  have hphase : s.kv.phase 0 = .calling 0 := by decide +kernel
  have hdead : (s.kv.rsm.raft.rf 0).dead = true := by decide +kernel
  have hlive : ∀ i ∈ ({1, 2} : Finset (Fin 3)), (s.kv.rsm.raft.rf i).dead = false := by
    decide +kernel
  have hc : s.clerkOf (.put 0) = some () := by decide +kernel
  clear_value s
  refine ⟨hphase, hdead, clerk_progress hs (by decide) hlive hc (by decide) ?_ fun _ _ => true⟩
  rintro ⟨err, herr⟩
  rw [hphase] at herr
  cases herr

end RaftShardedKv.Kvraft
