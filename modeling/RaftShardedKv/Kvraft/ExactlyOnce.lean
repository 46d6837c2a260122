import RaftShardedKv.Kvraft.History

/-!
Every `Put` of a clerk is run at most once, and exactly once with the
result that is returned if it returns.

The committed operations of the replicated state machine are the history;
the requests in it are requests that the clerks have sent, so no watermark
in it is past what the clients have now. A call that waits for a reply is
not complete, so the reply is that of its one run.
-/

namespace RaftShardedKv.Kvraft

open Dedup Transition

section

variable {n : ℕ} {Ck : Type}
  {clientID : Ck ↪ {id : ℕ // id ≠ 0}} {epoch : Fin n → ℕ} {s s' : KvSystem n Ck}

/-! ### One step -/

variable [DecidableEq Ck] [Labgob (Op n Request)] [Gob]

/-- A call of `SubmitWithTimeout`. -/
def submitted (rsm : RsmSystem n KVServer Request Reply) (i : Fin n) (req : Request) :
    RsmSystem n KVServer Request Reply :=
  (rsm.setRsm i { rsm.rsms i with nextSequence := (rsm.rsms i).nextSequence + 1 }).setSubmission
    ⟨i, (rsm.rsms i).epoch, (rsm.rsms i).nextSequence + 1⟩ ⟨req, true, .registered, true, none⟩

/-- What a step can do. -/
inductive KvStep (clientID : Ck ↪ {id : ℕ // id ≠ 0}) (s : KvSystem n Ck) : KvSystem n Ck → Prop
  | rsm (a : RsmAction n Request) (rsm : RsmSystem n KVServer Request Reply)
      (ha : ∀ i req timeout, a ≠ .submit i req timeout) (hr : s.rsm.step machine a = some rsm) :
      KvStep clientID s { s with rsm := rsm }
  | get (i : Fin n) (args : GetArgs) :
      KvStep clientID s { s with rsm := submitted s.rsm i (.get args) }
  | begin (ck : Ck) (key value : GoString) (version : Tversion) (clerks : Clerks Ck (Fin n))
      (hc : s.clerks.begin clientID ck key value version = some clerks) :
      KvStep clientID s { s with clerks := clerks }
  | ack (p : ℕ) (clerks : Clerks Ck (Fin n)) (hp : s.phase p = .loop)
      (hc : s.clerks.ack p = some clerks) :
      KvStep clientID s { s with clerks := clerks, phase := Function.update s.phase p .ready }
  | send (p : ℕ) (i : Fin n) (clerks : Clerks Ck (Fin n)) (hp : s.phase p = .ready)
      (hc : s.clerks.send p i = some clerks) :
      KvStep clientID s { s with
        clerks := clerks
        phase := Function.update s.phase p (.calling s.clerks.sent.length) }
  | handle (k : ℕ) (x : Sent (Fin n)) (hk : s.clerks.sent[k]? = some x) :
      KvStep clientID s { s with
        rsm := submitted s.rsm x.dst (.put x.args)
        handlers := Function.update s.handlers k
          (⟨x.dst, (s.rsm.rsms x.dst).epoch, (s.rsm.rsms x.dst).nextSequence + 1⟩ ::
            s.handlers k) }
  | reply (p k : ℕ) (id : OpID n) (sub : Submission Request Reply) (outcome : Outcome Reply)
      (err : Err) (hp : s.phase p = .calling k) (hid : id ∈ s.handlers k)
      (hsub : s.rsm.submissions id = some sub) (hphase : sub.phase = .returned outcome)
      (herr : putReply outcome = some err) :
      KvStep clientID s { s with phase := Function.update s.phase p (.answered err) }
  | fail (p k : ℕ) (hp : s.phase p = .calling k) :
      KvStep clientID s { s with phase := Function.update s.phase p .loop }
  | complete (p : ℕ) (err : Err) (clerks : Clerks Ck (Fin n)) (hp : s.phase p = .returning err)
      (hc : s.clerks.complete p = some clerks) :
      KvStep clientID s { s with
        clerks := clerks
        phase := Function.update s.phase p (.returned err) }

theorem KvStep.of_step {a : KvAction n Ck} (hs : s.step clientID a = some s') :
    KvStep clientID s s' := by
  cases a with
  | rsm a =>
      obtain ⟨rsm, hr, hs⟩ := Option.bind_eq_some_iff.mp hs
      cases hs
      split at hr
      · cases hr
      · rename_i hnot
        exact .rsm a rsm (fun i req timeout heq => hnot i req timeout heq) hr
  | get i args =>
      cases hs
      exact .get i args
  | begin ck key value version =>
      obtain ⟨clerks, hc, hs⟩ := Option.bind_eq_some_iff.mp hs
      cases hs
      exact .begin ck key value version clerks hc
  | ack p =>
      simp only [KvSystem.step] at hs
      split at hs
      · rename_i hp
        obtain ⟨clerks, hc, hs⟩ := Option.bind_eq_some_iff.mp hs
        cases hs
        exact .ack p clerks hp hc
      · cases hs
  | send p i =>
      simp only [KvSystem.step] at hs
      split at hs
      · rename_i hp
        obtain ⟨clerks, hc, hs⟩ := Option.bind_eq_some_iff.mp hs
        cases hs
        exact .send p i clerks hp hc
      · cases hs
  | handle k =>
      obtain ⟨x, hk, hs⟩ := Option.bind_eq_some_iff.mp hs
      cases hs
      exact .handle k x hk
  | reply p id =>
      simp only [KvSystem.step] at hs
      split at hs
      · rename_i k hp
        obtain ⟨sub, hsub, hs⟩ := Option.bind_eq_some_iff.mp hs
        split at hsub
        · rename_i hid
          split at hs
          · rename_i outcome hphase
            obtain ⟨err, herr, hs⟩ := Option.bind_eq_some_iff.mp hs
            cases hs
            exact .reply p k id sub outcome err hp hid hsub hphase herr
          · cases hs
        · cases hsub
      · cases hs
  | fail p =>
      simp only [KvSystem.step] at hs
      split at hs
      · rename_i k hp
        cases hs
        exact .fail p k hp
      · cases hs
  | complete p =>
      simp only [KvSystem.step] at hs
      split at hs
      · rename_i err hp
        obtain ⟨clerks, hc, hs⟩ := Option.bind_eq_some_iff.mp hs
        cases hs
        exact .complete p err clerks hp hc
      · cases hs

/-! ### The invariant -/

namespace KvSystem

def history (s : KvSystem n Ck) : List (Op n Request) := s.rsm.raft.operations

/-- The runs of `putLocked` for call `p` in the first `m` operations, with
what they return. -/
def runsBefore (s : KvSystem n Ck) (m p : ℕ) : List PutReply :=
  match s.clerks.calls[p]? with
  | some call => runsAt s.history call.args.clientID call.args.sequence m
  | none => []

def runs (s : KvSystem n Ck) (p : ℕ) : List PutReply := s.runsBefore s.history.length p

omit [DecidableEq Ck] [Labgob (Op n Request)] in
theorem runsBefore_eq {p : ℕ} {call : PutCall Ck} (hp : s.clerks.calls[p]? = some call) (m : ℕ) :
    s.runsBefore m p = runsAt s.history call.args.clientID call.args.sequence m := by
  rw [runsBefore, hp]

end KvSystem

/-- Where the requests in the service come from. -/
structure Handled (clientID : Ck ↪ {id : ℕ // id ≠ 0}) (epoch : Fin n → ℕ) (s : KvSystem n Ck) :
    Prop where
  rsm : (rsmSys machine epoch).Reachable s.rsm
  clerks : s.clerks.Inv clientID
  known : ∀ id args, s.rsm.requests id = some (.put args) → ∃ x ∈ s.clerks.sent, x.args = args
  handled : ∀ k, ∀ id ∈ s.handlers k, ∃ x, s.clerks.sent[k]? = some x ∧
    s.rsm.requests id = some (.put x.args)

/-- Where the calls are. -/
structure KvInv (clientID : Ck ↪ {id : ℕ // id ≠ 0}) (epoch : Fin n → ℕ) (s : KvSystem n Ck) :
    Prop extends Handled clientID epoch s where
  calling : ∀ p k, s.phase p = .calling k → ∃ x, s.clerks.sent[k]? = some x ∧ x.call = p
  completed : ∀ (p : ℕ) call, s.clerks.calls[p]? = some call → call.completed = true →
    ∃ err, s.phase p = .returned err
  answered : ∀ p err, s.phase p = .returning err ∨ s.phase p = .returned err → s.runs p = [⟨err⟩]
  sound : ∀ p, s.phase p ≠ .panicked

omit [Labgob (Op n Request)] [Gob] in
theorem requests_submitted (rsm : RsmSystem n KVServer Request Reply) (i : Fin n) (req : Request) :
    (submitted rsm i req).requests = Function.update rsm.requests
      ⟨i, (rsm.rsms i).epoch, (rsm.rsms i).nextSequence + 1⟩ (some req) := by
  ext1 id
  unfold submitted RsmSystem.requests RsmSystem.setSubmission
  dsimp only
  rw [Function.update_apply, Function.update_apply]
  split <;> rfl

section

omit [DecidableEq Ck]

theorem Handled.submit (h : Handled clientID epoch s) (i : Fin n) {req : Request}
    (hreq : ∀ args, req = .put args → ∃ x ∈ s.clerks.sent, x.args = args) :
    Handled clientID epoch { s with rsm := submitted s.rsm i req } where
  rsm := h.rsm.step (a := .submit i req true) rfl
  clerks := h.clerks
  known id args hid := by
    change (submitted s.rsm i req).requests id = _ at hid
    rw [requests_submitted, Function.update_apply] at hid
    split at hid
    · exact hreq args (Option.some.inj hid)
    · exact h.known id args hid
  handled k id hid := by
    obtain ⟨x, hx, hreq⟩ := h.handled k id hid
    refine ⟨x, hx, ?_⟩
    show (submitted s.rsm i req).requests id = _
    rw [requests_submitted, Function.update_of_ne]
    · exact hreq
    · rintro rfl
      rw [(SubmitInv.reachable h.rsm).requests_next i] at hreq
      cases hreq

theorem Handled.later (h : Handled clientID epoch s) {clerks : Clerks Ck (Fin n)}
    {phase : ℕ → PutPhase} (hclerks : clerks.Inv clientID)
    (hsent : s.clerks.sent <+: clerks.sent) :
    Handled clientID epoch { s with clerks := clerks, phase := phase } where
  rsm := h.rsm
  clerks := hclerks
  known id args hid := by
    obtain ⟨x, hx, hargs⟩ := h.known id args hid
    exact ⟨x, hsent.subset hx, hargs⟩
  handled k id hid := by
    obtain ⟨x, hx, hreq⟩ := h.handled k id hid
    obtain ⟨rest, hrest⟩ := hsent
    refine ⟨x, ?_, hreq⟩
    show clerks.sent[k]? = some x
    rw [← hrest]
    exact Pool.append hx rest

theorem Handled.puts (h : Handled clientID epoch s) :
    Puts (fun args => ∃ x ∈ s.clerks.sent, x.args = args) s.history := by
  intro k op args hop hreq
  have hsub := operation_submitted h.rsm hop
  rw [hreq] at hsub
  exact h.known _ args hsub

theorem Handled.puts_ack (h : Handled clientID epoch s) :
    Puts (fun args => args.clientID ≠ 0 ∧ args.ack ≤ s.clerks.watermark clientID args.clientID)
      s.history := by
  intro k op args hop hreq
  obtain ⟨x, hx, rfl⟩ := h.puts k op args hop hreq
  exact h.clerks.sent_ack hx

theorem Handled.puts_id (h : Handled clientID epoch s) :
    Puts (fun args => args.clientID ≠ 0) s.history :=
  fun k op args hop hreq => (h.puts_ack k op args hop hreq).1

theorem Handled.runs_mono (h' : Handled clientID epoch s')
    (hgrow : s.history <+: s'.history) (hlater : s.clerks.Later s'.clerks) {p : ℕ} {err : Err}
    (hruns : s.runs p = [⟨err⟩]) : s'.runs p = [⟨err⟩] := by
  unfold KvSystem.runs at hruns ⊢
  cases hp : s.clerks.calls[p]? with
  | none =>
      rw [KvSystem.runsBefore, hp] at hruns
      cases hruns
  | some call =>
      obtain ⟨call', hp', -, hfor⟩ := hlater.call p call hp
      rw [KvSystem.runsBefore_eq hp] at hruns
      rw [KvSystem.runsBefore_eq hp', hfor]
      refine runsAt_of_eq h'.puts_id ?_ hgrow.length_le le_rfl
      rw [runsAt_mono hgrow le_rfl]
      exact hruns

theorem KvInv.setPhase (h : KvInv clientID epoch s) {p : ℕ} {phase : PutPhase}
    (hopen : ∀ err, s.phase p ≠ .returned err)
    (hcalling : ∀ k, phase = .calling k → ∃ x, s.clerks.sent[k]? = some x ∧ x.call = p)
    (hanswered : ∀ err, phase = .returning err ∨ phase = .returned err → s.runs p = [⟨err⟩])
    (hsound : phase ≠ .panicked) :
    KvInv clientID epoch { s with phase := Function.update s.phase p phase } where
  toHandled := h.toHandled.later h.clerks List.prefix_rfl
  calling p' k hk := by
    rcases eq_or_ne p' p with rfl | hne
    · exact hcalling k (by simpa using hk)
    · exact h.calling p' k (by simpa [hne] using hk)
  completed p' call hp' hdone := by
    rcases eq_or_ne p' p with rfl | hne
    · obtain ⟨err, herr⟩ := h.completed p' call hp' hdone
      exact absurd herr (hopen err)
    · simpa [hne] using h.completed p' call hp' hdone
  answered p' err herr := by
    show s.runs p' = _
    rcases eq_or_ne p' p with rfl | hne
    · exact hanswered err (by simpa using herr)
    · exact h.answered p' err (by simpa [hne] using herr)
  sound p' := by
    rcases eq_or_ne p' p with rfl | hne
    · simpa using hsound
    · simpa [hne] using h.sound p'

theorem KvInv.setClerks (h : KvInv clientID epoch s) {clerks : Clerks Ck (Fin n)}
    (hinv : clerks.Inv clientID ∧ s.clerks.Later clerks) (hsent : s.clerks.sent <+: clerks.sent)
    (hcompleted : ∀ (p : ℕ) call, clerks.calls[p]? = some call → call.completed = true →
      ∃ err, s.phase p = .returned err) : KvInv clientID epoch { s with clerks := clerks } where
  toHandled := h.toHandled.later hinv.1 hsent
  calling p k hk := by
    obtain ⟨x, hx, hcall⟩ := h.calling p k hk
    obtain ⟨rest, hrest⟩ := hsent
    refine ⟨x, ?_, hcall⟩
    show clerks.sent[k]? = some x
    rw [← hrest]
    exact Pool.append hx rest
  completed := hcompleted
  answered p err herr := (h.toHandled.later hinv.1 hsent).runs_mono (s := s) List.prefix_rfl hinv.2
    (h.answered p err herr)
  sound := h.sound

theorem KvInv.setRsm (h : KvInv clientID epoch s) {rsm : RsmSystem n KVServer Request Reply}
    {handlers : ℕ → List (OpID n)} (hgrow : s.rsm.raft.operations <+: rsm.raft.operations)
    (hhandled : Handled clientID epoch { s with rsm := rsm, handlers := handlers }) :
    KvInv clientID epoch { s with rsm := rsm, handlers := handlers } where
  toHandled := hhandled
  calling := h.calling
  completed := h.completed
  answered p err herr := hhandled.runs_mono hgrow (.refl s.clerks) (h.answered p err herr)
  sound := h.sound

/-- The reply that a call waits for is what its one run has returned. -/
theorem KvInv.reply_runs (h : KvInv clientID epoch s) {p k : ℕ} {id : OpID n}
    {sub : Submission Request Reply} {reply : PutReply} (hp : s.phase p = .calling k)
    (hid : id ∈ s.handlers k) (hsub : s.rsm.submissions id = some sub)
    (hphase : sub.phase = .returned (.ok (.put reply))) : s.runs p = [reply] := by
  obtain ⟨x, hx, hreq⟩ := h.handled k id hid
  obtain ⟨x', hx', rfl⟩ := h.calling p k hp
  obtain rfl := Option.some.inj (hx.symm.trans hx')
  obtain ⟨call, hcall, hfor, -⟩ := h.clerks.sent x (List.mem_of_getElem? hx)
  have hnot : call.completed = false := by
    cases hdone : call.completed with
    | false => rfl
    | true =>
        obtain ⟨err, herr⟩ := h.completed _ call hcall hdone
        rw [hp] at herr
        cases herr
  have hseq := h.clerks.active hcall hnot
  obtain ⟨m, op, hop, rfl, hreply⟩ := (replies_reachable machine_lawful h.rsm).call id sub _ hsub
    (Or.inr (by rw [hphase]; rfl))
  have hput : op.req = .put x.args := by
    have hop' := operation_submitted h.rsm hop
    rw [hreq] at hop'
    exact (Option.some.inj hop').symm
  obtain rfl : reply = ((stateAt s.history m).put x.args).2 := by
    rw [hput] at hreply
    exact Reply.put.inj hreply
  rw [KvSystem.runs, KvSystem.runsBefore_eq hcall]
  refine runsAt_of_eq h.puts_id ?_ (List.getElem?_eq_some_iff.mp hop).1 le_rfl
  have hx : x.args.clientID = call.args.clientID ∧ x.args.sequence = call.args.sequence := by
    rw [hfor]
    exact ⟨rfl, rfl⟩
  rw [← hx.1, ← hx.2] at hseq ⊢
  exact answer_active h.puts_ack hop hput hseq

theorem KvInv.reply (h : KvInv clientID epoch s) {p k : ℕ} {id : OpID n}
    {sub : Submission Request Reply} {outcome : Outcome Reply} {err : Err}
    (hp : s.phase p = .calling k) (hid : id ∈ s.handlers k)
    (hsub : s.rsm.submissions id = some sub) (hphase : sub.phase = .returned outcome)
    (herr : putReply outcome = some err) :
    KvInv clientID epoch { s with phase := Function.update s.phase p (.answered err) } := by
  have hopen : ∀ err, s.phase p ≠ .returned err := by simp [hp]
  match outcome, herr with
  | .errWrongLeader, herr =>
      cases herr
      exact h.setPhase hopen (by simp [PutPhase.answered]) (by simp [PutPhase.answered])
        (by simp [PutPhase.answered])
  | .ok (.put reply), herr =>
      cases herr
      have hruns := h.reply_runs hp hid hsub hphase
      have hphase : PutPhase.answered reply.err = .returning reply.err := by
        obtain ⟨call, hcall⟩ : ∃ call, s.clerks.calls[p]? = some call := by
          obtain ⟨x, hx, rfl⟩ := h.calling p k hp
          obtain ⟨call, hcall, -⟩ := h.clerks.sent x (List.mem_of_getElem? hx)
          exact ⟨call, hcall⟩
        have hmem : reply ∈ s.runs p := by simp [hruns]
        rw [KvSystem.runs, KvSystem.runsBefore_eq hcall] at hmem
        rcases runsAt_reply h.puts_id le_rfl hmem with rfl | rfl | rfl <;> rfl
      rw [hphase]
      refine h.setPhase hopen (by simp) (fun err herr => ?_) (by simp)
      obtain rfl : reply.err = err := by simpa using herr
      exact hruns
  | .ok (.get reply), herr => cases herr

end

theorem KvInv.step (h : KvInv clientID epoch s) (hs : KvStep clientID s s') :
    KvInv clientID epoch s' := by
  cases hs with
  | rsm a rsm ha hr =>
      have hreachable : (rsmSys machine epoch).Reachable rsm := h.rsm.step hr
      have hreq := RsmSystem.requests_step hr ha
      refine h.setRsm ((RsmStep.of_step hr).operations (.reachable h.rsm))
        ⟨hreachable, h.clerks, fun id args hid => ?_, fun k id hid => ?_⟩
      · exact h.known id args (hreq ▸ hid)
      · obtain ⟨x, hx, hid⟩ := h.handled k id hid
        exact ⟨x, hx, (congrFun hreq id).trans hid⟩
  | get i args =>
      exact h.setRsm List.prefix_rfl (h.toHandled.submit i fun args' heq => by cases heq)
  | begin ck key value version clerks hc =>
      obtain ⟨-, -, hcalls, hsent⟩ := Clerks.begin_spec h.clerks hc
      refine h.setClerks (h.clerks.begin hc) (hsent ▸ List.prefix_rfl) fun p call hp hdone => ?_
      rw [hcalls] at hp
      rcases Pool.concat_cases hp with hp | ⟨-, rfl⟩
      · exact h.completed p call hp hdone
      · cases hdone
  | ack p clerks hp hc =>
      obtain ⟨call, hcall, hnot, -, hcalls, hsent⟩ := Clerks.ack_spec hc
      have hclerks : KvInv clientID epoch { s with clerks := clerks } := by
        refine h.setClerks (h.clerks.ack hc) (hsent ▸ List.prefix_rfl)
          fun p' call' hp' hdone => ?_
        rw [hcalls] at hp'
        rcases Pool.set_cases hp' with ⟨rfl, rfl⟩ | ⟨-, hp'⟩
        · exact h.completed p' call hcall hdone
        · exact h.completed p' call' hp' hdone
      exact hclerks.setPhase (by simp [hp]) (by simp) (by simp) (by simp)
  | send p i clerks hp hc =>
      obtain ⟨call, hcall, hnot, heq⟩ := Clerks.send_spec hc
      have hclerks : KvInv clientID epoch { s with clerks := clerks } := by
        refine h.setClerks (h.clerks.send hc) (heq ▸ List.prefix_append _ _)
          fun p' call' hp' hdone => ?_
        rw [heq] at hp'
        exact h.completed p' call' hp' hdone
      refine hclerks.setPhase (by simp [hp]) (fun k hk => ?_) (by simp) (by simp)
      cases hk
      refine ⟨⟨p, i, call.args⟩, ?_, rfl⟩
      rw [heq]
      exact List.getElem?_concat_length
  | handle k x hk =>
      have hsubmit : Handled clientID epoch
          { s with rsm := submitted s.rsm x.dst (.put x.args) } := by
        refine h.toHandled.submit x.dst fun args heq => ?_
        cases heq
        exact ⟨x, List.mem_of_getElem? hk, rfl⟩
      refine h.setRsm List.prefix_rfl ⟨hsubmit.rsm, h.clerks, hsubmit.known, fun k' id hid => ?_⟩
      rcases eq_or_ne k' k with rfl | hne
      · simp only [Function.update_self, List.mem_cons] at hid
        rcases hid with rfl | hid
        · refine ⟨x, hk, ?_⟩
          show (submitted s.rsm x.dst _).requests _ = _
          rw [requests_submitted, Function.update_self]
        · exact hsubmit.handled k' id hid
      · exact hsubmit.handled k' id (by simpa [hne] using hid)
  | reply p k id sub outcome err hp hid hsub hphase herr => exact h.reply hp hid hsub hphase herr
  | fail p k hp => exact h.setPhase (by simp [hp]) (by simp) (by simp) (by simp)
  | complete p err clerks hp hc =>
      obtain ⟨call, hcall, hnot, -, -, hcalls, hsent⟩ := Clerks.complete_spec hc
      have hphase : KvInv clientID epoch
          { s with phase := Function.update s.phase p (.returned err) } := by
        refine h.setPhase (by simp [hp]) (by simp) (fun err' herr => ?_) (by simp)
        obtain rfl : err = err' := by simpa using herr
        exact h.answered p err (Or.inl hp)
      refine hphase.setClerks (h.clerks.complete hc) (hsent ▸ List.prefix_rfl)
        fun p' call' hp' hdone => ?_
      rw [hcalls] at hp'
      rcases Pool.set_cases hp' with ⟨rfl, -⟩ | ⟨-, hp'⟩
      · exact ⟨err, by simp⟩
      · exact hphase.completed p' call' hp' hdone

omit [DecidableEq Ck] in
theorem KvInv.init : KvInv clientID epoch (KvSystem.init epoch) where
  rsm := .init rfl
  clerks := .init
  known id args hid := by cases hid
  handled k id hid := by cases hid
  calling p k hk := by cases hk
  completed p call hp := by cases hp
  answered p err herr := by rcases herr with herr | herr <;> cases herr
  sound p hp := by cases hp

theorem KvInv.reachable (hs : (kvSys clientID epoch).Reachable s) : KvInv clientID epoch s :=
  hs.invariant (fun _ hi => hi ▸ .init) fun _ _ _ _ ih hstep => ih.step (.of_step hstep)

/-! ### Versions -/

namespace KvSystem

/-- Call `p` is for this key and its run, in the first `m` operations, has
returned `OK`. -/
def PutOk (s : KvSystem n Ck) (m : ℕ) (key : GoString) (p : ℕ) : Prop :=
  (s.clerks.calls[p]?.map fun call => call.args.key) = some key ∧ s.runsBefore m p = [⟨.ok⟩]

instance (s : KvSystem n Ck) (m : ℕ) (key : GoString) : DecidablePred (s.PutOk m key) :=
  fun _ => inferInstanceAs (Decidable (_ ∧ _))

/-- The calls for this key whose run has returned `OK`. -/
def putsOk (s : KvSystem n Ck) (m : ℕ) (key : GoString) : Finset ℕ :=
  (Finset.range s.clerks.calls.length).filter (s.PutOk m key)

omit [DecidableEq Ck] [Labgob (Op n Request)] in
theorem mem_putsOk {m p : ℕ} {key : GoString} : p ∈ s.putsOk m key ↔ s.PutOk m key p := by
  unfold putsOk
  rw [Finset.mem_filter, Finset.mem_range, and_iff_right_iff_imp]
  rintro ⟨hkey, -⟩
  obtain ⟨call, hp, -⟩ := Option.map_eq_some_iff.mp hkey
  exact (List.getElem?_eq_some_iff.mp hp).1

end KvSystem

section

omit [DecidableEq Ck]

/-- The request at place `m` of the history is that of one call; no other
is run there. -/
theorem Handled.runsBefore_succ (h : Handled clientID epoch s) {m : ℕ} {op : Op n Request}
    {args : PutArgs} (hop : s.history[m]? = some op) (hreq : op.req = .put args) :
    ∃ p call, s.clerks.calls[p]? = some call ∧ call.args.key = args.key ∧
      (s.runsBefore (m + 1) p = s.runsBefore m p ++
        (stateAt s.history m).runsFor args.clientID args.sequence op.req) ∧
      ∀ p', p' ≠ p → s.runsBefore (m + 1) p' = s.runsBefore m p' := by
  obtain ⟨x, hx, rfl⟩ := h.puts m op args hop hreq
  obtain ⟨call, hcall, hfor, -⟩ := h.clerks.sent x hx
  refine ⟨x.call, call, hcall, by rw [hfor], ?_, fun p' hne => ?_⟩
  · rw [KvSystem.runsBefore_eq hcall, KvSystem.runsBefore_eq hcall, runsAt_succ hop, hfor]
  · cases hp' : s.clerks.calls[p']? with
    | none =>
        unfold KvSystem.runsBefore
        rw [hp']
    | some call' =>
        rw [KvSystem.runsBefore_eq hp', KvSystem.runsBefore_eq hp', runsAt_succ hop, hreq]
        have hother : ¬ (x.args.clientID = call'.args.clientID ∧
            x.args.sequence = call'.args.sequence) := by
          rw [hfor]
          rintro ⟨hid, hq⟩
          exact hne (h.clerks.call_unique hp' hcall hid.symm hq.symm)
        simp [KVServer.runsFor, Table.runsFor, hother]

theorem Handled.length_le (h : Handled clientID epoch s) {m : ℕ} (hm : m ≤ s.history.length)
    (p : ℕ) : (s.runsBefore m p).length ≤ 1 := by
  cases hp : s.clerks.calls[p]? with
  | none =>
      rw [KvSystem.runsBefore, hp]
      exact Nat.zero_le 1
  | some call =>
      rw [KvSystem.runsBefore_eq hp]
      exact (recorded_stateAt h.puts_id hm _ _).length_le

/-- One operation adds at most the call it is for. -/
theorem Handled.putsOk_succ (h : Handled clientID epoch s) {m : ℕ} {op : Op n Request}
    {args : PutArgs} (hop : s.history[m]? = some op) (hreq : op.req = .put args) (key : GoString) :
    (s.putsOk (m + 1) key).card = (s.putsOk m key).card +
      if key = args.key ∧ (stateAt s.history m).runsFor args.clientID args.sequence op.req = [⟨.ok⟩]
      then 1 else 0 := by
  obtain ⟨p, call, hcall, hkey, hself, hother⟩ := h.runsBefore_succ hop hreq
  have hone := h.length_le (List.getElem?_eq_some_iff.mp hop).1 p
  rw [hself, List.length_append] at hone
  split
  · rename_i hnew
    obtain ⟨rfl, hruns⟩ := hnew
    rw [hruns] at hself hone
    have hnil : s.runsBefore m p = [] := List.length_eq_zero_iff.mp (by simpa using hone)
    rw [← Finset.card_insert_of_notMem (a := p)]
    · congr 1
      ext p'
      rw [Finset.mem_insert, KvSystem.mem_putsOk, KvSystem.mem_putsOk]
      unfold KvSystem.PutOk
      rcases eq_or_ne p' p with rfl | hne
      · simp [hself, hnil, hcall, hkey]
      · simp [hother p' hne, hne]
    · rw [KvSystem.mem_putsOk]
      simp [KvSystem.PutOk, hnil]
  · rename_i hnew
    rw [add_zero]
    congr 1
    ext p'
    rw [KvSystem.mem_putsOk, KvSystem.mem_putsOk]
    unfold KvSystem.PutOk
    rcases eq_or_ne p' p with rfl | hne
    · rw [hself, hcall, Option.map_some, hkey, and_congr_right_iff]
      intro heq
      rw [List.append_eq_singleton_iff]
      refine ⟨fun hcases => ?_, fun hok => Or.inr ⟨hok, ?_⟩⟩
      · rcases hcases with ⟨-, hruns⟩ | ⟨hok, -⟩
        · exact absurd ⟨(Option.some.inj heq).symm, hruns⟩ hnew
        · exact hok
      · exact List.length_eq_zero_iff.mp (by simpa [hok] using hone)
    · rw [hother p' hne]

theorem Handled.version (h : Handled clientID epoch s) {m : ℕ} (hm : m ≤ s.history.length)
    (key : GoString) : versionOf (stateAt s.history m).values key =
      UInt64.ofNat (s.putsOk m key).card := by
  induction m with
  | zero =>
      have hnone : s.putsOk 0 key = ∅ := by
        ext p
        rw [KvSystem.mem_putsOk, KvSystem.PutOk, KvSystem.runsBefore]
        cases s.clerks.calls[p]? <;> simp [runsAt]
      rw [hnone]
      rfl
  | succ m ih =>
      have ih := ih (by omega)
      obtain ⟨op, hop⟩ : ∃ op, s.history[m]? = some op := ⟨_, List.getElem?_eq_getElem hm⟩
      cases hreq : op.req with
      | get args =>
          have hsame : s.putsOk (m + 1) key = s.putsOk m key := by
            ext p
            rw [KvSystem.mem_putsOk, KvSystem.mem_putsOk, KvSystem.PutOk, KvSystem.PutOk,
              KvSystem.runsBefore, KvSystem.runsBefore]
            cases s.clerks.calls[p]? <;> simp [runsAt_succ hop, hreq, KVServer.runsFor]
          rw [stateAt_get hop hreq, hsame, ih]
      | put args =>
          rw [version_succ hop hreq (h.puts_id m op args hop hreq), h.putsOk_succ hop hreq, ih,
            UInt64.ofNat_add]
          split <;> rfl

end

/-! ### Exactly once -/

structure ExactlyOnce (s : KvSystem n Ck) : Prop where
  once : ∀ p, (s.runs p).length ≤ 1
  returned : ∀ p err, s.phase p = .returned err →
    (err = .ok ∨ err = .errNoKey ∨ err = .errVersion) ∧ s.runs p = [⟨err⟩]
  version : ∀ m ≤ s.history.length, ∀ key, versionOf (stateAt s.history m).values key =
    UInt64.ofNat (s.putsOk m key).card
  replica : ∀ i, (s.rsm.rsms i).applied ≤ s.history.length ∧
    (s.rsm.rsms i).state = stateAt s.history (s.rsm.rsms i).applied

/-- **A `Put` is run exactly once.** In the history of committed
operations `putLocked` is run at most once for each call of `Put`; a call
that has returned has been run, with the result that it returned; and
after any part of the history the version of a key is the number of calls
for it whose run returned `OK`. A replica is the server after the part of
the history that it has executed. -/
theorem put_exactlyOnce (hs : (kvSys clientID epoch).Reachable s) : ExactlyOnce s := by
  have h := KvInv.reachable hs
  refine ⟨fun p => h.length_le le_rfl p, fun p err herr => ?_, fun m hm key => h.version hm key,
    fun i => ?_⟩
  · have hruns := h.answered p err (Or.inr herr)
    refine ⟨?_, hruns⟩
    cases hp : s.clerks.calls[p]? with
    | none =>
        rw [KvSystem.runs, KvSystem.runsBefore, hp] at hruns
        cases hruns
    | some call =>
        rw [KvSystem.runs, KvSystem.runsBefore_eq hp] at hruns
        have hreply := runsAt_reply h.puts_id le_rfl (hruns ▸ List.mem_singleton_self _)
        simpa using hreply
  · obtain ⟨hle, hstate, -⟩ := (replica_state machine_lawful h.rsm).2 i
    exact ⟨hle, hstate⟩

end

/-- One server and one clerk. The first request is handled twice and
committed twice; the call returns with the second reply. -/
def putTwice : List (KvAction 1 Unit) :=
  [.rsm (.raft (.startElection 0)), .begin () [107] [118] 0, .ack 0, .send 0 0, .handle 0,
    .handle 0, .rsm (.start ⟨0, 0, 1⟩), .rsm (.start ⟨0, 0, 2⟩), .rsm (.raft (.claim 0)),
    .rsm (.receive 0), .rsm (.execute 0), .rsm (.compact 0 false), .rsm (.notify 0),
    .rsm (.raft (.claim 0)), .rsm (.receive 0), .rsm (.execute 0), .rsm (.compact 0 false),
    .rsm (.notify 0),
    .rsm (.result ⟨0, 0, 2⟩), .rsm (.removeWaiter ⟨0, 0, 2⟩), .reply 0 ⟨0, 0, 2⟩, .complete 0]

theorem put_exactlyOnce_twice :
    let _ : Gob := someGob
    let _ : Labgob (Op 1 Request) := someLabgob
    let clientID : Unit ↪ {id : ℕ // id ≠ 0} := ⟨fun _ => ⟨1, by decide⟩, fun _ _ _ => rfl⟩
    let s := play (KvSystem.step clientID) (KvSystem.init fun _ => 0) putTwice
    s.history.length = 2 ∧ s.phase 0 = .returned .ok ∧ s.runs 0 = [⟨.ok⟩] ∧
      versionOf (stateAt s.history 2).values [107] = UInt64.ofNat (s.putsOk 2 [107]).card := by
  intro _ _ clientID s
  have hlength : s.history.length = 2 := by decide +kernel
  have hphase : s.phase 0 = .returned .ok := by decide +kernel
  have honce : ExactlyOnce s := put_exactlyOnce
    (reachable_play (KvSystem.init fun _ => 0) (KvSystem.step clientID) putTwice)
  exact ⟨hlength, hphase, (honce.returned 0 .ok hphase).2, honce.version 2 hlength.ge [107]⟩

end RaftShardedKv.Kvraft
