import RaftShardedKv.Shard.Clerk

/-!
What holds of the clerks of the sharded service whatever the groups and
the metadata answer: a call that waits has sent the request it waits for,
and the history has each call once.
-/

namespace RaftShardedKv.Shardkv

open Dedup Linearizability

variable {Ck : Type}

/-! ### One step -/

/-- On the way to a group. -/
def ClerkPc.Routing : ClerkPc → Prop
  | .load _ | .query | .merge _ | .route _ | .round _ => True
  | _ => False

def ClerkPc.Open (pc : ClerkPc) : Prop := pc.Routing ∨ ∃ r k, pc = .calling r k

theorem ClerkPc.Open.ne_returned {pc : ClerkPc} (h : pc.Open) : pc ≠ .returned := by
  rintro rfl
  rcases h with h | ⟨r, k, h⟩
  · exact h
  · cases h

theorem Round.routing_finish (r : Round) : r.finish.Routing := by
  unfold Round.finish
  split <;> trivial

theorem ClerkPc.putAnswered_cases (r : Round) {clientID : ℕ} (hid : clientID ≠ 0) (err : Err) :
    (ClerkPc.putAnswered r clientID err).Routing ∧ err ≠ .errStaleRequest ∨
      ClerkPc.putAnswered r clientID err = .returning err ∧ err ≠ .errWrongGroup ∧
        err ≠ .errWrongLeader ∨
      ClerkPc.putAnswered r clientID err = .panicked ∧ err = .errStaleRequest := by
  cases err with
  | errVersion => simp [ClerkPc.putAnswered, hid]
  | _ => simp [ClerkPc.putAnswered, ClerkPc.Routing]

def PutCall.op (call : PutCall Ck) : KvOp :=
  .put call.args.key call.args.value call.args.version

namespace ClerkState

/-- What a call is for. -/
def opOf (s : ClerkState Ck) : CallID → Option KvOp
  | .get g => s.gets[g]?.map fun call => .get call.key
  | .put p => s.puts.calls[p]?.map PutCall.op

theorem opOf_of_clerkOf {s : ClerkState Ck} {c : CallID} {ck : Ck} (h : s.clerkOf c = some ck) :
    ∃ op, s.opOf c = some op := by
  cases c with
  | get g =>
      obtain ⟨call, hg, -⟩ := Option.map_eq_some_iff.mp h
      exact ⟨_, congrArg (Option.map _) hg⟩
  | put p =>
      obtain ⟨call, hp, -⟩ := Option.map_eq_some_iff.mp h
      exact ⟨_, congrArg (Option.map _) hp⟩

theorem setPc_self (s : ClerkState Ck) (c : CallID) (pc : ClerkPc) : (s.setPc c pc).pc c = pc :=
  Function.update_self ..

theorem setPc_of_ne (s : ClerkState Ck) {c c' : CallID} (pc : ClerkPc) (h : c' ≠ c) :
    (s.setPc c pc).pc c' = s.pc c' :=
  Function.update_of_ne h ..

end ClerkState

variable {clientID : Ck ↪ {id : ℕ // id ≠ 0}} {s s' : ClerkState Ck} [DecidableEq Ck]

/-- What a step can do. -/
inductive ClerkStep (clientID : Ck ↪ {id : ℕ // id ≠ 0}) (s : ClerkState Ck) :
    ClerkAction Ck → ClerkState Ck → Prop
  | get (ck : Ck) (key : GoString) :
      ClerkStep clientID s (.get ck key) { s.setPc (.get s.gets.length) (.load false) with
        gets := s.gets ++ [⟨ck, key⟩]
        history := s.history ++ [.invoke (.get s.gets.length) (.get key)] }
  | put (ck : Ck) (key value : GoString) (version : Tversion) (puts : Clerks Ck Tgid)
      (hputs : s.puts.begin clientID ck key value version = some puts) :
      ClerkStep clientID s (.put ck key value version)
        { s.setPc (.put s.puts.calls.length) (.load false) with
          puts := puts
          history := s.history ++ [.invoke (.put s.puts.calls.length) (.put key value version)] }
  | move (a : ClerkAction Ck) (c : CallID) (pc : ClerkPc) (config : Ck → Option ShardConfig)
      (hopen : (s.pc c).Open) (hmade : s.pc c = .load false → ∃ op, s.opOf c = some op)
      (hpc : pc.Routing) : ClerkStep clientID s a { s.setPc c pc with config := config }
  | ack (p : ℕ) (pc : ClerkPc) (puts : Clerks Ck Tgid) (hroute : ∃ cfg, s.pc (.put p) = .route cfg)
      (hpc : pc.Routing) (hputs : s.puts.ack p = some puts) :
      ClerkStep clientID s (.route (.put p)) { s.setPc (.put p) pc with puts := puts }
  | sendGet (g : ℕ) (r : Round) (hpc : s.pc (.get g) = .round r) :
      ClerkStep clientID s (.send (.get g)) { s.setPc (.get g) (.calling r s.asked.length) with
        asked := s.asked ++ [(g, r.gid)] }
  | sendPut (p : ℕ) (r : Round) (puts : Clerks Ck Tgid) (hpc : s.pc (.put p) = .round r)
      (hputs : s.puts.send p r.gid = some puts) :
      ClerkStep clientID s (.send (.put p))
        { s.setPc (.put p) (.calling r s.puts.sent.length) with puts := puts }
  | getReturn (g k : ℕ) (r : Round) (reply : GetReply) (hpc : s.pc (.get g) = .calling r k)
      (herr : reply.err = .ok ∨ reply.err = .errNoKey) :
      ClerkStep clientID s (.getReply g reply) { s.setPc (.get g) .returned with
        history := s.history ++ [.ret (.get g) (.get reply)] }
  | putAnswer (p k : ℕ) (r : Round) (reply : PutReply) (call : PutCall Ck)
      (hcall : s.puts.calls[p]? = some call) (hpc : s.pc (.put p) = .calling r k) :
      ClerkStep clientID s (.putReply p reply)
        (s.setPc (.put p) (.putAnswered r call.args.clientID reply.err))
  | complete (p : ℕ) (err : Err) (puts : Clerks Ck Tgid) (hpc : s.pc (.put p) = .returning err)
      (hputs : s.puts.complete p = some puts) :
      ClerkStep clientID s (.complete p) { s.setPc (.put p) .returned with
        puts := puts
        history := s.history ++ [.ret (.put p) (.put err)] }

theorem ClerkStep.setPc {a : ClerkAction Ck} {c : CallID} {pc : ClerkPc} (hopen : (s.pc c).Open)
    (hne : s.pc c ≠ .load false) (hpc : pc.Routing) : ClerkStep clientID s a (s.setPc c pc) :=
  .move a c pc s.config hopen (fun h => absurd h hne) hpc

theorem ClerkStep.of_step {a : ClerkAction Ck} (hs : s.step clientID a = some s') :
    ClerkStep clientID s a s' := by
  cases a with
  | get ck key =>
      cases hs
      exact .get ck key
  | put ck key value version =>
      obtain ⟨puts, hputs, hs⟩ := Option.bind_eq_some_iff.mp hs
      cases hs
      exact .put ck key value version puts hputs
  | load c =>
      obtain ⟨ck, hck, hs⟩ := Option.bind_eq_some_iff.mp hs
      split at hs
      · rename_i force hpc
        have hopen : (s.pc c).Open := Or.inl (hpc ▸ trivial)
        split at hs
        · cases hs
          exact .move _ c _ s.config hopen (fun _ => s.opOf_of_clerkOf hck) trivial
        · cases hs
          exact .move _ c _ s.config hopen (fun _ => s.opOf_of_clerkOf hck) trivial
      · cases hs
  | query c queried =>
      simp only [ClerkState.step] at hs
      split at hs
      · rename_i hpc
        cases hs
        exact .setPc (Or.inl (hpc ▸ trivial)) (by simp [hpc]) trivial
      · rename_i hpc
        cases hs
        exact .setPc (Or.inl (hpc ▸ trivial)) (by simp [hpc]) trivial
      · cases hs
  | merge c =>
      obtain ⟨ck, hck, hs⟩ := Option.bind_eq_some_iff.mp hs
      split at hs
      · rename_i queried hpc
        cases hs
        exact .move _ c _ _ (Or.inl (hpc ▸ trivial)) (fun h => by simp [hpc] at h) trivial
      · cases hs
  | route c =>
      obtain ⟨key, hkey, hs⟩ := Option.bind_eq_some_iff.mp hs
      split at hs
      · rename_i cfg hpc
        dsimp only at hs
        split at hs
        · cases hs
          exact .setPc (Or.inl (hpc ▸ trivial)) (by simp [hpc]) trivial
        · split at hs
          · cases hs
            exact .setPc (Or.inl (hpc ▸ trivial)) (by simp [hpc]) trivial
          · obtain ⟨puts, hputs, hs⟩ := Option.bind_eq_some_iff.mp hs
            cases hs
            exact .ack _ _ puts ⟨cfg, hpc⟩ trivial hputs
      · cases hs
  | send c =>
      simp only [ClerkState.step] at hs
      split at hs
      · rename_i r hpc
        split at hs
        · cases hs
          exact .setPc (Or.inl (hpc ▸ trivial)) (by simp [hpc]) r.routing_finish
        · split at hs
          · cases hs
            exact .sendGet _ r hpc
          · obtain ⟨puts, hputs, hs⟩ := Option.bind_eq_some_iff.mp hs
            cases hs
            exact .sendPut _ r puts hpc hputs
      · cases hs
  | fail c =>
      simp only [ClerkState.step] at hs
      split at hs
      · rename_i r k hpc
        cases hs
        exact .setPc (Or.inr ⟨r, k, hpc⟩) (by simp [hpc]) trivial
      · cases hs
  | getReply g reply =>
      simp only [ClerkState.step] at hs
      split at hs
      · rename_i r k hpc
        split at hs
        · rename_i herr
          cases hs
          exact .getReturn g k r reply hpc (Or.inl herr)
        · rename_i herr
          cases hs
          exact .getReturn g k r reply hpc (Or.inr herr)
        · cases hs
          exact .setPc (Or.inr ⟨r, k, hpc⟩) (by simp [hpc]) trivial
        · cases hs
          exact .setPc (Or.inr ⟨r, k, hpc⟩) (by simp [hpc]) trivial
      · cases hs
  | putReply p reply =>
      obtain ⟨call, hcall, hs⟩ := Option.bind_eq_some_iff.mp hs
      split at hs
      · rename_i r k hpc
        cases hs
        exact .putAnswer p k r reply call hcall hpc
      · cases hs
  | complete p =>
      simp only [ClerkState.step] at hs
      split at hs
      · rename_i err hpc
        obtain ⟨puts, hputs, hs⟩ := Option.bind_eq_some_iff.mp hs
        cases hs
        exact .complete p err puts hpc hputs
      · cases hs

/-! ### The invariant -/

/-- A call that waits has sent the request it waits for. -/
def Waits (s : ClerkState Ck) : CallID → ClerkPc → Prop
  | .get g, .calling _ k => ∃ gid, s.asked[k]? = some (g, gid)
  | .put p, .calling _ k => ∃ x, s.puts.sent[k]? = some x ∧ x.call = p
  | _, _ => True

omit [DecidableEq Ck] in
theorem waits_of_ne {c : CallID} {pc : ClerkPc} (h : ∀ r k, pc ≠ .calling r k) : Waits s c pc := by
  unfold Waits
  split
  · exact absurd rfl (h _ _)
  · exact absurd rfl (h _ _)
  · trivial

omit [DecidableEq Ck] in
theorem Waits.mono {c : CallID} {pc : ClerkPc} (h : Waits s c pc) (hasked : s.asked <+: s'.asked)
    (hsent : s.puts.sent <+: s'.puts.sent) : Waits s' c pc := by
  cases pc with
  | calling r k =>
      cases c with
      | get g =>
          obtain ⟨gid, hk⟩ := h
          obtain ⟨rest, hrest⟩ := hasked
          exact ⟨gid, hrest ▸ Pool.append hk rest⟩
      | put p =>
          obtain ⟨x, hx, hcall⟩ := h
          obtain ⟨rest, hrest⟩ := hsent
          exact ⟨x, hrest ▸ Pool.append hx rest, hcall⟩
  | _ => exact waits_of_ne nofun

structure ClerkInv (clientID : Ck ↪ {id : ℕ // id ≠ 0}) (s : ClerkState Ck) : Prop where
  puts : s.puts.Inv clientID
  made : ∀ c, s.pc c ≠ .load false → ∃ op, s.opOf c = some op
  asked : ∀ (k : ℕ) g gid, s.asked[k]? = some (g, gid) → ∃ op, s.opOf (.get g) = some op
  waits : ∀ c, Waits s c (s.pc c)
  completed : ∀ (p : ℕ) call, s.puts.calls[p]? = some call → call.completed = true →
    s.pc (.put p) = .returned
  invoked : ∀ c op, .invoke c op ∈ s.history ↔ s.opOf c = some op
  returned : ∀ c r, .ret c r ∈ s.history → s.pc c = .returned

section

omit [DecidableEq Ck]

theorem ClerkInv.init : ClerkInv clientID (ClerkState.init : ClerkState Ck) where
  puts := .init
  made c h := absurd rfl h
  asked k g gid h := by cases h
  waits c := waits_of_ne nofun
  completed p call h := by cases h
  invoked c op := by cases c <;> simp [ClerkState.init, ClerkState.opOf, Clerks.init]
  returned c r h := by cases h

theorem ClerkInv.setPc (h : ClerkInv clientID s) {c : CallID} {pc : ClerkPc}
    (hlive : s.pc c ≠ .returned) (hmade : ∃ op, s.opOf c = some op) (hwaits : Waits s c pc) :
    ClerkInv clientID (s.setPc c pc) where
  puts := h.puts
  made c' hc' := by
    rcases eq_or_ne c' c with rfl | hne
    · exact hmade
    · rw [s.setPc_of_ne pc hne] at hc'
      exact h.made c' hc'
  asked := h.asked
  waits c' := by
    rcases eq_or_ne c' c with rfl | hne
    · rw [s.setPc_self]
      exact hwaits
    · rw [s.setPc_of_ne pc hne]
      exact h.waits c'
  completed p call hp hdone := by
    have hold := h.completed p call hp hdone
    have hne : CallID.put p ≠ c := fun heq => hlive (heq ▸ hold)
    exact (s.setPc_of_ne pc hne).trans hold
  invoked := h.invoked
  returned c' r hr := by
    have hold := h.returned c' r hr
    have hne : c' ≠ c := fun heq => hlive (heq ▸ hold)
    exact (s.setPc_of_ne pc hne).trans hold

theorem ClerkInv.setConfig (h : ClerkInv clientID s) (config : Ck → Option ShardConfig) :
    ClerkInv clientID { s with config := config } :=
  ⟨h.puts, h.made, h.asked, h.waits, h.completed, h.invoked, h.returned⟩

theorem ClerkInv.setPuts (h : ClerkInv clientID s) {puts : Clerks Ck Tgid}
    (hputs : puts.Inv clientID) (hsent : s.puts.sent <+: puts.sent)
    (hop : ∀ p : ℕ, puts.calls[p]?.map PutCall.op = s.puts.calls[p]?.map PutCall.op)
    (hcompleted : ∀ (p : ℕ) call, puts.calls[p]? = some call → call.completed = true →
      s.pc (.put p) = .returned) :
    ClerkInv clientID { s with puts := puts } := by
  have hopOf : ({ s with puts := puts } : ClerkState Ck).opOf = s.opOf := by
    ext1 c
    cases c with
    | get g => rfl
    | put p => exact hop p
  exact ⟨hputs, hopOf ▸ h.made, hopOf ▸ h.asked, fun c => (h.waits c).mono List.prefix_rfl hsent,
    hcompleted, hopOf ▸ h.invoked, h.returned⟩

theorem ClerkInv.addRet (h : ClerkInv clientID s) {c : CallID} (hpc : s.pc c = .returned)
    (r : KvRes) : ClerkInv clientID { s with history := s.history ++ [.ret c r] } where
  puts := h.puts
  made := h.made
  asked := h.asked
  waits := h.waits
  completed := h.completed
  invoked c' op := by
    simp only [List.mem_append, List.mem_singleton, reduceCtorEq, or_false]
    exact h.invoked c' op
  returned c' r' hr := by
    rcases List.mem_append.mp hr with hr | hr
    · exact h.returned c' r' hr
    · cases List.mem_singleton.mp hr
      exact hpc

theorem map_op_set {calls : List (PutCall Ck)} {p : ℕ} {call call' : PutCall Ck}
    (hp : calls[p]? = some call) (hop : PutCall.op call' = PutCall.op call) (p' : ℕ) :
    (calls.set p call')[p']?.map PutCall.op = calls[p']?.map PutCall.op := by
  rcases eq_or_ne p' p with rfl | hne
  · rw [Pool.set_self hp, hp, Option.map_some, Option.map_some, hop]
  · rw [List.getElem?_set_ne hne.symm]

/-- A call is made: `opOf` is what it was, and the new call's. -/
theorem ClerkInv.addInvoke (h : ClerkInv clientID s) {c : CallID} {op : KvOp}
    (hputs : s'.puts.Inv clientID) (hnone : s.opOf c = none)
    (hop : s'.opOf = Function.update s.opOf c (some op)) (hasked : s'.asked = s.asked)
    (hsent : s'.puts.sent = s.puts.sent) (hpc : s'.pc = Function.update s.pc c (.load false))
    (hcompleted : ∀ (p : ℕ) call, s'.puts.calls[p]? = some call → call.completed = true →
      s.puts.calls[p]? = some call)
    (hhistory : s'.history = s.history ++ [.invoke c op]) : ClerkInv clientID s' := by
  -- a call that has not been made is where it starts
  have hstart : s.pc c = .load false := by
    by_contra hne
    obtain ⟨op', hop'⟩ := h.made c hne
    cases hnone.symm.trans hop'
  have hpc' : s'.pc = s.pc := by
    rw [hpc, ← hstart, Function.update_eq_self]
  have hmore : ∀ c' op', s.opOf c' = some op' → s'.opOf c' = some op' := by
    intro c' op' hop'
    have hne : c' ≠ c := fun heq => by
      rw [heq, hnone] at hop'
      cases hop'
    rwa [hop, Function.update_of_ne hne]
  refine ⟨hputs, fun c' hc' => ?_, fun k g gid hk => ?_, fun c' => ?_, fun p call hp hdone => ?_,
    fun c' op' => ?_, fun c' r hr => ?_⟩
  · obtain ⟨op', hop'⟩ := h.made c' (hpc' ▸ hc')
    exact ⟨op', hmore c' op' hop'⟩
  · obtain ⟨op', hop'⟩ := h.asked k g gid (hasked ▸ hk)
    exact ⟨op', hmore _ op' hop'⟩
  · rw [hpc']
    exact (h.waits c').mono (hasked ▸ List.prefix_rfl) (hsent ▸ List.prefix_rfl)
  · rw [hpc']
    exact h.completed p call (hcompleted p call hp hdone) hdone
  · rw [hhistory, List.mem_append, List.mem_singleton, h.invoked, hop, Function.update_apply]
    constructor
    · rintro (hold | heq)
      · rw [if_neg]
        · exact hold
        · rintro rfl
          cases hnone.symm.trans hold
      · cases heq
        rw [if_pos rfl]
    · intro hnew
      split at hnew
      · rename_i heq
        cases hnew
        exact Or.inr (by rw [heq])
      · exact Or.inl hnew
  · rw [hhistory, List.mem_append, List.mem_singleton] at hr
    rw [hpc']
    exact h.returned c' r (hr.resolve_right nofun)

theorem opOf_eq_none_get (s : ClerkState Ck) : s.opOf (.get s.gets.length) = none := by
  simp [ClerkState.opOf]

theorem opOf_eq_none_put (s : ClerkState Ck) : s.opOf (.put s.puts.calls.length) = none := by
  simp [ClerkState.opOf]

end

theorem getElem?_concat_map {α β : Type} (l : List α) (x : α) (f : α → β) (k : ℕ) :
    (l ++ [x])[k]?.map f = if k = l.length then some (f x) else l[k]?.map f := by
  rcases lt_trichotomy k l.length with hlt | rfl | hgt
  · rw [List.getElem?_append_left hlt, if_neg hlt.ne]
  · simp
  · rw [if_neg hgt.ne', List.getElem?_eq_none (by simp; omega), List.getElem?_eq_none hgt.le]

theorem ClerkInv.step {a : ClerkAction Ck} (h : ClerkInv clientID s)
    (hs : ClerkStep clientID s a s') :
    ClerkInv clientID s' := by
  cases hs with
  | get ck key =>
      refine h.addInvoke (c := .get s.gets.length) h.puts (opOf_eq_none_get s) ?_ rfl rfl rfl
        (fun p call hp _ => hp) rfl
      ext1 c
      rw [Function.update_apply]
      cases c with
      | get g =>
          simp only [CallID.get.injEq]
          exact getElem?_concat_map ..
      | put p => rw [if_neg nofun]; rfl
  | put ck key value version puts hputs =>
      obtain ⟨-, -, hcalls, hsent⟩ := Clerks.begin_spec h.puts hputs
      refine h.addInvoke (c := .put s.puts.calls.length) (h.puts.begin hputs).1
        (opOf_eq_none_put s) ?_ rfl hsent rfl (fun p call hp hdone => ?_) rfl
      · ext1 c
        rw [Function.update_apply]
        cases c with
        | get g => rw [if_neg nofun]; rfl
        | put p =>
            simp only [CallID.put.injEq]
            change puts.calls[p]?.map PutCall.op = _
            rw [hcalls]
            exact getElem?_concat_map ..
      · change puts.calls[p]? = some call at hp
        rw [hcalls] at hp
        rcases Pool.concat_cases hp with hp | ⟨-, rfl⟩
        · exact hp
        · cases hdone
  | move a c pc config hopen hmade hpc =>
      refine (h.setPc hopen.ne_returned ?_ (waits_of_ne ?_)).setConfig config
      · by_cases hfirst : s.pc c = .load false
        · exact hmade hfirst
        · exact h.made c hfirst
      · rintro r k rfl
        exact hpc
  | ack p pc puts hroute hpc hputs =>
      obtain ⟨cfg, hroute⟩ := hroute
      obtain ⟨call, hp, hnot, -, hcalls, hsent⟩ := Clerks.ack_spec hputs
      have hmoved : ClerkInv clientID (s.setPc (.put p) pc) := h.setPc (by simp [hroute])
        (h.made _ (by simp [hroute])) (waits_of_ne fun r k heq => by
          rw [heq] at hpc
          exact hpc)
      refine hmoved.setPuts (h.puts.ack hputs).1 (hsent ▸ List.prefix_rfl) (fun p' => ?_)
        fun p' call' hp' hdone => ?_
      · rw [hcalls]
        refine map_op_set hp ?_ p'
        rfl
      · rw [hcalls] at hp'
        rcases Pool.set_cases hp' with ⟨-, rfl⟩ | ⟨-, hp'⟩
        · exact absurd hdone (by simp [hnot])
        · exact hmoved.completed p' call' hp' hdone
  | sendGet g r hpc =>
      have hmade := h.made (.get g) (by simp [hpc])
      have hsent : ClerkInv clientID { s with asked := s.asked ++ [(g, r.gid)] } := by
        refine ⟨h.puts, h.made, fun k g' gid hk => ?_, fun c => (h.waits c).mono ⟨_, rfl⟩
          List.prefix_rfl, h.completed, h.invoked, h.returned⟩
        rcases Pool.concat_cases hk with hk | ⟨-, heq⟩
        · exact h.asked k g' gid hk
        · cases heq
          exact hmade
      exact hsent.setPc (c := .get g) (by simp [hpc]) hmade ⟨r.gid, by simp⟩
  | sendPut p r puts hpc hputs =>
      obtain ⟨call, hp, hnot, rfl⟩ := Clerks.send_spec hputs
      have hmade := h.made (.put p) (by simp [hpc])
      have hsent := h.setPuts (h.puts.send hputs).1 ⟨_, rfl⟩ (fun _ => rfl) h.completed
      exact hsent.setPc (c := .put p) (by simp [hpc]) hmade
        ⟨⟨p, r.gid, call.args⟩, by simp, rfl⟩
  | getReturn g k r reply hpc herr =>
      have hmoved : ClerkInv clientID (s.setPc (.get g) .returned) := h.setPc (by simp [hpc])
        (h.made _ (by simp [hpc])) (waits_of_ne nofun)
      exact hmoved.addRet (s.setPc_self ..) _
  | putAnswer p k r reply call hcall hpc =>
      have hid : call.args.clientID ≠ 0 := by
        rw [(h.puts.call p call hcall).1]
        exact (clientID call.clerk).2
      refine h.setPc (by simp [hpc]) (h.made _ (by simp [hpc])) (waits_of_ne fun r' k' heq => ?_)
      rcases ClerkPc.putAnswered_cases r hid reply.err with ⟨hroute, -⟩ | ⟨hret, -⟩ | ⟨hpanic, -⟩
      · rw [heq] at hroute
        exact hroute
      · cases heq.symm.trans hret
      · cases heq.symm.trans hpanic
  | complete p err puts hpc hputs =>
      obtain ⟨call, hp, hnot, -, -, hcalls, hsent⟩ := Clerks.complete_spec hputs
      have hmoved : ClerkInv clientID (s.setPc (.put p) .returned) := h.setPc (by simp [hpc])
        (h.made _ (by simp [hpc])) (waits_of_ne nofun)
      refine (hmoved.setPuts (h.puts.complete hputs).1 (hsent ▸ List.prefix_rfl) (fun p' => ?_)
        fun p' call' hp' hdone => ?_).addRet (s.setPc_self ..) _
      · rw [hcalls]
        refine map_op_set hp ?_ p'
        rfl
      · rw [hcalls] at hp'
        rcases Pool.set_cases hp' with ⟨rfl, -⟩ | ⟨-, hp'⟩
        · exact s.setPc_self ..
        · exact hmoved.completed p' call' hp' hdone

/-! ### What a step leaves behind -/

/-- What clerks may go on to. -/
structure ClerkState.Later (s s' : ClerkState Ck) : Prop where
  puts : s.puts.Later s'.puts
  sent : s.puts.sent <+: s'.puts.sent
  asked : s.asked <+: s'.asked
  returned : ∀ c, s.pc c = .returned → s'.pc c = .returned

omit [DecidableEq Ck] in
theorem ClerkState.Later.of_pc {c : CallID} {pc : ClerkPc} (hputs : s.puts.Later s'.puts)
    (hsent : s.puts.sent <+: s'.puts.sent) (hasked : s.asked <+: s'.asked)
    (hpc : s'.pc = Function.update s.pc c pc) (hlive : s.pc c ≠ .returned) : s.Later s' := by
  refine ⟨hputs, hsent, hasked, fun c' hc' => ?_⟩
  have hne : c' ≠ c := fun heq => hlive (heq ▸ hc')
  rw [hpc, Function.update_of_ne hne, hc']

theorem ClerkInv.later {a : ClerkAction Ck} (h : ClerkInv clientID s)
    (hs : ClerkStep clientID s a s') : s.Later s' := by
  have hnew : ∀ {c}, s.opOf c = none → s.pc c ≠ .returned := by
    intro c hnone hpc
    obtain ⟨op, hop⟩ := h.made c (by simp [hpc])
    cases hnone.symm.trans hop
  cases hs with
  | get ck key =>
      exact .of_pc (.refl _) List.prefix_rfl List.prefix_rfl rfl (hnew (opOf_eq_none_get s))
  | put ck key value version puts hputs =>
      obtain ⟨-, -, -, hsent⟩ := Clerks.begin_spec h.puts hputs
      exact .of_pc (h.puts.begin hputs).2 (hsent ▸ List.prefix_rfl) List.prefix_rfl rfl
        (hnew (opOf_eq_none_put s))
  | move a c pc config hopen hmade hpc =>
      exact .of_pc (.refl _) List.prefix_rfl List.prefix_rfl rfl hopen.ne_returned
  | ack p pc puts hroute hpc hputs =>
      obtain ⟨cfg, hroute⟩ := hroute
      obtain ⟨-, -, -, -, -, hsent⟩ := Clerks.ack_spec hputs
      exact .of_pc (h.puts.ack hputs).2 (hsent ▸ List.prefix_rfl) List.prefix_rfl rfl
        (by simp [hroute])
  | sendGet g r hpc =>
      exact .of_pc (.refl _) List.prefix_rfl ⟨_, rfl⟩ rfl (by simp [hpc])
  | sendPut p r puts hpc hputs =>
      have hlater := (h.puts.send hputs).2
      obtain ⟨call, -, -, rfl⟩ := Clerks.send_spec hputs
      exact .of_pc hlater ⟨_, rfl⟩ List.prefix_rfl rfl (by simp [hpc])
  | getReturn g k r reply hpc herr =>
      exact .of_pc (.refl _) List.prefix_rfl List.prefix_rfl rfl (by simp [hpc])
  | putAnswer p k r reply call hcall hpc =>
      exact .of_pc (.refl _) List.prefix_rfl List.prefix_rfl rfl (by simp [hpc])
  | complete p err puts hpc hputs =>
      obtain ⟨-, -, -, -, -, -, hsent⟩ := Clerks.complete_spec hputs
      exact .of_pc (h.puts.complete hputs).2 (hsent ▸ List.prefix_rfl) List.prefix_rfl rfl
        (by simp [hpc])

/-- What a step writes to the history. -/
inductive Records (s : ClerkState Ck) : ClerkAction Ck → List (Event CallID KvOp KvRes) → Prop
  | nothing (a : ClerkAction Ck) : Records s a []
  | invoke (a : ClerkAction Ck) (c : CallID) (op : KvOp) (h : s.opOf c = none) :
      Records s a [.invoke c op]
  | getReturn (g k : ℕ) (r : Round) (reply : GetReply) (hpc : s.pc (.get g) = .calling r k)
      (herr : reply.err = .ok ∨ reply.err = .errNoKey) :
      Records s (.getReply g reply) [.ret (.get g) (.get reply)]
  | putReturn (p : ℕ) (err : Err) (hpc : s.pc (.put p) = .returning err) :
      Records s (.complete p) [.ret (.put p) (.put err)]

theorem ClerkStep.records {a : ClerkAction Ck} (hs : ClerkStep clientID s a s') :
    ∃ events, Records s a events ∧ s'.history = s.history ++ events := by
  cases hs with
  | get ck key => exact ⟨_, .invoke _ _ _ (opOf_eq_none_get s), rfl⟩
  | put ck key value version puts hputs => exact ⟨_, .invoke _ _ _ (opOf_eq_none_put s), rfl⟩
  | getReturn g k r reply hpc herr => exact ⟨_, .getReturn g k r reply hpc herr, rfl⟩
  | complete p err puts hpc hputs => exact ⟨_, .putReturn p err hpc, rfl⟩
  | _ => exact ⟨_, .nothing _, (List.append_nil _).symm⟩

/-- `Put` comes to its return, or to its panic, by a reply. -/
theorem ClerkStep.ends {a : ClerkAction Ck} (h : ClerkInv clientID s)
    (hs : ClerkStep clientID s a s') {p : ℕ} (hbefore : s'.pc (.put p) ≠ s.pc (.put p)) :
    (∀ err, s'.pc (.put p) = .returning err → ∃ r k, s.pc (.put p) = .calling r k ∧
        a = .putReply p ⟨err⟩ ∧ err ≠ .errWrongGroup ∧ err ≠ .errWrongLeader) ∧
      (s'.pc (.put p) = .panicked → ∃ r k, s.pc (.put p) = .calling r k ∧
        a = .putReply p ⟨.errStaleRequest⟩) := by
  have hself : ∀ {c : CallID} {pc : ClerkPc}, s'.pc = Function.update s.pc c pc →
      c = .put p ∧ s'.pc (.put p) = pc := by
    intro c pc hpc
    have hc : c = .put p := by
      by_contra hne
      exact hbefore (by rw [hpc, Function.update_of_ne (Ne.symm hne)])
    exact ⟨hc, by rw [hpc, hc, Function.update_self]⟩
  have hroute : ∀ {pc : ClerkPc}, s'.pc (.put p) = pc → pc.Routing →
      (∀ err, s'.pc (.put p) ≠ .returning err) ∧ s'.pc (.put p) ≠ .panicked := by
    rintro _ rfl hpc
    refine ⟨fun err heq => ?_, fun heq => ?_⟩
    · rwa [heq] at hpc
    · rwa [heq] at hpc
  cases hs with
  | get ck key =>
      obtain ⟨-, heq⟩ := hself rfl
      exact ⟨fun err herr => absurd herr ((hroute heq trivial).1 err),
        fun hpanic => absurd hpanic (hroute heq trivial).2⟩
  | put ck key value version puts hputs =>
      obtain ⟨-, heq⟩ := hself rfl
      exact ⟨fun err herr => absurd herr ((hroute heq trivial).1 err),
        fun hpanic => absurd hpanic (hroute heq trivial).2⟩
  | move a c pc config hopen hmade hpc =>
      obtain ⟨-, heq⟩ := hself rfl
      exact ⟨fun err herr => absurd herr ((hroute heq hpc).1 err),
        fun hpanic => absurd hpanic (hroute heq hpc).2⟩
  | ack p' pc puts hmoved hpc hputs =>
      obtain ⟨-, heq⟩ := hself rfl
      exact ⟨fun err herr => absurd herr ((hroute heq hpc).1 err),
        fun hpanic => absurd hpanic (hroute heq hpc).2⟩
  | sendGet | getReturn =>
      obtain ⟨hc, -⟩ := hself rfl
      cases hc
  | sendPut | complete =>
      obtain ⟨-, heq⟩ := hself rfl
      rw [heq]
      exact ⟨nofun, nofun⟩
  | putAnswer p' k r reply call hcall hpc =>
      obtain ⟨hc, heq⟩ := hself rfl
      cases hc
      have hid : call.args.clientID ≠ 0 := by
        rw [(h.puts.call p call hcall).1]
        exact (clientID call.clerk).2
      rcases ClerkPc.putAnswered_cases r hid reply.err with
        ⟨hroutes, -⟩ | ⟨hret, hgroup, hleader⟩ | ⟨hpanic, hstale⟩
      · exact ⟨fun err herr => absurd herr ((hroute heq hroutes).1 err),
          fun hpanic => absurd hpanic (hroute heq hroutes).2⟩
      · rw [heq, hret]
        refine ⟨fun err herr => ?_, nofun⟩
        cases herr
        exact ⟨r, k, hpc, rfl, hgroup, hleader⟩
      · rw [heq, hpanic]
        refine ⟨nofun, fun _ => ⟨r, k, hpc, ?_⟩⟩
        rw [← hstale]

end RaftShardedKv.Shardkv
