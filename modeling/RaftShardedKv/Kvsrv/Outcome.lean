import RaftShardedKv.Kvsrv.Clerk

/-!
Whether what `Put` of a clerk returns is true for good.

A request that the clerk has given up may still be executed, at any later
time. It then does nothing, unless the key has just the version that it names.
So what `Put` says is true whatever happens, if the version that it is called
with is not ahead of the key: a version that the key has passed does not come
back. A version that the key has yet to reach may be reached while an earlier
attempt is still under way, after a later one was refused.
-/

namespace RaftShardedKv.Kvsrv

open Transition

abbrev kvsrvSys : Sys System Action := Sys.ofStep System.init System.step

/-- How many attempts of call `c` were applied: the server answers `OK` where it
writes and nowhere else. -/
def System.applied (s : System) (c : ℕ) : ℕ :=
  s.attempts.countP fun attempt => attempt.call = c ∧ attempt.reply = some (.put .ok)

/-- What call `c` says when it returns `err`, in the state `s₁` and in a later
state `s₂`. -/
def System.Says (c : ℕ) (s₁ s₂ : System) : Err → Prop
  | .ok => s₂.applied c = 1
  | .errVersion | .errNoKey => s₂.applied c = 0
  | .errMaybe => s₁.applied c ≤ 1 ∧ s₂.applied c = s₁.applied c
  | _ => False

/-- Whatever call `c` returns from now on is true for good. -/
def System.Truthful (s : System) (c : ℕ) : Prop :=
  ∀ s₁ s₂ err, kvsrvSys.Star s s₁ → s₁.Returned c (.put err) → kvsrvSys.Star s₁ s₂ →
    System.Says c s₁ s₂ err

/-! ### Steps -/

section

variable {s s' : System} {c : ℕ}

theorem Step.to_step {a : Action} (h : Step s a s') : s.step a = some s' := by
  cases h with
  | invoke request => rfl
  | send c call hc hopen hidle => simp [System.step, hc, hopen, hidle]
  | execute k attempt hk hnone => simp [System.step, hk, hnone]
  | reply c call k attempt reply hc hwaiting hk hreply =>
      simp [System.step, hc, hwaiting, hk, hreply]
  | fail c call k hc hwaiting => simp [System.step, hc, hwaiting]

theorem ClerkInv.reachable (h : kvsrvSys.Reachable s) : ClerkInv s := by
  refine h.invariant (fun s hs => ?_) (fun s a s' _ ih hstep => ih.step hstep)
  subst hs
  exact .init

theorem ClerkInv.returned (h : ClerkInv s) {a : Action} (hs : Step s a s') {result : Reply}
    (hr : s.Returned c result) : s'.Returned c result := by
  obtain ⟨call, hc, hresult⟩ := hr
  -- a call that has returned waits for nothing, so it is not the one that moves
  have hother : ∀ {d : ℕ} {call₀ call' : Call}, s.calls[d]? = some call₀ → call₀.result = none →
      ∃ call, (s.calls.set d call')[c]? = some call ∧ call.result = some result := by
    intro d call₀ call' hd hnone
    refine ⟨call, (List.getElem?_set_ne ?_).trans hc, hresult⟩
    rintro rfl
    obtain rfl := Option.some.inj (hc.symm.trans hd)
    rw [hnone] at hresult
    cases hresult
  cases hs with
  | invoke request => exact ⟨call, Pool.append hc _, hresult⟩
  | send d call₀ hd hopen hidle => exact hother hd hopen
  | execute k attempt hk hnone => exact ⟨call, hc, hresult⟩
  | reply d call₀ k attempt reply hd hwaiting hk hreply =>
      exact hother hd ((h.call d call₀ hd).waiting k hwaiting).1
  | fail d call₀ k hd hwaiting => exact hother hd ((h.call d call₀ hd).waiting k hwaiting).1

theorem applied_set {k : ℕ} {attempt : Attempt} {reply : Reply} (hk : s.attempts[k]? = some attempt)
    (hnone : attempt.reply = none)
    (hset : s'.attempts = s.attempts.set k { attempt with reply := some reply }) :
    s'.applied c = s.applied c + if attempt.call = c ∧ reply = .put .ok then 1 else 0 := by
  obtain ⟨hlt, hget⟩ := List.getElem?_eq_some_iff.mp hk
  simp [System.applied, hset, List.countP_set, hlt, hget, hnone]

theorem Step.applied {a : Action} (hs : Step s a s') (c : ℕ) :
    s'.applied c = s.applied c ∨
      ∃ (k : ℕ) (attempt : Attempt), a = .execute k ∧ s.attempts[k]? = some attempt ∧
        attempt.call = c ∧ (s.server.handle attempt.request).2 = .put .ok ∧
        s'.server = (s.server.handle attempt.request).1 ∧ s'.applied c = s.applied c + 1 := by
  cases hs with
  | send d call hd hopen hidle =>
      left
      simp [System.applied, List.countP_append]
  | execute k attempt hk hnone =>
      by_cases happly : attempt.call = c ∧ (s.server.handle attempt.request).2 = .put .ok
      · refine Or.inr ⟨k, attempt, rfl, hk, happly.1, happly.2, rfl, ?_⟩
        exact (applied_set hk hnone rfl).trans (by rw [if_pos happly])
      · exact Or.inl ((applied_set hk hnone rfl).trans (by rw [if_neg happly, Nat.add_zero]))
  | _ => exact Or.inl rfl

theorem ClerkInv.version_le (h : ClerkInv s) {a : Action} (hs : Step s a s') (key : GoString) :
    (s.server.cell key).version ≤ (s'.server.cell key).version := by
  rcases hs.replied with ⟨hsame, -⟩ | ⟨k, attempt, -, -, -, hserver, -⟩
  · rw [hsame]
  · rw [hserver]
    rcases KVServer.handle_cell h.versioned attempt.request key with
      ⟨hsame, -⟩ | ⟨value, -, -, hnew⟩
    · rw [KVServer.cell_congr hsame]
    · rw [hnew]
      exact Nat.le_succ _

theorem Replied.applied_pos (h : Replied s.attempts c (.put .ok)) : 1 ≤ s.applied c := by
  obtain ⟨k, attempt, hk, hcall, hreply⟩ := h
  exact List.countP_pos_iff.mpr ⟨attempt, List.mem_of_getElem? hk, by simp [hcall, hreply]⟩

/-! ### A version that the key has passed -/

theorem ClerkInv.applied_step (h : ClerkInv s) {a : Action} (hs : Step s a s')
    {key value : GoString}
    {version : ℕ} (hasks : s.Asks c (.put key value version)) :
    s'.applied c = s.applied c ∨ version = (s.server.cell key).version ∧
      (s'.server.cell key).version = version + 1 ∧ s'.applied c = s.applied c + 1 := by
  rcases hs.applied c with hsame | ⟨k, attempt, -, hk, rfl, hok, hserver, happlied⟩
  · exact Or.inl hsame
  · right
    have hreq : attempt.request = .put key value version :=
      (h.attempt k attempt hk).1.unique hasks
    rcases KVServer.handle_cell h.versioned attempt.request key with
      ⟨-, hrefused⟩ | ⟨value', heq, -, hnew⟩
    · exact absurd hok (hrefused value version hreq).2.1
    · obtain ⟨-, -, hversion⟩ := Request.put.inj (hreq.symm.trans heq)
      rw [hserver, hnew]
      exact ⟨hversion, congrArg (· + 1) hversion.symm, happlied⟩

/-- A call of `Put` whose version is not ahead of the key. -/
structure Known (s : System) (c : ℕ) (key value : GoString) (version : ℕ) : Prop where
  inv : ClerkInv s
  asks : s.Asks c (.put key value version)
  le : version ≤ (s.server.cell key).version
  once : s.applied c = 0 ∨ s.applied c = 1 ∧ version < (s.server.cell key).version
  found : ¬ Replied s.attempts c (.put .errNoKey)
  refused : Replied s.attempts c (.put .errVersion) → version < (s.server.cell key).version

variable {key value : GoString} {version : ℕ}

theorem Known.answer (h : Known s c key value version) :
    (s.server.handle (.put key value version)).2 = .put .ok ∨
      (s.server.handle (.put key value version)).2 = .put .errVersion ∧
        version < (s.server.cell key).version := by
  have hle := h.le
  simp only [KVServer.handle, Reply.put.injEq]
  rcases KVServer.put_cases h.inv.versioned key value version with
    ⟨-, heq⟩ | ⟨hne, -, ⟨-, hzero⟩ | ⟨heq, -⟩⟩
  · exact Or.inl (by rw [heq])
  · omega
  · exact Or.inr ⟨heq, by omega⟩

theorem Known.step (h : Known s c key value version) {a : Action} (hs : Step s a s') :
    Known s' c key value version := by
  have hle := h.inv.version_le hs key
  have hnew : ∀ {reply : Reply}, Replied s'.attempts c reply → Replied s.attempts c reply ∨
      reply = .put .ok ∨ reply = .put .errVersion ∧ version < (s.server.cell key).version := by
    intro reply hreplied
    rcases hs.replied with ⟨-, hsame⟩ | ⟨k, attempt, -, hk, -, -, -, hmore⟩
    · exact Or.inl ((hsame c reply).mp hreplied)
    · rcases (hmore c reply).mp hreplied with hold | ⟨rfl, rfl⟩
      · exact Or.inl hold
      · rw [(h.inv.attempt k attempt hk).1.unique h.asks]
        exact Or.inr h.answer
  refine ⟨h.inv.step hs.to_step, hs.asks h.asks, h.le.trans hle, ?_, fun hno => ?_,
    fun href => ?_⟩
  · rcases h.inv.applied_step hs h.asks with hsame | ⟨hversion, hnext, happlied⟩
    · rw [hsame]
      exact h.once.imp_right fun hone => ⟨hone.1, hone.2.trans_le hle⟩
    · rcases h.once with hzero | ⟨-, hlt⟩
      · exact Or.inr ⟨by omega, by omega⟩
      · omega
  · rcases hnew hno with hold | hok | ⟨hversion, -⟩
    · exact h.found hold
    · cases hok
    · cases hversion
  · rcases hnew href with hold | hok | ⟨-, hlt⟩
    · exact (h.refused hold).trans_le hle
    · cases hok
    · exact hlt.trans_le hle

theorem Known.star (h : Known s c key value version) (hs : kvsrvSys.Star s s') :
    Known s' c key value version := by
  induction hs with
  | refl => exact h
  | tail _ hnext ih =>
      obtain ⟨a, ha⟩ := hnext
      exact ih.step (.of_step ha)

theorem ClerkInv.star (h : ClerkInv s) (hs : kvsrvSys.Star s s') :
    ClerkInv s' ∧ ∀ c result, s.Returned c result → s'.Returned c result := by
  induction hs with
  | refl => exact ⟨h, fun _ _ hr => hr⟩
  | tail _ hnext ih =>
      obtain ⟨a, ha⟩ := hnext
      exact ⟨ih.1.step ha, fun c result hr => ih.1.returned (.of_step ha) (ih.2 c result hr)⟩

theorem ClerkInv.passed (h : ClerkInv s) (hasks : s.Asks c (.put key value version))
    (hlt : version < (s.server.cell key).version) (hs : kvsrvSys.Star s s') :
    s'.applied c = s.applied c := by
  have hall : ClerkInv s' ∧ s'.Asks c (.put key value version) ∧
      version < (s'.server.cell key).version ∧ s'.applied c = s.applied c := by
    induction hs with
    | refl => exact ⟨h, hasks, hlt, rfl⟩
    | tail _ hnext ih =>
        obtain ⟨a, ha⟩ := hnext
        obtain ⟨hinv, hasks, hlt, hsame⟩ := ih
        have hstep := Step.of_step ha
        refine ⟨hinv.step ha, hstep.asks hasks, hlt.trans_le (hinv.version_le hstep key), ?_⟩
        rcases hinv.applied_step hstep hasks with heq | ⟨hversion, -⟩
        · exact heq.trans hsame
        · omega
  exact hall.2.2.2

theorem Truth.applied_eq_zero (h : Truth s.attempts c (.put .errVersion)) : s.applied c = 0 := by
  refine List.countP_eq_zero.mpr fun attempt hmem => ?_
  obtain ⟨k, hk⟩ := List.mem_iff_getElem?.mp hmem
  simp only [decide_eq_true_eq, not_and]
  intro hcall
  rw [h.all rfl k attempt hk hcall]
  nofun

theorem Known.truthful (h : Known s c key value version) : s.Truthful c := by
  intro s₁ s₂ err hfirst hret hlater
  have h₁ := h.star hfirst
  have h₂ := h₁.star hlater
  have htruth := h₁.inv.returned_truth hret
  have hreplied := htruth.replied
  cases err with
  | ok =>
      have hpos := ((h₁.inv.star hlater).1.returned_truth
        ((h₁.inv.star hlater).2 c _ hret)).replied.applied_pos
      rcases h₂.once with hzero | ⟨hone, -⟩
      · omega
      · exact hone
  | errVersion =>
      exact ((h₁.inv.star hlater).1.returned_truth
        ((h₁.inv.star hlater).2 c _ hret)).applied_eq_zero
  | errNoKey => exact absurd hreplied h₁.found
  | errMaybe =>
      refine ⟨?_, h₁.inv.passed h₁.asks (h₁.refused hreplied) hlater⟩
      rcases h₁.once with hzero | ⟨hone, -⟩ <;> omega
  | _ =>
      have hfits := h₁.inv.replied_fits h₁.asks hreplied
      rcases hfits with hfits | hfits | hfits <;> cases hfits

/-! ### A version that the key has yet to reach -/

section runs

variable {call : Call} {attempt : Attempt} {k : ℕ}

theorem exists_send (hc : s.calls[c]? = some call) (hopen : call.result = none)
    (hidle : call.waiting = none) :
    ∃ s', kvsrvSys.Star s s' ∧ s'.server = s.server ∧
      s'.calls[c]? = some { call with waiting := some s.attempts.length } ∧
      s'.attempts = s.attempts ++ [⟨c, call.request, none⟩] :=
  ⟨_, .single (Step.send c call hc hopen hidle).to_step, rfl, Pool.set_self hc, rfl⟩

theorem exists_execute (hk : s.attempts[k]? = some attempt) (hnone : attempt.reply = none) :
    ∃ s', kvsrvSys.Star s s' ∧ s'.server = (s.server.handle attempt.request).1 ∧
      s'.calls = s.calls ∧ s'.attempts = s.attempts.set k
        { attempt with reply := some (s.server.handle attempt.request).2 } :=
  ⟨_, .single (Step.execute k attempt hk hnone).to_step, rfl, rfl, rfl⟩

theorem exists_reply {reply : Reply} (hc : s.calls[c]? = some call)
    (hwaiting : call.waiting = some k)
    (hk : s.attempts[k]? = some attempt) (hreply : attempt.reply = some reply) :
    ∃ s', kvsrvSys.Star s s' ∧ s'.server = s.server ∧ s'.attempts = s.attempts ∧
      s'.calls[c]? = some (call.answered reply) :=
  ⟨_, .single (Step.reply c call k attempt reply hc hwaiting hk hreply).to_step, rfl, rfl,
    Pool.set_self hc⟩

theorem exists_fail (hc : s.calls[c]? = some call) (hwaiting : call.waiting = some k) :
    ∃ s', kvsrvSys.Star s s' ∧ s'.server = s.server ∧ s'.attempts = s.attempts ∧
      s'.calls[c]? = some call.retry :=
  ⟨_, .single (Step.fail c call k hc hwaiting).to_step, rfl, rfl, Pool.set_self hc⟩

/-- Somebody else may write the key. -/
theorem ClerkInv.exists_write (h : ClerkInv s) (key : GoString) :
    ∃ s', kvsrvSys.Star s s' ∧
      (s'.server.cell key).version = (s.server.cell key).version + 1 ∧
      (∀ (k : ℕ) (attempt : Attempt), s.attempts[k]? = some attempt →
        s'.attempts[k]? = some attempt) ∧
      ∀ c < s.calls.length, s'.applied c = s.applied c := by
  have hput : s.server.put key [] (s.server.cell key).version =
      (s.server.set key ⟨[], (s.server.cell key).version + 1⟩, .ok) :=
    (KVServer.put_cases h.versioned key [] _).elim And.right fun hno => absurd rfl hno.1
  obtain ⟨s₁, hinvoke, hserver₁, hcalls₁, hattempts₁⟩ : ∃ s₁, kvsrvSys.Star s s₁ ∧
      s₁.server = s.server ∧ s₁.calls[s.calls.length]? =
        some (.start (.put key [] (s.server.cell key).version)) ∧ s₁.attempts = s.attempts :=
    ⟨_, .single (Step.invoke (.put key [] (s.server.cell key).version)).to_step, rfl, by simp, rfl⟩
  obtain ⟨s₂, hsend, hserver₂, -, hattempts₂⟩ := exists_send hcalls₁ rfl rfl
  rw [hattempts₁] at hattempts₂
  have hlast : s₂.attempts[s.attempts.length]? =
      some ⟨s.calls.length, .put key [] (s.server.cell key).version, none⟩ := by
    rw [hattempts₂]
    simp [Call.start]
  obtain ⟨s₃, hexecute, hserver₃, -, hattempts₃⟩ := exists_execute hlast rfl
  refine ⟨s₃, (hinvoke.trans hsend).trans hexecute, ?_, fun k attempt hk => ?_, fun c hc => ?_⟩
  · rw [hserver₃, hserver₂, hserver₁]
    simp only [KVServer.handle, hput, KVServer.cell_set, if_pos]
  · have hlt := (List.getElem?_eq_some_iff.mp hk).1
    rw [hattempts₃, List.getElem?_set_ne (by omega), hattempts₂]
    exact Pool.append hk _
  · rw [applied_set hlast rfl hattempts₃, if_neg (fun hboth => hc.ne' hboth.1)]
    simp [System.applied, hattempts₂]

theorem ClerkInv.exists_late (h : ClerkInv s)
    (hk : s.attempts[k]? = some ⟨c, .put key value version, none⟩)
    (hle : (s.server.cell key).version ≤ version) :
    ∃ s', kvsrvSys.Star s s' ∧ s'.applied c = s.applied c + 1 := by
  induction hd : version - (s.server.cell key).version generalizing s with
  | zero =>
      have hversion : version = (s.server.cell key).version := by omega
      have hput : s.server.put key value version = (s.server.set key ⟨value, version + 1⟩, .ok) :=
        (KVServer.put_cases h.versioned key value version).elim And.right
          fun hno => absurd hversion hno.1
      obtain ⟨s', hexecute, -, -, hattempts⟩ := exists_execute hk rfl
      refine ⟨s', hexecute, ?_⟩
      rw [applied_set hk rfl hattempts, if_pos ⟨rfl, by simp only [KVServer.handle, hput]⟩]
  | succ d ih =>
      obtain ⟨s₁, hstar, hversion, hkept, hother⟩ := h.exists_write key
      obtain ⟨s₂, hlater, happlied⟩ := ih (h.star hstar).1 (hkept k _ hk) (by omega) (by omega)
      refine ⟨s₂, hstar.trans hlater, ?_⟩
      rw [happlied, hother c (h.call_lt hk)]

/-- A call whose version is ahead may be refused while its first attempt is still
under way. -/
theorem ClerkInv.exists_refused (h : ClerkInv s)
    (hc : s.calls[c]? = some (.start (.put key value version)))
    (hlt : (s.server.cell key).version < version) :
    ∃ (s' : System) (err : Err) (k : ℕ), kvsrvSys.Star s s' ∧ s'.Returned c (.put err) ∧
      (err = .errNoKey ∨ err = .errMaybe) ∧ s'.server = s.server ∧
      s'.attempts[k]? = some ⟨c, .put key value version, none⟩ := by
  obtain ⟨s₁, hsend, hserver₁, hcalls₁, hattempts₁⟩ := exists_send hc rfl rfl
  obtain ⟨s₂, hfail, hserver₂, hattempts₂, hcalls₂⟩ := exists_fail hcalls₁ rfl
  obtain ⟨s₃, hresend, hserver₃, hcalls₃, hattempts₃⟩ := exists_send hcalls₂ rfl rfl
  rw [hattempts₂] at hcalls₃ hattempts₃
  have hfirst : s₁.attempts[s.attempts.length]? = some ⟨c, .put key value version, none⟩ := by
    rw [hattempts₁]
    simp [Call.start]
  have hsecond : s₃.attempts[s₁.attempts.length]? = some ⟨c, .put key value version, none⟩ := by
    rw [hattempts₃]
    simp [Call.start, Call.retry]
  obtain ⟨s₄, hexecute, hserver₄, hcalls₄, hattempts₄⟩ := exists_execute hsecond rfl
  rw [← hcalls₄] at hcalls₃
  have hanswered : s₄.attempts[s₁.attempts.length]? = some ⟨c, .put key value version,
      some (s₃.server.handle (.put key value version)).2⟩ := by
    rw [hattempts₄]
    exact Pool.set_self hsecond
  obtain ⟨s₅, hreply, hserver₅, hattempts₅, hcalls₅⟩ := exists_reply hcalls₃ rfl hanswered rfl
  have hserver : s₃.server = s.server := hserver₃.trans (hserver₂.trans hserver₁)
  have hstar : kvsrvSys.Star s s₅ :=
    (((hsend.trans hfail).trans hresend).trans hexecute).trans hreply
  have hpending : s₅.attempts[s.attempts.length]? = some ⟨c, .put key value version, none⟩ := by
    have hlt := (List.getElem?_eq_some_iff.mp hfirst).1
    rw [hattempts₅, hattempts₄, List.getElem?_set_ne (by omega), hattempts₃]
    exact Pool.append hfirst _
  rw [hserver, KVServer.handle] at hcalls₅
  rw [hserver] at hserver₄
  obtain ⟨hput, herr⟩ := (KVServer.put_cases h.versioned key value version).resolve_left
    (fun hmatch => hlt.ne' hmatch.1) |>.2
  have hsame : s₅.server = s.server := by
    rw [hserver₅, hserver₄]
    exact hput
  rcases herr with ⟨herr, -⟩ | ⟨herr, -⟩
  · rw [herr] at hcalls₅
    exact ⟨s₅, .errNoKey, _, hstar, ⟨_, hcalls₅, rfl⟩, Or.inl rfl, hsame, hpending⟩
  · rw [herr] at hcalls₅
    exact ⟨s₅, .errMaybe, _, hstar, ⟨_, hcalls₅, rfl⟩, Or.inr rfl, hsame, hpending⟩

end runs

/-- **When `Put` tells the truth.** Whatever a call of `Put` returns is true for
good, in every run from its invocation on, exactly if the version that it names
is not ahead of the key at that time. -/
theorem put_truthful_iff (hs : kvsrvSys.Reachable s)
    (hinvoke : s.step (.invoke (.put key value version)) = some s') :
    s'.Truthful s.calls.length ↔ version ≤ (s.server.cell key).version := by
  have hinv := ClerkInv.reachable hs
  have hstep := Step.of_step hinvoke
  cases hstep
  have hcall : (s.calls ++ [Call.start (.put key value version)])[s.calls.length]? =
      some (Call.start (.put key value version)) := by simp
  have hinv' := hinv.step hinvoke
  constructor
  · intro htruthful
    by_contra hahead
    obtain ⟨s₁, err, k, hstar, hret, herr, hserver, hpending⟩ :=
      hinv'.exists_refused hcall (not_le.mp hahead)
    obtain ⟨s₂, hlater, happlied⟩ := (hinv'.star hstar).1.exists_late hpending
      (by rw [hserver]; exact (not_le.mp hahead).le)
    have hsays := htruthful s₁ s₂ err hstar hret hlater
    rcases herr with rfl | rfl
    · have hzero : s₂.applied s.calls.length = 0 := hsays
      omega
    · have hsame : s₂.applied s.calls.length = s₁.applied s.calls.length := hsays.2
      omega
  · intro hle
    have hnone : ∀ reply, ¬ Replied s.attempts s.calls.length reply := hinv.not_replied
    refine Known.truthful ⟨hinv', ⟨_, hcall, rfl⟩, hle, Or.inl ?_, hnone _,
      fun hrefused => absurd hrefused (hnone _)⟩
    by_contra hpos
    obtain ⟨attempt, hmem, happlied⟩ := List.countP_pos_iff.mp (Nat.pos_of_ne_zero hpos)
    obtain ⟨k, hk⟩ := List.mem_iff_getElem?.mp hmem
    simp only [decide_eq_true_eq] at happlied
    exact hnone _ ⟨k, attempt, hk, happlied⟩

end

theorem put_truthful_iff_create :
    ∃ s', System.init.step (.invoke (.put [1] [2] 0)) = some s' ∧
      (s'.Truthful 0 ↔ 0 ≤ (System.init.server.cell [1]).version) :=
  ⟨_, rfl, put_truthful_iff (.init rfl) rfl⟩

/-- The first attempt of a call is given up and a second one refused, since there
is no such key; then the key is created, and the first attempt is executed. -/
def lateWrite : List Action :=
  [.invoke (.put [1] [2] 1), .send 0, .fail 0, .send 0, .execute 1, .reply 0,
    .invoke (.put [1] [3] 0), .send 1, .execute 2, .execute 0]

/-- The same for a key that is there, with a version that is still to come. -/
def lateRewrite : List Action :=
  [.invoke (.put [1] [3] 0), .send 0, .execute 0, .reply 0,
    .invoke (.put [1] [2] 2), .send 1, .fail 1, .send 1, .execute 2, .reply 1,
    .invoke (.put [1] [4] 1), .send 2, .execute 3, .execute 1]

theorem put_applied_later :
    (let s := play System.step System.init lateWrite
     kvsrvSys.Reachable s ∧ s.Returned 0 (.put .errNoKey) ∧ s.applied 0 = 1) ∧
    let s₁ := play System.step System.init (lateRewrite.take 10)
    let s₂ := play System.step System.init lateRewrite
    kvsrvSys.Reachable s₁ ∧ kvsrvSys.Star s₁ s₂ ∧ s₁.Returned 1 (.put .errMaybe) ∧
      s₁.applied 1 = 0 ∧ s₂.applied 1 = 1 := by
  have hstar : kvsrvSys.Star (play System.step System.init (lateRewrite.take 10))
      (play System.step System.init lateRewrite) :=
    (Sys.Run.play System.init System.step lateRewrite).star (j := 10) (k := 14) (by decide)
  exact ⟨⟨reachable_play _ _ _, ⟨_, rfl, rfl⟩, by decide +kernel⟩, reachable_play _ _ _, hstar,
    ⟨_, rfl, rfl⟩, by decide +kernel, by decide +kernel⟩

end RaftShardedKv.Kvsrv
