import RaftShardedKv.Kv.Oracle
import RaftShardedKv.Kvsrv.Outcome

/-!
The single server as its clients see it.

A call of `Put` takes effect when an attempt of it is executed for the
first time, and it does so for good: whether that attempt is applied or
refused, the key is then past the version that the call names, and no
other attempt can be applied. What the call returns is the result of this
first attempt, or `ErrMaybe`. All this is for calls whose version the
key has come to when they are made; a client that names only versions
that it has been shown makes no others.
-/

namespace RaftShardedKv.Kvsrv

open Transition Linearizability Oracle

def serverSpec : Spec KVServer Request Reply := ⟨.make, KVServer.handle⟩

/-- The system with what the clients have seen of it. -/
structure Observed where
  sys : System
  history : List (Event ℕ Request Reply)

namespace Observed

def init : Observed := ⟨.init, []⟩

/-- The event that a step is to the clients; `sys` is the state after it. -/
def event (s : Observed) (sys : System) : Action → List (Event ℕ Request Reply)
  | .invoke request => [.invoke s.sys.calls.length request]
  | .reply c =>
      match sys.calls[c]?.bind Call.result with
      | some result => [.ret c result]
      | none => []
  | _ => []

def step (s : Observed) (a : Action) : Option Observed := do
  let sys ← s.sys.step a
  some ⟨sys, s.history ++ s.event sys a⟩

end Observed

abbrev observedSys : Sys Observed Action := Sys.ofStep Observed.init Observed.step

/-! ### The log of the tests -/

def input : Request → KvInput ℕ
  | .get key => getInput key
  | .put key value version => putInput key value version

def output : Reply → KvOutput ℕ
  | .get reply => ⟨reply.value, reply.version, reply.err⟩
  | .put err => putOutput err

def Observed.seen (s : Observed) : List (Event ℕ (KvInput ℕ) (KvOutput ℕ)) :=
  s.history.map (Event.map input output)

/-- What a call may return for the result it had. -/
inductive Tells : Reply → Reply → Prop
  | same (r : Reply) : Tells r r
  | maybe {err : Err} (h : err = .ok ∨ err = .errVersion) : Tells (.put err) (.put .errMaybe)

/-! ### Versions -/

/-- Every call names a version that its key had come to. -/
structure Versions (s : System) : Prop where
  inv : ClerkInv s
  known : ∀ c key value version, s.Asks c (.put key value version) →
    Known s c key value version
  shown : ∀ c key reply, s.Asks c (.get key) → Replied s.attempts c (.get reply) →
    reply.version ≤ (s.server.cell key).version

section

variable {s s' : System}

theorem Versions.init : Versions System.init :=
  ⟨.init, fun c key value version hc => by simp [System.Asks, System.init] at hc,
    fun c key reply hc => by simp [System.Asks, System.init] at hc⟩

theorem ClerkInv.applied_new (h : ClerkInv s) : s.applied s.calls.length = 0 := by
  refine List.countP_eq_zero.mpr fun attempt hmem => ?_
  obtain ⟨k, hk⟩ := List.mem_iff_getElem?.mp hmem
  have hlt := h.call_lt hk
  simp only [decide_eq_true_eq, not_and]
  omega

theorem Versions.step (h : Versions s) {a : Action} (hs : Step s a s')
    (hknown : ∀ key value version, a = .invoke (.put key value version) →
      version ≤ (s.server.cell key).version) : Versions s' := by
  have hinv := h.inv.step hs.to_step
  refine ⟨hinv, fun c key value version hc => ?_, fun c key reply hc hreplied => ?_⟩
  · rcases hs.asks_or hc with hold | ⟨rfl, rfl⟩
    · exact (h.known c key value version hold).step hs
    · cases hs with
      | invoke request =>
          refine ⟨hinv, hc, hknown key value version rfl, Or.inl h.inv.applied_new,
            h.inv.not_replied _, fun hrefused => absurd hrefused (h.inv.not_replied _)⟩
  · have hle := h.inv.version_le hs key
    rcases hs.replied with ⟨-, hsame⟩ | ⟨k, attempt, -, hk, -, -, hcalls, hmore⟩
    · rcases hs.asks_or hc with hold | ⟨-, rfl⟩
      · exact (h.shown c key reply hold ((hsame c _).mp hreplied)).trans hle
      · exact absurd ((hsame _ _).mp hreplied) (h.inv.not_replied _)
    · have hold : s.Asks c (.get key) := by
        rwa [System.Asks, hcalls] at hc
      rcases (hmore c _).mp hreplied with hreplied | ⟨rfl, heq⟩
      · exact (h.shown c key reply hold hreplied).trans hle
      · rw [(h.inv.attempt k attempt hk).1.unique hold] at heq
        cases heq
        exact (congrArg Entry.version (s.server.get_cell key)).le.trans hle

end

/-! ### Effects -/

/-- The effects of the calls, among what the clients have seen. -/
structure Traced (s : Observed) (t : List (Event ℕ Request Reply ⊕ (ℕ × Request × Reply))) :
    Prop where
  trace : Trace serverSpec t
  told : List.Forall₂ (Event.Told id Tells) (history t) s.history
  server : serverSpec.run serverSpec.init (effects t) = s.sys.server
  invoked : ∀ c request, .invoke c request ∈ history t ↔ s.sys.Asks c request
  returned : ∀ c r, .ret c r ∈ s.history → s.sys.Returned c r
  get : ∀ c key reply, s.sys.Asks c (.get key) → Replied s.sys.attempts c reply →
    (c, .get key, reply) ∈ effects t
  put : ∀ c key value version reply, s.sys.Asks c (.put key value version) →
    Replied s.sys.attempts c reply → ∃ r, (c, .put key value version, r) ∈ effects t
  effect : ∀ c key value version r, (c, .put key value version, r) ∈ effects t →
    version < (s.sys.server.cell key).version ∧
      r = .put (if s.sys.applied c = 0 then .errVersion else .ok)

section

variable {s s' : Observed} {t : List (Event ℕ Request Reply ⊕ (ℕ × Request × Reply))}

theorem Traced.effect_asks (h : Traced s t) {c : ℕ} {request : Request} {r : Reply}
    (hx : (c, request, r) ∈ effects t) : s.sys.Asks c request :=
  (h.invoked c request).mp (h.trace.invoked _ hx)

theorem Traced.not_returned (h : Traced s t) {c : ℕ} (hopen : s.sys.Open c) (r : Reply) :
    .ret c r ∉ history t := by
  intro hr
  obtain ⟨k, hk⟩ := List.mem_iff_getElem?.mp hr
  have hrel := forall₂_getElem? h.told k
  rw [hk] at hrel
  generalize he : s.history[k]? = e at hrel
  cases hrel with
  | some htold =>
      cases htold with
      | ret j htold => exact (h.returned c _ (List.mem_of_getElem? he)).not_open hopen

theorem not_readOnly_put {key value : GoString} {version : ℕ} :
    ¬ serverSpec.ReadOnly (.put key value version) := by
  intro hread
  -- a server that has the key with this version takes the value
  have hsame := hread (KVServer.make.set key ⟨[], version⟩)
  have hdata := congrFun (congrArg KVServer.data hsame) key
  simp [serverSpec, KVServer.handle, KVServer.put, KVServer.set] at hdata

theorem replied_of_applied {s : System} {c : ℕ} (h : s.applied c ≠ 0) :
    Replied s.attempts c (.put .ok) := by
  obtain ⟨attempt, hmem, happlied⟩ := List.countP_pos_iff.mp (Nat.pos_of_ne_zero h)
  obtain ⟨k, hk⟩ := List.mem_iff_getElem?.mp hmem
  simp only [decide_eq_true_eq] at happlied
  exact ⟨k, attempt, hk, happlied⟩

theorem Traced.quiet (h : Traced s t) (hv : Versions s.sys) {sys : System} {a : Action}
    (hs : Step s.sys a sys) (hinvoke : ∀ request, a ≠ .invoke request)
    (hexecute : ∀ k, a ≠ .execute k) : Traced ⟨sys, s.history⟩ t := by
  obtain ⟨hserver, hreplied⟩ := hs.replied.resolve_right fun ⟨k, _, ha, _⟩ => hexecute k ha
  have hasks : ∀ c request, sys.Asks c request ↔ s.sys.Asks c request := fun c request =>
    ⟨fun hc => (hs.asks_or hc).resolve_right fun ha => hinvoke request ha.1, hs.asks⟩
  have happlied : ∀ c, sys.applied c = s.sys.applied c := fun c =>
    (hs.applied c).resolve_right fun ⟨k, _, ha, _⟩ => hexecute k ha
  refine ⟨h.trace, h.told, h.server.trans hserver.symm, fun c request => ?_,
    fun c r hr => hv.inv.returned hs (h.returned c r hr), fun c key reply hc hr => ?_,
    fun c key value version reply hc hr => ?_, fun c key value version r hx => ?_⟩
  · rw [h.invoked, hasks]
  · exact h.get c key reply ((hasks _ _).mp hc) ((hreplied _ _).mp hr)
  · exact h.put c key value version reply ((hasks _ _).mp hc) ((hreplied _ _).mp hr)
  · rw [hserver, happlied]
    exact h.effect c key value version r hx

theorem Traced.invoke (h : Traced s t) (hv : Versions s.sys) (request : Request) :
    Traced ⟨{ s.sys with calls := s.sys.calls ++ [.start request] },
        s.history ++ [.invoke s.sys.calls.length request]⟩
      (t ++ [.inl (.invoke s.sys.calls.length request)]) := by
  have hs : Step s.sys (.invoke request)
    { s.sys with calls := s.sys.calls ++ [.start request] } := .invoke request
  have hnew : ∀ request', ¬ s.sys.Asks s.sys.calls.length request' := by
    rintro request' ⟨call, hc, -⟩
    simp at hc
  refine ⟨h.trace.invoke _ request fun request' hmem => hnew _ ((h.invoked _ _).mp hmem), ?_, ?_,
    fun c request' => ?_, fun c r hr => ?_, fun c key reply hc hr => ?_,
    fun c key value version reply hc hr => ?_, fun c key value version r hx => ?_⟩
  · rw [history_event]
    exact List.rel_append h.told (.cons (.invoke _ _) .nil)
  · rw [effects_event]
    exact h.server
  · rw [history_event, List.mem_append, List.mem_singleton, h.invoked]
    constructor
    · rintro (hc | heq)
      · exact hs.asks hc
      · cases heq
        exact ⟨.start request, List.getElem?_concat_length, rfl⟩
    · intro hc
      rcases hs.asks_or hc with hold | ⟨heq, rfl⟩
      · exact Or.inl hold
      · cases heq
        exact Or.inr rfl
  · exact hv.inv.returned hs (h.returned c r (by simpa using hr))
  · rw [effects_event]
    rcases hs.asks_or hc with hold | ⟨-, rfl⟩
    · exact h.get c key reply hold hr
    · exact absurd hr (hv.inv.not_replied _)
  · rw [effects_event]
    rcases hs.asks_or hc with hold | ⟨-, rfl⟩
    · exact h.put c key value version reply hold hr
    · exact absurd hr (hv.inv.not_replied _)
  · rw [effects_event] at hx
    exact h.effect c key value version r hx

theorem Traced.ret (h : Traced s t) {c : ℕ} {request : Request} {r result : Reply}
    (hx : (c, request, r) ∈ effects t) (htells : Tells r result)
    (hfresh : ∀ r', .ret c r' ∉ history t)
    (hret : s.sys.Returned c result) :
    Traced ⟨s.sys, s.history ++ [.ret c result]⟩ (t ++ [.inl (.ret c r)]) := by
  refine ⟨h.trace.ret c request r hx hfresh, ?_, ?_, fun c' request' => ?_, fun c' r' hr => ?_,
    fun c' key reply hc hr => ?_, fun c' key value version reply hc hr => ?_,
    fun c' key value version r' hx' => ?_⟩
  · rw [history_event]
    exact List.rel_append h.told (.cons (.ret c htells) .nil)
  · rw [effects_event]
    exact h.server
  · rw [history_event, List.mem_append, List.mem_singleton, h.invoked]
    simp
  · rcases List.mem_append.mp hr with hr | hr
    · exact h.returned c' r' hr
    · cases List.mem_singleton.mp hr
      exact hret
  · rw [effects_event]
    exact h.get c' key reply hc hr
  · rw [effects_event]
    exact h.put c' key value version reply hc hr
  · rw [effects_event] at hx'
    exact h.effect c' key value version r' hx'

/-- What a call returns is what it tells of its effect. -/
theorem Traced.answered (h : Traced s t) (hv : Versions s.sys) {sys : System} {c k : ℕ}
    {call : Call}
    {attempt : Attempt} {reply : Reply} (hc : s.sys.calls[c]? = some call)
    (hwaiting : call.waiting = some k) (hk : s.sys.attempts[k]? = some attempt)
    (hreply : attempt.reply = some reply)
    (hsys : sys = { s.sys with calls := s.sys.calls.set c (call.answered reply) }) :
    ∃ r result, (c, call.request, r) ∈ effects t ∧ Tells r result ∧ sys.Returned c result := by
  have hstep : Step s.sys (.reply c) sys :=
    hsys ▸ .reply c call k attempt reply hc hwaiting hk hreply
  have hinv := hv.inv.step hstep.to_step
  obtain ⟨-, attempt', hk', hcall⟩ := (hv.inv.call c call hc).waiting k hwaiting
  obtain rfl := Option.some.inj (hk.symm.trans hk')
  have hreplied : Replied s.sys.attempts c reply := ⟨k, attempt, hk, hcall, hreply⟩
  have hasks : s.sys.Asks c call.request := ⟨call, hc, rfl⟩
  have hreturned : ∀ result, call.answered reply = call.returned result →
      sys.Returned c result := by
    intro result heq
    subst hsys
    exact ⟨_, Pool.set_self hc, by rw [heq]; rfl⟩
  have hfits := hv.inv.replied_fits hasks hreplied
  cases hreq : call.request with
  | get key =>
      rw [hreq] at hasks
      have heffect := h.get c key reply hasks hreplied
      rcases Call.answered_of_fits hfits with ⟨heq, -⟩ | ⟨rfl, -⟩
      · exact ⟨reply, reply, heffect, .same reply, hreturned reply heq⟩
      · rw [hreq] at hfits
        cases hfits
  | put key value version =>
      rw [hreq] at hasks
      obtain ⟨r, hr⟩ := h.put c key value version reply hasks hreplied
      have hresult := (h.effect c key value version r hr).2
      rcases Call.answered_of_fits hfits with ⟨heq, -⟩ | ⟨rfl, heq⟩
      · refine ⟨r, reply, hr, ?_, hreturned reply heq⟩
        -- the reply is the result of the first attempt
        rw [hreq] at hfits
        cases reply with
        | get reply => cases hfits
        | put err =>
            rcases hfits with rfl | rfl | rfl
            · have hpos := hreplied.applied_pos
              rw [if_neg (by omega)] at hresult
              exact hresult ▸ .same _
            · exact absurd hreplied (hv.known c key value version hasks).found
            · have hzero : s.sys.applied c = 0 := by
                have hnone := (hinv.returned_truth (hreturned _ heq)).applied_eq_zero
                rwa [hsys] at hnone
              rw [if_pos hzero] at hresult
              exact hresult ▸ .same _
      · refine ⟨r, .put .errMaybe, hr, ?_, hreturned _ heq⟩
        rw [hresult]
        split
        · exact .maybe (Or.inr rfl)
        · exact .maybe (Or.inl rfl)

theorem Step.executed {s s' : System} {k : ℕ} (hs : Step s (.execute k) s') :
    ∃ attempt, s.attempts[k]? = some attempt ∧ s'.calls = s.calls ∧
      s'.server = (s.server.handle attempt.request).1 ∧
      ∀ c reply, Replied s'.attempts c reply ↔ Replied s.attempts c reply ∨
        c = attempt.call ∧ reply = (s.server.handle attempt.request).2 := by
  have hstep := hs
  cases hs with
  | execute _ attempt hk hnone =>
      refine ⟨attempt, hk, rfl, rfl, fun c reply => ?_⟩
      rcases hstep.replied with ⟨-, hsame⟩ | ⟨k', attempt', heq, hk', -, -, -, hmore⟩
      · rw [hsame]
        refine ⟨Or.inl, fun hr => hr.elim id ?_⟩
        rintro ⟨rfl, rfl⟩
        exact (hsame _ _).mp ⟨k, _, Pool.set_self hk, rfl, rfl⟩
      · cases heq
        obtain rfl := Option.some.inj (hk.symm.trans hk')
        exact hmore c reply

/-- An attempt is executed that has an effect. -/
theorem Traced.execute (h : Traced s t) (hv : Versions s.sys) {sys : System} {k : ℕ}
    {attempt : Attempt} (hs : Step s.sys (.execute k) sys)
    (hk : s.sys.attempts[k]? = some attempt) (hcalls : sys.calls = s.sys.calls)
    (hserver : sys.server = (s.sys.server.handle attempt.request).1)
    (hreplied : ∀ c reply, Replied sys.attempts c reply ↔ Replied s.sys.attempts c reply ∨
      c = attempt.call ∧ reply = (s.sys.server.handle attempt.request).2)
    (honce : serverSpec.ReadOnly attempt.request ∨ ∀ x ∈ effects t, x.1 ≠ attempt.call) :
    Traced ⟨sys, s.history⟩ (t ++ [.inr (attempt.call, attempt.request,
      (s.sys.server.handle attempt.request).2)]) := by
  have hasked := (hv.inv.attempt k attempt hk).1
  have hasks : ∀ {c request}, sys.Asks c request → s.sys.Asks c request := by
    intro c request hc
    rwa [System.Asks, hcalls] at hc
  have heffects : effects (t ++ [.inr (attempt.call, attempt.request,
      (s.sys.server.handle attempt.request).2)]) = effects t ++ [(attempt.call, attempt.request,
      (s.sys.server.handle attempt.request).2)] := effects_effect t _
  have htrace := h.trace.effect attempt.call attempt.request ((h.invoked _ _).mpr hasked) honce
  rw [h.server] at htrace
  refine ⟨htrace, ?_, ?_, fun c request => ?_,
    fun c r hr => hv.inv.returned hs (h.returned c r hr), fun c key reply hc hr => ?_,
    fun c key value version reply hc hr => ?_, fun c key value version r hx => ?_⟩
  · rw [history_effect]
    exact h.told
  · rw [heffects, Spec.run_concat, h.server]
    exact hserver.symm
  · rw [history_effect, h.invoked]
    exact ⟨hs.asks, hasks⟩
  · rw [heffects]
    rcases (hreplied c reply).mp hr with hr | ⟨rfl, rfl⟩
    · exact List.mem_append_left _ (h.get c key reply (hasks hc) hr)
    · rw [← hasked.unique (hasks hc)]
      exact List.mem_append_right _ (List.mem_singleton_self _)
  · rw [heffects]
    rcases (hreplied c reply).mp hr with hr | ⟨rfl, rfl⟩
    · obtain ⟨r, hr⟩ := h.put c key value version reply (hasks hc) hr
      exact ⟨r, List.mem_append_left _ hr⟩
    · rw [← hasked.unique (hasks hc)]
      exact ⟨_, List.mem_append_right _ (List.mem_singleton_self _)⟩
  · rw [heffects] at hx
    rcases List.mem_append.mp hx with hx | hx
    · -- an earlier effect is that of another call
      have hne : c ≠ attempt.call := by
        rintro rfl
        rcases honce with hread | hfirst
        · rw [hasked.unique (h.effect_asks hx)] at hread
          exact not_readOnly_put hread
        · exact hfirst _ hx rfl
      obtain ⟨hlt, hr⟩ := h.effect c key value version r hx
      refine ⟨hlt.trans_le (hv.inv.version_le hs key), ?_⟩
      rcases hs.applied c with hsame | ⟨k', attempt', heq, hk', hcall, -⟩
      · rw [hsame]
        exact hr
      · cases heq
        obtain rfl := Option.some.inj (hk.symm.trans hk')
        exact absurd hcall.symm hne
    · obtain ⟨rfl, hreq, rfl⟩ : c = attempt.call ∧ .put key value version = attempt.request ∧
          r = (s.sys.server.handle attempt.request).2 := by simpa using hx
      rw [← hreq] at hasked hserver ⊢
      have hzero : s.sys.applied attempt.call = 0 := by
        by_contra happlied
        obtain ⟨r, hr⟩ := h.put _ key value version _ hasked (replied_of_applied happlied)
        rcases honce with hread | hfirst
        · exact not_readOnly_put (hreq ▸ hread)
        · exact hfirst _ hr rfl
      have hstep := hv.inv.applied_step hs hasked
      rcases (hv.known _ key value version hasked).answer with hok | ⟨herr, hlt⟩
      · have hpos : 1 ≤ sys.applied attempt.call :=
          Replied.applied_pos ((hreplied _ _).mpr (Or.inr ⟨rfl, by rw [← hreq, hok]⟩))
        rcases hstep with hsame | ⟨-, hnext, -⟩
        · omega
        · exact ⟨by dsimp only; omega, by rw [hok, if_neg (by dsimp only; omega)]⟩
      · rcases hstep with hsame | ⟨hversion, -⟩
        · refine ⟨hlt.trans_le (hv.inv.version_le hs key), ?_⟩
          rw [herr, if_pos (hsame.trans hzero)]
        · omega

/-- An attempt is executed after another one of its call: it is refused. -/
theorem Traced.execute_again (h : Traced s t) (hv : Versions s.sys) {sys : System} {k : ℕ}
    {attempt : Attempt} (hs : Step s.sys (.execute k) sys)
    (hk : s.sys.attempts[k]? = some attempt) (hcalls : sys.calls = s.sys.calls)
    (hserver : sys.server = (s.sys.server.handle attempt.request).1)
    (hreplied : ∀ c reply, Replied sys.attempts c reply ↔ Replied s.sys.attempts c reply ∨
      c = attempt.call ∧ reply = (s.sys.server.handle attempt.request).2)
    {key value : GoString} {version : ℕ} {r : Reply}
    (hx : (attempt.call, .put key value version, r) ∈ effects t) : Traced ⟨sys, s.history⟩ t := by
  have hasked := h.effect_asks hx
  have hreq := (hv.inv.attempt k attempt hk).1.unique hasked
  have hasks : ∀ {c request}, sys.Asks c request → s.sys.Asks c request := by
    intro c request hc
    rwa [System.Asks, hcalls] at hc
  have hpast := (h.effect _ key value version r hx).1
  have hsame : sys.server = s.sys.server := by
    rw [hserver, hreq, KVServer.handle]
    rcases KVServer.put_cases hv.inv.versioned key value version with ⟨heq, -⟩ | ⟨-, heq, -⟩
    · omega
    · exact heq
  refine ⟨h.trace, h.told, h.server.trans hsame.symm, fun c request => ?_,
    fun c r hr => hv.inv.returned hs (h.returned c r hr), fun c key' reply hc hr => ?_,
    fun c key' value' version' reply hc hr => ?_, fun c key' value' version' r' hx' => ?_⟩
  · rw [h.invoked]
    exact ⟨hs.asks, hasks⟩
  · rcases (hreplied c reply).mp hr with hr | ⟨rfl, -⟩
    · exact h.get c key' reply (hasks hc) hr
    · cases hasked.unique (hasks hc)
  · rcases (hreplied c reply).mp hr with hr | ⟨rfl, -⟩
    · exact h.put c key' value' version' reply (hasks hc) hr
    · rw [← hasked.unique (hasks hc)]
      exact ⟨r, hx⟩
  · obtain ⟨hlt, hr⟩ := h.effect c key' value' version' r' hx'
    rw [hsame]
    refine ⟨hlt, ?_⟩
    rcases hv.inv.applied_step hs (h.effect_asks hx') with heq | ⟨hversion, -⟩
    · rw [heq]
      exact hr
    · omega

/-- **One step.** -/
theorem Traced.step (h : Traced s t) (hv : Versions s.sys) {a : Action}
    (hs : s.step a = some s') : ∃ t', Traced s' t' := by
  obtain ⟨sys, hsys, hs⟩ := Option.bind_eq_some_iff.mp hs
  cases hs
  have hstep := Step.of_step hsys
  cases a with
  | invoke request =>
      cases hstep
      exact ⟨_, h.invoke hv request⟩
  | send c =>
      refine ⟨t, ?_⟩
      simp only [Observed.event, List.append_nil]
      exact h.quiet hv hstep (by simp) (by simp)
  | fail c =>
      refine ⟨t, ?_⟩
      simp only [Observed.event, List.append_nil]
      exact h.quiet hv hstep (by simp) (by simp)
  | execute k =>
      simp only [Observed.event, List.append_nil]
      obtain ⟨attempt, hk, hcalls, hserver, hreplied⟩ := hstep.executed
      by_cases hfirst : ∀ x ∈ effects t, x.1 ≠ attempt.call
      · exact ⟨_, h.execute hv hstep hk hcalls hserver hreplied (Or.inr hfirst)⟩
      · push Not at hfirst
        obtain ⟨⟨c, request, r⟩, hx, rfl⟩ := hfirst
        cases request with
        | get key =>
            have hreq := (hv.inv.attempt k attempt hk).1.unique (h.effect_asks hx)
            refine ⟨_, h.execute hv hstep hk hcalls hserver hreplied (Or.inl ?_)⟩
            rw [hreq]
            exact fun _ => rfl
        | put key value version =>
            exact ⟨t, h.execute_again hv hstep hk hcalls hserver hreplied hx⟩
  | reply c =>
      have hquiet := h.quiet hv hstep (by simp) (by simp)
      cases hstep with
      | reply _ call k attempt reply hc hwaiting hk hreply =>
          obtain ⟨r, result, hx, htells, hret⟩ := h.answered hv hc hwaiting hk hreply rfl
          obtain ⟨call', hc', hresult⟩ := hret
          refine ⟨t ++ [.inl (.ret c r)], ?_⟩
          simp only [Observed.event, hc', Option.bind_some, hresult]
          exact hquiet.ret hx htells (h.not_returned (hv.inv.open_of_waiting hc hwaiting))
            ⟨call', hc', hresult⟩

/-! ### Clients that name versions they have been shown -/

theorem mem_seen_invoke {c : ℕ} {inp : KvInput ℕ} (hc : .invoke c inp ∈ s.seen) :
    ∃ request, .invoke c request ∈ s.history ∧ input request = inp := by
  obtain ⟨e, he, heq⟩ := List.mem_map.mp hc
  cases e with
  | invoke i request =>
      cases heq
      exact ⟨request, he, rfl⟩
  | ret i r => cases heq

theorem mem_seen_ret {c : ℕ} {out : KvOutput ℕ} (hc : .ret c out ∈ s.seen) :
    ∃ r, .ret c r ∈ s.history ∧ output r = out := by
  obtain ⟨e, he, heq⟩ := List.mem_map.mp hc
  cases e with
  | invoke i request => cases heq
  | ret i r =>
      cases heq
      exact ⟨r, he, rfl⟩

theorem Traced.history_asks (h : Traced s t) {c : ℕ} {request : Request}
    (hc : .invoke c request ∈ s.history) : s.sys.Asks c request := by
  obtain ⟨k, hk⟩ := List.mem_iff_getElem?.mp hc
  obtain ⟨_, hk', rfl⟩ := (told_invoke_iff h.told).mp hk
  exact (h.invoked c _).mp (List.mem_of_getElem? hk')

/-- A version that has been shown is one that the key has come to. -/
theorem Traced.shows_le (h : Traced s t) (hv : Versions s.sys) {key : GoString} {version : ℕ}
    (hshows : Shows s.seen key version) : version ≤ (s.sys.server.cell key).version := by
  obtain ⟨c, inp, out, hinvoke, hret, rfl, hshow⟩ := hshows.exists_call
  obtain ⟨request, hrequest, rfl⟩ := mem_seen_invoke hinvoke
  obtain ⟨r, hr, rfl⟩ := mem_seen_ret hret
  have hasks := h.history_asks hrequest
  have htruth := hv.inv.returned_truth (h.returned c r hr)
  have hreplied := htruth.replied
  have hfits := hv.inv.replied_fits hasks hreplied
  cases request with
  | get key =>
      obtain ⟨herr, hle⟩ : (output r).err = .ok ∧ version ≤ (output r).version := by
        simpa [input, getInput] using hshow
      cases r with
      | get reply =>
          exact hle.trans (hv.shown c key reply hasks (by simpa using hreplied))
      | put err =>
          split at hfits
          · cases hfits
          · cases hfits
  | put key value version' =>
      obtain ⟨herr, hle⟩ : ((output r).err = .ok ∨ (output r).err = .errVersion ∨
          (output r).err = .errMaybe) ∧ version ≤ version' + 1 := by
        simpa [input, putInput] using hshow
      have hknown := hv.known c key value version' hasks
      cases r with
      | get reply => simp [Request.Fits] at hfits
      | put err =>
          have hlt : version' < (s.sys.server.cell key).version := by
            rcases herr with rfl | rfl | rfl
            · have hpos := Replied.applied_pos hreplied
              rcases hknown.once with hzero | ⟨-, hlt⟩
              · omega
              · exact hlt
            · exact hknown.refused hreplied
            · exact hknown.refused hreplied
          exact hle.trans hlt

theorem Observed.seen_mono {a : Action} (hs : s.step a = some s') : s.seen <+: s'.seen := by
  obtain ⟨sys, -, hs⟩ := Option.bind_eq_some_iff.mp hs
  cases hs
  exact (List.prefix_append _ _).map _

/-- **Every run.** -/
theorem Traced.reachable (hs : observedSys.Reachable s) (hi : Informed s.seen) :
    Versions s.sys ∧ ∃ t, Traced s t := by
  induction hs with
  | init hinit =>
      subst hinit
      refine ⟨.init, [], .nil, .nil, rfl, fun c request => ?_, ?_, ?_, ?_, ?_⟩
      · simp [history, System.Asks, Observed.init, System.init]
      all_goals simp [effects, System.Asks, Observed.init, System.init]
  | @step s a s' hs hstep ih =>
      obtain ⟨hv, t, h⟩ := ih (hi.mono (Observed.seen_mono hstep))
      refine ⟨?_, h.step hv hstep⟩
      obtain ⟨sys, hsys, heq⟩ := Option.bind_eq_some_iff.mp hstep
      cases heq
      refine hv.step (.of_step hsys) fun key value version ha => ?_
      subst ha
      -- the version of a new call is 0 or has been shown
      by_cases hzero : version = 0
      · omega
      · have hshows := hi s.seen.length s.sys.calls.length (putInput key value version)
          (by simp [Observed.seen, Observed.event, Event.map, input]) rfl hzero
        refine h.shows_le hv ?_
        simpa [Observed.seen, putInput] using hshows

/-! ### The verdict of the tests -/

def Notes (r : Reply) (out : KvOutput ℕ) : Prop := ∃ r', Tells r r' ∧ out = output r'

theorem notes_seen {h : List (Event ℕ Request Reply)} {h' : List (Event ℕ Request Reply)}
    (hh : List.Forall₂ (Event.Told id Tells) h h') :
    List.Forall₂ (Event.Told input Notes) h (h'.map (Event.map input output)) := by
  induction hh with
  | nil => exact .nil
  | cons he hh ih =>
      refine .cons ?_ ih
      cases he with
      | invoke i request => exact .invoke i request
      | ret i htells => exact .ret i ⟨_, htells, rfl⟩

def cellState (kv : KVServer) (key : GoString) : Option (KvState ℕ) :=
  (kv.data key).map fun item => ⟨item.value, item.version⟩

theorem notes_put {err : Err} {out : KvOutput ℕ} (h : Notes (.put err) out) :
    out.err = err ∨ out.err = .errMaybe ∧ (err = .ok ∨ err = .errVersion) := by
  obtain ⟨r', htells, rfl⟩ := h
  cases htells with
  | same => exact Or.inl rfl
  | maybe herr => exact Or.inr ⟨rfl, herr⟩

theorem server_versionedMap : VersionedMap serverSpec input Notes cellState where
  tells r := ⟨output r, r, .same r, rfl⟩
  init key := rfl
  other kv request key hne := by
    cases request with
    | get key' => rfl
    | put key' value version =>
        have hset : ∀ item, cellState (kv.set key' item) key = cellState kv key := fun item =>
          congrArg _ (Function.update_of_ne (Ne.symm hne) _ _)
        simp only [serverSpec, KVServer.handle, KVServer.put]
        cases kv.data key' with
        | none =>
            dsimp only
            split
            · exact hset _
            · rfl
        | some item =>
            dsimp only
            split
            · rfl
            · exact hset _
  get kv request out hop hnotes := by
    cases request with
    | get key =>
        obtain ⟨r', htells, rfl⟩ := hnotes
        cases htells
        refine ⟨rfl, ?_, fun herr => ?_⟩
        all_goals simp only [serverSpec, KVServer.handle, output, KVServer.get, cellState, input,
          getInput] at *
        · cases kv.data key <;> rfl
        · cases hdata : kv.data key <;> simp_all
    | put key value version => cases hop
  put kv request out hop hnotes := by
    cases request with
    | get key => exact absurd rfl hop
    | put key value version =>
        refine ⟨rfl, ?_⟩
        have hset : ∀ item, cellState (kv.set key item) key = some ⟨item.value, item.version⟩ :=
          fun item => congrArg _ (Function.update_self _ _ _)
        have herr := notes_put hnotes
        simp only [serverSpec, KVServer.handle, KVServer.put, input, putInput] at herr ⊢
        cases hdata : kv.data key with
        | none =>
            by_cases hzero : version = 0
            · simp_all [cellState]
            · simp_all [cellState]
        | some item =>
            by_cases hversion : item.version = version
            · simp_all [cellState]
            · simp_all [cellState]

/-- **The single server passes the tests.** Clients that name only
versions they have been shown see one server that executes their calls
one at a time, where `ErrMaybe` stands for `OK` or `ErrVersion`; and when
all calls have returned, the log of the tests is legal. -/
theorem kvsrv_legal (hs : observedSys.Reachable s) (hi : Informed s.seen) :
    (∃ h, List.Forall₂ (Event.Told id Tells) h s.history ∧ Linearizable serverSpec h) ∧
      (Complete s.history → Legal (operations s.seen)) := by
  obtain ⟨-, t, h⟩ := Traced.reachable hs hi
  refine ⟨⟨history t, h.told, h.trace.linearizable⟩, fun hc => ?_⟩
  exact server_versionedMap.legal (notes_seen h.told) h.trace.wellFormed (.of_told h.told hc)
    h.trace.linearizable hi

end

/-- The reply to the first attempt of a `Put` is lost, and the second
attempt is refused; the client then reads the key and writes it again. -/
def maybeThenPut : List Action :=
  [.invoke (.put [1] [2] 0), .send 0, .execute 0, .fail 0, .send 0, .execute 1, .reply 0,
    .invoke (.get [1]), .send 1, .execute 2, .reply 1,
    .invoke (.put [1] [3] 1), .send 2, .execute 3, .reply 2]

def observedMaybe : Observed := play Observed.step Observed.init maybeThenPut

theorem observedMaybe_history : observedMaybe.history =
    [.invoke 0 (.put [1] [2] 0), .ret 0 (.put .errMaybe), .invoke 1 (.get [1]),
      .ret 1 (.get ⟨[2], 1, .ok⟩), .invoke 2 (.put [1] [3] 1), .ret 2 (.put .ok)] := by
  decide +kernel

theorem observedMaybe_informed : Informed observedMaybe.seen := by
  rw [Observed.seen, observedMaybe_history]
  intro k i inp hk hop hversion
  have hlt := (List.getElem?_eq_some_iff.mp hk).1
  simp only [List.map_cons, List.map_nil, List.length_cons, List.length_nil] at hlt
  interval_cases k <;> cases hk
  · exact absurd rfl hversion
  · cases hop
  · decide

theorem kvsrv_legal_maybe : Complete observedMaybe.history ∧
    Legal (operations observedMaybe.seen) := by
  have hcomplete : Complete observedMaybe.history := by
    rw [observedMaybe_history]
    intro i op hop
    have hcall : i = 0 ∨ i = 1 ∨ i = 2 := by
      simp at hop
      omega
    rcases hcall with rfl | rfl | rfl
    · exact ⟨.put .errMaybe, by decide⟩
    · exact ⟨.get ⟨[2], 1, .ok⟩, by decide⟩
    · exact ⟨.put .ok, by decide⟩
  exact ⟨hcomplete, (kvsrv_legal (reachable_play _ _ maybeThenPut) observedMaybe_informed).2
    hcomplete⟩

end RaftShardedKv.Kvsrv
