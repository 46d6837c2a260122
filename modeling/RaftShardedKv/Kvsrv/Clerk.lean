import RaftShardedKv.Kvsrv.System

/-!
What a call of a clerk means: what it returns is the reply to one of its
attempts, and what it leaves open is said by `resent`.

The rest of the development sees a state through three questions: what a
call asks for, which replies its attempts have got, and what it returned.
All steps but one leave the server and the replies alone; the execution
of an attempt adds one reply.
-/

namespace RaftShardedKv.Kvsrv

/-! ### The server -/

/-- What is stored under a key, version 0 if there is nothing. -/
def KVServer.cell (kv : KVServer) (key : GoString) : Entry := (kv.data key).getD ⟨[], 0⟩

/-- Stored versions start at 1. -/
def KVServer.Versioned (kv : KVServer) : Prop :=
  ∀ key item, kv.data key = some item → 1 ≤ item.version

theorem KVServer.Versioned.make : KVServer.make.Versioned := nofun

theorem KVServer.cell_set (kv : KVServer) (key key' : GoString) (item : Entry) :
    (kv.set key item).cell key' = if key' = key then item else kv.cell key' := by
  unfold KVServer.cell KVServer.set
  dsimp only
  split
  · rename_i heq
    rw [heq, Function.update_self]
    rfl
  · rename_i hne
    rw [Function.update_of_ne hne]

theorem KVServer.Versioned.set {kv : KVServer} (h : kv.Versioned) (key : GoString) {item : Entry}
    (hitem : 1 ≤ item.version) : (kv.set key item).Versioned := by
  intro key' item' hget
  change Function.update kv.data key (some item) key' = some item' at hget
  rcases eq_or_ne key' key with rfl | hne
  · rw [Function.update_self] at hget
    cases hget
    exact hitem
  · rw [Function.update_of_ne hne] at hget
    exact h key' item' hget

theorem KVServer.get_cell (kv : KVServer) (key : GoString) :
    (⟨(kv.get key).value, (kv.get key).version⟩ : Entry) = kv.cell key := by
  unfold KVServer.get KVServer.cell
  cases kv.data key <;> rfl

/-- A write with the stored version stores the value under the next one;
any other changes nothing. -/
theorem KVServer.put_cases {kv : KVServer} (h : kv.Versioned) (key value : GoString)
    (version : ℕ) :
    version = (kv.cell key).version ∧
        kv.put key value version = (kv.set key ⟨value, version + 1⟩, .ok) ∨
      version ≠ (kv.cell key).version ∧ (kv.put key value version).1 = kv ∧
        ((kv.put key value version).2 = .errNoKey ∧ (kv.cell key).version = 0 ∨
          (kv.put key value version).2 = .errVersion ∧ 1 ≤ (kv.cell key).version) := by
  unfold KVServer.put KVServer.cell
  cases hdata : kv.data key with
  | none =>
      rcases eq_or_ne version 0 with rfl | hne
      · simp
      · simp [hne]
  | some item =>
      have hitem := h key item hdata
      rcases eq_or_ne item.version version with rfl | hne
      · simp
      · simp [hne, hne.symm, hitem]

theorem KVServer.Versioned.handle {kv : KVServer} (h : kv.Versioned) (request : Request) :
    (kv.handle request).1.Versioned := by
  cases request with
  | get key => exact h
  | put key value version =>
      show (kv.put key value version).1.Versioned
      rcases KVServer.put_cases h key value version with ⟨-, heq⟩ | ⟨-, heq, -⟩
      · rw [heq]
        exact h.set key (Nat.le_add_left 1 version)
      · rwa [heq]

theorem KVServer.cell_congr {kv kv' : KVServer} {key : GoString}
    (h : kv'.data key = kv.data key) : kv'.cell key = kv.cell key := by
  rw [KVServer.cell, KVServer.cell, h]

/-- What the execution of a request does to a key. -/
theorem KVServer.handle_cell {kv : KVServer} (h : kv.Versioned) (request : Request)
    (key : GoString) :
    (kv.handle request).1.data key = kv.data key ∧
        (∀ value version, request = .put key value version →
          version ≠ (kv.cell key).version ∧ (kv.handle request).2 ≠ .put .ok ∧
            ((kv.handle request).2 = .put .errNoKey → (kv.cell key).version = 0)) ∨
      ∃ value, request = .put key value (kv.cell key).version ∧
        (kv.handle request).2 = .put .ok ∧
        (kv.handle request).1.cell key = ⟨value, (kv.cell key).version + 1⟩ := by
  cases request with
  | get key' => exact Or.inl ⟨rfl, nofun⟩
  | put key' value version =>
      simp only [KVServer.handle]
      rcases KVServer.put_cases h key' value version with ⟨rfl, heq⟩ | ⟨hne, hsame, herr⟩
      · rw [heq]
        rcases eq_or_ne key key' with rfl | hkey
        · exact Or.inr ⟨value, rfl, rfl, by rw [KVServer.cell_set, if_pos rfl]⟩
        · refine Or.inl ⟨Function.update_of_ne hkey _ _, fun value' version' hreq => ?_⟩
          exact absurd (Request.put.inj hreq).1.symm hkey
      · refine Or.inl ⟨by rw [hsame], fun value' version' hreq => ?_⟩
        obtain ⟨rfl, rfl, rfl⟩ := Request.put.inj hreq
        refine ⟨hne, ?_, ?_⟩
        · rcases herr with ⟨herr, -⟩ | ⟨herr, -⟩ <;> rw [herr] <;> nofun
        · intro hno
          rcases herr with ⟨-, hzero⟩ | ⟨herr, -⟩
          · exact hzero
          · rw [herr] at hno
            cases hno

/-! ### Questions about a state -/

/-- An attempt of call `c` has been executed with this reply. -/
def Replied (attempts : List Attempt) (c : ℕ) (reply : Reply) : Prop :=
  ∃ (k : ℕ) (attempt : Attempt), attempts[k]? = some attempt ∧ attempt.call = c ∧
    attempt.reply = some reply

namespace System

variable (s : System) (c : ℕ)

/-- Call `c` is for this request. -/
def Asks (request : Request) : Prop := ∃ call, s.calls[c]? = some call ∧ call.request = request

/-- Call `c` has returned this. -/
def Returned (result : Reply) : Prop :=
  ∃ call, s.calls[c]? = some call ∧ call.result = some result

/-- Call `c` has not returned. -/
def Open : Prop := ∃ call, s.calls[c]? = some call ∧ call.result = none

end System

section

variable {s s' : System} {c : ℕ}

theorem System.Asks.unique {request request' : Request} (h : s.Asks c request)
    (h' : s.Asks c request') : request = request' := by
  obtain ⟨call, hc, rfl⟩ := h
  obtain ⟨call', hc', rfl⟩ := h'
  rw [Option.some.inj (hc.symm.trans hc')]

theorem System.Returned.not_open {result : Reply} (h : s.Returned c result) : ¬ s.Open c := by
  rintro ⟨call, hc, hnone⟩
  obtain ⟨call', hc', hsome⟩ := h
  obtain rfl := Option.some.inj (hc.symm.trans hc')
  rw [hnone] at hsome
  cases hsome

/-- What a call has returned is a reply to one of its attempts, with
`ErrMaybe` for `ErrVersion` if it sent several; `ErrVersion` itself is
the reply to all of them. -/
structure Truth (attempts : List Attempt) (c : ℕ) (result : Reply) : Prop where
  replied : Replied attempts c (if result = .put .errMaybe then .put .errVersion else result)
  all : result = .put .errVersion → ∀ (k : ℕ) (attempt : Attempt),
    attempts[k]? = some attempt → attempt.call = c → attempt.reply = some result

/-- A reply is one the server gives to the request. -/
def Request.Fits : Request → Reply → Prop
  | .get _, .get reply => reply.err = .ok ∨ reply = ⟨[], 0, .errNoKey⟩
  | .put _ _ _, .put err => err = .ok ∨ err = .errNoKey ∨ err = .errVersion
  | _, _ => False

theorem KVServer.handle_fits {kv : KVServer} (h : kv.Versioned) (request : Request) :
    request.Fits (kv.handle request).2 := by
  cases request with
  | get key =>
      show (kv.get key).err = .ok ∨ kv.get key = ⟨[], 0, .errNoKey⟩
      unfold KVServer.get
      cases kv.data key with
      | none => exact Or.inr rfl
      | some item => exact Or.inl rfl
  | put key value version =>
      show (kv.put key value version).2 = _ ∨ (kv.put key value version).2 = _ ∨ _
      rcases KVServer.put_cases h key value version with ⟨-, heq⟩ | ⟨-, -, ⟨heq, -⟩ | ⟨heq, -⟩⟩
      · rw [heq]
        exact Or.inl rfl
      · exact Or.inr (Or.inl heq)
      · exact Or.inr (Or.inr heq)

theorem Request.Fits.ne_errMaybe {request : Request} {reply : Reply} (h : request.Fits reply) :
    reply ≠ .put .errMaybe := by
  rintro rfl
  cases request <;> simp [Request.Fits] at h

/-- A call and its attempts. -/
structure CallInv (attempts : List Attempt) (c : ℕ) (call : Call) : Prop where
  waiting : ∀ k, call.waiting = some k →
    call.result = none ∧ ∃ attempt, attempts[k]? = some attempt ∧ attempt.call = c
  -- before anything is sent again there is no attempt but the one waited for
  first : call.resent = false → call.result = none → ∀ (k : ℕ) (attempt : Attempt),
    attempts[k]? = some attempt → attempt.call = c → call.waiting = some k
  truth : ∀ result, call.result = some result → Truth attempts c result

structure ClerkInv (s : System) : Prop where
  versioned : s.server.Versioned
  attempt : ∀ (k : ℕ) (attempt : Attempt), s.attempts[k]? = some attempt →
    s.Asks attempt.call attempt.request ∧
      ∀ reply, attempt.reply = some reply → attempt.request.Fits reply
  call : ∀ (c : ℕ) (call : Call), s.calls[c]? = some call → CallInv s.attempts c call

/-! ### Steps -/

/-- What a step can do. -/
inductive Step (s : System) : Action → System → Prop
  | invoke (request : Request) :
      Step s (.invoke request) { s with calls := s.calls ++ [.start request] }
  | send (c : ℕ) (call : Call) (hc : s.calls[c]? = some call) (hopen : call.result = none)
      (hidle : call.waiting = none) :
      Step s (.send c) { s with
        calls := s.calls.set c { call with waiting := some s.attempts.length }
        attempts := s.attempts ++ [⟨c, call.request, none⟩] }
  | execute (k : ℕ) (attempt : Attempt) (hk : s.attempts[k]? = some attempt)
      (hnone : attempt.reply = none) :
      Step s (.execute k) { s with
        server := (s.server.handle attempt.request).1
        attempts := s.attempts.set k
          { attempt with reply := some (s.server.handle attempt.request).2 } }
  | reply (c : ℕ) (call : Call) (k : ℕ) (attempt : Attempt) (reply : Reply)
      (hc : s.calls[c]? = some call) (hwaiting : call.waiting = some k)
      (hk : s.attempts[k]? = some attempt) (hreply : attempt.reply = some reply) :
      Step s (.reply c) { s with calls := s.calls.set c (call.answered reply) }
  | fail (c : ℕ) (call : Call) (k : ℕ) (hc : s.calls[c]? = some call)
      (hwaiting : call.waiting = some k) :
      Step s (.fail c) { s with calls := s.calls.set c call.retry }

theorem Step.of_step {a : Action} (hs : s.step a = some s') : Step s a s' := by
  cases a with
  | invoke request =>
      cases hs
      exact .invoke request
  | send c =>
      obtain ⟨call, hc, hs⟩ := Option.bind_eq_some_iff.mp hs
      split at hs <;> cases hs
      rename_i hfree
      exact .send c call hc hfree.1 hfree.2
  | execute k =>
      obtain ⟨attempt, hk, hs⟩ := Option.bind_eq_some_iff.mp hs
      split at hs <;> cases hs
      rename_i hnone
      exact .execute k attempt hk hnone
  | reply c =>
      obtain ⟨call, hc, hs⟩ := Option.bind_eq_some_iff.mp hs
      obtain ⟨k, hwaiting, hs⟩ := Option.bind_eq_some_iff.mp hs
      obtain ⟨attempt, hk, hs⟩ := Option.bind_eq_some_iff.mp hs
      obtain ⟨reply, hreply, hs⟩ := Option.bind_eq_some_iff.mp hs
      cases hs
      exact .reply c call k attempt reply hc hwaiting hk hreply
  | fail c =>
      obtain ⟨call, hc, hs⟩ := Option.bind_eq_some_iff.mp hs
      obtain ⟨k, hwaiting, hs⟩ := Option.bind_eq_some_iff.mp hs
      cases hs
      exact .fail c call k hc hwaiting

theorem Call.answered_request (call : Call) (reply : Reply) :
    (call.answered reply).request = call.request := by
  unfold Call.answered
  split <;> split <;> rfl

theorem Step.asks {a : Action} (hs : Step s a s') {request : Request} (h : s.Asks c request) :
    s'.Asks c request := by
  obtain ⟨call, hc, hreq⟩ := h
  have hset : ∀ {d : ℕ} {call₀ call' : Call}, s.calls[d]? = some call₀ →
      call'.request = call₀.request →
      ∃ call, (s.calls.set d call')[c]? = some call ∧ call.request = request := by
    intro d call₀ call' hd hsame
    rcases eq_or_ne d c with rfl | hne
    · obtain rfl := Option.some.inj (hc.symm.trans hd)
      exact ⟨call', Pool.set_self hc, hsame.trans hreq⟩
    · exact ⟨call, (List.getElem?_set_ne hne).trans hc, hreq⟩
  cases hs with
  | invoke request => exact ⟨call, Pool.append hc _, hreq⟩
  | send d call₀ hd hopen hidle => exact hset hd rfl
  | execute k attempt hk hnone => exact ⟨call, hc, hreq⟩
  | reply d call₀ k attempt reply hd hwaiting hk hreply =>
      exact hset hd (call₀.answered_request reply)
  | fail d call₀ k hd hwaiting => exact hset hd rfl

theorem Step.asks_or {a : Action} (hs : Step s a s') {request : Request}
    (h : s'.Asks c request) :
    s.Asks c request ∨ a = .invoke request ∧ c = s.calls.length := by
  obtain ⟨call, hc, rfl⟩ := h
  have hset : ∀ {d : ℕ} {call₀ call' : Call}, s.calls[d]? = some call₀ →
      call'.request = call₀.request → (s.calls.set d call')[c]? = some call →
      s.Asks c call.request := by
    intro d call₀ call' hd hsame hc
    rcases Pool.set_cases hc with ⟨rfl, rfl⟩ | ⟨-, hc⟩
    · exact ⟨call₀, hd, hsame.symm⟩
    · exact ⟨call, hc, rfl⟩
  cases hs with
  | invoke request =>
      rcases Pool.concat_cases hc with hc | ⟨rfl, rfl⟩
      · exact Or.inl ⟨call, hc, rfl⟩
      · exact Or.inr ⟨rfl, rfl⟩
  | send d call₀ hd hopen hidle => exact Or.inl (hset hd (by rfl) hc)
  | execute k attempt hk hnone => exact Or.inl ⟨call, hc, rfl⟩
  | reply d call₀ k attempt reply hd hwaiting hk hreply =>
      exact Or.inl (hset hd (call₀.answered_request reply) hc)
  | fail d call₀ k hd hwaiting => exact Or.inl (hset hd (by rfl) hc)

/-- Only an execution touches the server or adds a reply. -/
theorem Step.replied {a : Action} (hs : Step s a s') :
    s'.server = s.server ∧ (∀ c reply, Replied s'.attempts c reply ↔ Replied s.attempts c reply) ∨
      ∃ (k : ℕ) (attempt : Attempt), a = .execute k ∧ s.attempts[k]? = some attempt ∧
        attempt.reply = none ∧ s'.server = (s.server.handle attempt.request).1 ∧
        s'.calls = s.calls ∧
        ∀ c reply, Replied s'.attempts c reply ↔ Replied s.attempts c reply ∨
          c = attempt.call ∧ reply = (s.server.handle attempt.request).2 := by
  cases hs with
  | send d call hd hopen hidle =>
      refine Or.inl ⟨rfl, fun c reply => ⟨?_, ?_⟩⟩
      · rintro ⟨k, attempt, hk, hcall, hreply⟩
        rcases Pool.concat_cases hk with hk | ⟨-, rfl⟩
        · exact ⟨k, attempt, hk, hcall, hreply⟩
        · cases hreply
      · rintro ⟨k, attempt, hk, hcall, hreply⟩
        exact ⟨k, attempt, Pool.append hk _, hcall, hreply⟩
  | execute k attempt hk hnone =>
      refine Or.inr ⟨k, attempt, rfl, hk, hnone, rfl, rfl, fun c reply => ⟨?_, ?_⟩⟩
      · rintro ⟨k', attempt', hk', hcall, hreply⟩
        rcases Pool.set_cases hk' with ⟨-, rfl⟩ | ⟨-, hk'⟩
        · exact Or.inr ⟨hcall.symm, (Option.some.inj hreply).symm⟩
        · exact Or.inl ⟨k', attempt', hk', hcall, hreply⟩
      · rintro (⟨k', attempt', hk', hcall, hreply⟩ | ⟨rfl, rfl⟩)
        · refine ⟨k', attempt', ?_, hcall, hreply⟩
          have hne : k ≠ k' := by
            rintro rfl
            obtain rfl := Option.some.inj (hk.symm.trans hk')
            rw [hnone] at hreply
            cases hreply
          exact (List.getElem?_set_ne hne).trans hk'
        · exact ⟨k, _, Pool.set_self hk, rfl, rfl⟩
  | _ => exact Or.inl ⟨rfl, fun _ _ => Iff.rfl⟩

theorem ClerkInv.open_of_waiting (h : ClerkInv s) {call : Call} {k : ℕ}
    (hc : s.calls[c]? = some call) (hwaiting : call.waiting = some k) : s.Open c :=
  ⟨call, hc, ((h.call c call hc).waiting k hwaiting).1⟩

theorem ClerkInv.replied_fits (h : ClerkInv s) {request : Request} {reply : Reply}
    (hasks : s.Asks c request) (hreplied : Replied s.attempts c reply) : request.Fits reply := by
  obtain ⟨k, attempt, hk, rfl, hreply⟩ := hreplied
  obtain ⟨hasks', hfits⟩ := h.attempt k attempt hk
  rw [hasks.unique hasks']
  exact hfits reply hreply

theorem ClerkInv.returned_truth (h : ClerkInv s) {result : Reply} (hr : s.Returned c result) :
    Truth s.attempts c result := by
  obtain ⟨call, hc, hresult⟩ := hr
  exact (h.call c call hc).truth result hresult

theorem ClerkInv.open_or (h : ClerkInv s) {a : Action} (hs : Step s a s') (hopen : s'.Open c) :
    s.Open c ∨ ∃ request, a = .invoke request ∧ c = s.calls.length := by
  obtain ⟨call, hc, hnone⟩ := hopen
  have hset : ∀ {d : ℕ} {call' : Call}, s.Open d → (s.calls.set d call')[c]? = some call →
      s.Open c := by
    intro d call' hd hc
    rcases Pool.set_cases hc with ⟨rfl, -⟩ | ⟨-, hc⟩
    · exact hd
    · exact ⟨call, hc, hnone⟩
  cases hs with
  | invoke request =>
      rcases Pool.concat_cases hc with hc | ⟨heq, -⟩
      · exact Or.inl ⟨call, hc, hnone⟩
      · exact Or.inr ⟨request, rfl, heq⟩
  | send d call₀ hd hopen hidle => exact Or.inl (hset ⟨call₀, hd, hopen⟩ hc)
  | execute k attempt hk hnone => exact Or.inl ⟨call, hc, by assumption⟩
  | reply d call₀ k attempt reply hd hwaiting hk hreply =>
      exact Or.inl (hset (h.open_of_waiting hd hwaiting) hc)
  | fail d call₀ k hd hwaiting => exact Or.inl (hset (h.open_of_waiting hd hwaiting) hc)

/-- What the server can say to a request is passed on, but for a version
error after something was sent again. -/
theorem Call.answered_of_fits {call : Call} {reply : Reply} (h : call.request.Fits reply) :
    call.answered reply = call.returned reply ∧
        (reply = .put .errVersion → call.resent = false) ∨
      reply = .put .errVersion ∧ call.answered reply = call.returned (.put .errMaybe) := by
  cases hreq : call.request with
  | get key =>
      rw [hreq] at h
      cases reply with
      | get reply =>
          rcases h with hok | rfl
          · obtain ⟨value, version, err⟩ := reply
            cases hok
            exact Or.inl ⟨rfl, nofun⟩
          · exact Or.inl ⟨rfl, nofun⟩
      | put err => cases h
  | put key value version =>
      rw [hreq] at h
      cases reply with
      | get reply => cases h
      | put err =>
          rcases h with rfl | rfl | rfl
          · exact Or.inl ⟨rfl, nofun⟩
          · exact Or.inl ⟨rfl, nofun⟩
          · cases hresent : call.resent with
            | false => exact Or.inl ⟨by simp [Call.answered, hresent], fun _ => rfl⟩
            | true => exact Or.inr ⟨rfl, by simp [Call.answered, hresent]⟩

theorem ClerkInv.init : ClerkInv System.init where
  versioned := .make
  attempt := by simp [System.init]
  call := by simp [System.init]

theorem ClerkInv.call_lt (h : ClerkInv s) {k : ℕ} {attempt : Attempt}
    (hk : s.attempts[k]? = some attempt) : attempt.call < s.calls.length := by
  obtain ⟨⟨call, hc, -⟩, -⟩ := h.attempt k attempt hk
  exact (List.getElem?_eq_some_iff.mp hc).1

theorem ClerkInv.not_replied (h : ClerkInv s) (reply : Reply) :
    ¬ Replied s.attempts s.calls.length reply := by
  rintro ⟨k, attempt, hk, hcall, -⟩
  exact absurd (h.call_lt hk) (by rw [hcall]; exact lt_irrefl _)

/-- A call is as it was when no attempt of it is added and those executed
stay. -/
theorem CallInv.mono {attempts attempts' : List Attempt} {call : Call}
    (h : CallInv attempts c call)
    (hkept : ∀ (k : ℕ) (attempt : Attempt), attempts[k]? = some attempt →
      ∃ attempt', attempts'[k]? = some attempt' ∧ attempt'.call = attempt.call ∧
        ∀ reply, attempt.reply = some reply → attempt'.reply = some reply)
    (hnew : ∀ (k : ℕ) (attempt' : Attempt), attempts'[k]? = some attempt' →
      attempt'.call = c → ∃ attempt, attempts[k]? = some attempt) :
    CallInv attempts' c call where
  waiting k hk := by
    obtain ⟨hnone, attempt, hattempt, hcall⟩ := h.waiting k hk
    obtain ⟨attempt', hattempt', hcall', -⟩ := hkept k attempt hattempt
    exact ⟨hnone, attempt', hattempt', hcall'.trans hcall⟩
  first hresent hnone k attempt' hk' hcall' := by
    obtain ⟨attempt, hk⟩ := hnew k attempt' hk' hcall'
    obtain ⟨attempt₁, hk₁, hcall₁, -⟩ := hkept k attempt hk
    obtain rfl := Option.some.inj (hk'.symm.trans hk₁)
    exact h.first hresent hnone k attempt hk (hcall₁.symm.trans hcall')
  truth result hresult := by
    obtain ⟨⟨k, attempt, hk, hcall, hreply⟩, hall⟩ := h.truth result hresult
    constructor
    · obtain ⟨attempt', hk', hcall', hreply'⟩ := hkept k attempt hk
      exact ⟨k, attempt', hk', hcall'.trans hcall, hreply' _ hreply⟩
    · intro herr k attempt' hk' hcall'
      obtain ⟨attempt, hk⟩ := hnew k attempt' hk' hcall'
      obtain ⟨attempt₁, hk₁, hcall₁, hreply₁⟩ := hkept k attempt hk
      obtain rfl := Option.some.inj (hk'.symm.trans hk₁)
      exact hreply₁ _ (hall herr k attempt hk (hcall₁.symm.trans hcall'))

theorem CallInv.start (h : ClerkInv s) (request : Request) :
    CallInv s.attempts s.calls.length (.start request) where
  waiting := nofun
  first _ _ k attempt hk hcall := absurd (h.call_lt hk) (by rw [hcall]; exact lt_irrefl _)
  truth := nofun

theorem CallInv.send {call : Call} {attempts : List Attempt} (h : CallInv attempts c call)
    (hopen : call.result = none) (hidle : call.waiting = none) (attempt : Attempt)
    (hattempt : attempt.call = c) :
    CallInv (attempts ++ [attempt]) c { call with waiting := some attempts.length } where
  waiting k hk := by
    obtain rfl : attempts.length = k := Option.some.inj hk
    exact ⟨hopen, attempt, by simp, hattempt⟩
  first hresent hnone k attempt' hk hcall := by
    rcases Pool.concat_cases hk with hk | ⟨rfl, -⟩
    · have hwaiting := h.first hresent hnone k attempt' hk hcall
      rw [hidle] at hwaiting
      cases hwaiting
    · rfl
  truth result hresult := by
    rw [hopen] at hresult
    cases hresult

theorem CallInv.retry {call : Call} {attempts : List Attempt} (h : CallInv attempts c call) :
    CallInv attempts c call.retry where
  waiting := nofun
  first := nofun
  truth := h.truth

theorem CallInv.returned {call : Call} {attempts : List Attempt} {result : Reply}
    (h : Truth attempts c result) : CallInv attempts c (call.returned result) where
  waiting := nofun
  first _ := nofun
  truth result' hresult := by
    obtain rfl : result = result' := Option.some.inj hresult
    exact h

theorem CallInv.answered {call : Call} {attempts : List Attempt} (h : CallInv attempts c call)
    {k : ℕ} {attempt : Attempt} {reply : Reply} (hwaiting : call.waiting = some k)
    (hk : attempts[k]? = some attempt) (hreply : attempt.reply = some reply)
    (hfits : call.request.Fits reply) : CallInv attempts c (call.answered reply) := by
  obtain ⟨hnone, attempt₁, hk₁, hcall⟩ := h.waiting k hwaiting
  obtain rfl := Option.some.inj (hk.symm.trans hk₁)
  rcases Call.answered_of_fits hfits with ⟨heq, hresent⟩ | ⟨rfl, heq⟩
  · rw [heq]
    refine .returned ⟨?_, fun herr k' attempt' hk' hcall' => ?_⟩
    · rw [if_neg hfits.ne_errMaybe]
      exact ⟨k, attempt, hk, hcall, hreply⟩
    · have hsame := h.first (hresent herr) hnone k' attempt' hk' hcall'
      obtain rfl := Option.some.inj (hwaiting.symm.trans hsame)
      obtain rfl := Option.some.inj (hk.symm.trans hk')
      exact hreply
  · rw [heq]
    exact .returned ⟨⟨k, attempt, hk, hcall, hreply⟩, nofun⟩

theorem ClerkInv.step {a : Action} (h : ClerkInv s) (hs : s.step a = some s') : ClerkInv s' := by
  have hstep := Step.of_step hs
  cases hstep with
  | invoke request =>
      exact ⟨h.versioned, fun k attempt hk =>
        ⟨(Step.invoke request).asks (h.attempt k attempt hk).1, (h.attempt k attempt hk).2⟩,
        Pool.forall_concat h.call (.start h request)⟩
  | send d call hd hopen hidle =>
      refine ⟨h.versioned, ?_, fun c call' hc => ?_⟩
      · refine Pool.forall_concat (fun k attempt hk => ?_) ?_
        · exact ⟨(Step.send d call hd hopen hidle).asks (h.attempt k attempt hk).1,
            (h.attempt k attempt hk).2⟩
        · exact ⟨(Step.send d call hd hopen hidle).asks ⟨call, hd, rfl⟩, nofun⟩
      · rcases Pool.set_cases hc with ⟨rfl, rfl⟩ | ⟨hne, hc⟩
        · exact (h.call c call hd).send hopen hidle _ rfl
        · refine (h.call c call' hc).mono (fun k attempt hk =>
            ⟨attempt, Pool.append hk _, rfl, fun _ hreply => hreply⟩) ?_
          intro k attempt hk hcall
          rcases Pool.concat_cases hk with hk | ⟨-, rfl⟩
          · exact ⟨attempt, hk⟩
          · exact absurd hcall.symm hne
  | execute k attempt hk hnone =>
      refine ⟨h.versioned.handle attempt.request, fun k' attempt' hk' => ?_, fun c call hc => ?_⟩
      · rcases Pool.set_cases hk' with ⟨-, rfl⟩ | ⟨-, hk'⟩
        · refine ⟨(h.attempt k attempt hk).1, fun reply hreply => ?_⟩
          obtain rfl := Option.some.inj hreply
          exact KVServer.handle_fits h.versioned attempt.request
        · exact h.attempt k' attempt' hk'
      · refine (h.call c call hc).mono (fun k' attempt' hk' => ?_) ?_
        · rcases eq_or_ne k k' with rfl | hne
          · obtain rfl := Option.some.inj (hk.symm.trans hk')
            refine ⟨_, Pool.set_self hk, rfl, fun reply hreply => ?_⟩
            rw [hnone] at hreply
            cases hreply
          · exact ⟨attempt', (List.getElem?_set_ne hne).trans hk', rfl, fun _ hreply => hreply⟩
        · intro k' attempt' hk' hcall
          rcases Pool.set_cases hk' with ⟨rfl, -⟩ | ⟨-, hk'⟩
          · exact ⟨attempt, hk⟩
          · exact ⟨attempt', hk'⟩
  | reply d call k attempt reply hd hwaiting hk hreply =>
      refine ⟨h.versioned, fun k' attempt' hk' => ?_, fun c call' hc => ?_⟩
      · exact ⟨(Step.reply d call k attempt reply hd hwaiting hk hreply).asks
          (h.attempt k' attempt' hk').1, (h.attempt k' attempt' hk').2⟩
      · rcases Pool.set_cases hc with ⟨rfl, rfl⟩ | ⟨-, hc⟩
        · refine (h.call c call hd).answered hwaiting hk hreply ?_
          obtain ⟨-, attempt₁, hk₁, hcall⟩ := (h.call c call hd).waiting k hwaiting
          obtain rfl := Option.some.inj (hk.symm.trans hk₁)
          exact h.replied_fits ⟨call, hd, rfl⟩ ⟨k, attempt, hk, hcall, hreply⟩
        · exact h.call c call' hc
  | fail d call k hd hwaiting =>
      refine ⟨h.versioned, fun k' attempt' hk' => ?_, fun c call' hc => ?_⟩
      · exact ⟨(Step.fail d call k hd hwaiting).asks (h.attempt k' attempt' hk').1,
          (h.attempt k' attempt' hk').2⟩
      · rcases Pool.set_cases hc with ⟨rfl, rfl⟩ | ⟨-, hc⟩
        · exact (h.call c call hd).retry
        · exact h.call c call' hc

end

end RaftShardedKv.Kvsrv
