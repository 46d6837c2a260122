import RaftShardedKv.Kvsrv.Holders

/-!
Mutual exclusion of the lock objects. Every move of an object is sound
with respect to the invariant: it takes the lock for its own only when
the key names it, it gives the lock back only when the key named it, and
it goes on as somebody without the lock only when the key does not.
-/

namespace RaftShardedKv.Kvsrv

section

variable {Lk : Type} {key : GoString} {id : LockIds Lk} {kv kv' : System} {l : Lk}

/-- Everything is known of a call that has just been made. -/
structure Made (kv kv' : System) (c : ℕ) (request : Request) : Prop where
  server : kv'.server = kv.server
  asks : kv'.Asks c request
  silent : ∀ reply, ¬ Replied kv'.attempts c reply

theorem Made.has {c : ℕ} {request : Request} (h : Made kv kv' c request) (l : Lk) :
    Has key id kv' l ↔ Has key id kv l := by
  unfold Has
  rw [h.server]

theorem Made.reads {c : ℕ} (h : Made kv kv' c (.get key)) (l : Lk) : Reads key id kv' l c :=
  ⟨h.asks, fun _ hr => absurd hr (h.silent _)⟩

variable {s s' : LockSystem Lk}

theorem System.Returned.free {c : ℕ} {result : Reply} (h : s.kv.Returned c result)
    (hpc : (s.locks l).call = some c) : ∀ c', (s.locks l).call = some c' → ¬ s.kv.Open c' := by
  intro c' hc'
  obtain rfl := Option.some.inj (hpc.symm.trans hc')
  exact h.not_open

variable [DecidableEq Lk]

/-- Object `l` makes a call: it waited for none, or for one that has
returned. -/
theorem LockInv.invoke (h : LockInv key id s) {request : Request} {pc : ℕ → LockPc}
    {events : List (Lk × LockEvent)} (hevents : ∀ x ∈ events, x.1 = l)
    (hfree : ∀ c, (s.locks l).call = some c → ¬ s.kv.Open c)
    (hwrites : ∀ value version, request = .put key value version →
      pc s.kv.calls.length = .acquirePut s.kv.calls.length ∧ value = (id l).1 ∧
          Seen s.kv.server key ⟨[], version⟩ ∨
        ∃ before, pc s.kv.calls.length = .releasePut before s.kv.calls.length ∧ value = [] ∧
          Seen s.kv.server key ⟨(id l).1, version⟩)
    (hpc : ∀ kv', Made s.kv kv' s.kv.calls.length request →
      LockPcInv key id kv' l (holds (s.history ++ events) l) (pc s.kv.calls.length)) :
    LockInv key id (s.invoke l request pc events) := by
  have hstep : Step s.kv (.invoke request) (s.invoke l request pc events).kv := .invoke request
  refine h.quiet hstep (h.clerk.step (a := .invoke request) rfl) rfl (fun _ _ => Iff.rfl)
    (fun l' c hc hopen => ?_) (fun value version ha => ?_) fun l' => ?_
  · have hne : l' ≠ l := by
      rintro rfl
      exact hfree c hc hopen
    exact Function.update_of_ne hne _ _
  · refine ⟨l, ?_⟩
    simp only [LockSystem.invoke, Function.update_self]
    exact hwrites value version (Action.invoke.inj ha)
  · rcases eq_or_ne l' l with rfl | hne
    · simp only [LockSystem.invoke, Function.update_self]
      exact hpc _ ⟨rfl, ⟨.start request, by simp, rfl⟩, h.clerk.not_replied⟩
    · simp only [LockSystem.invoke]
      rw [Function.update_of_ne hne, holds_other hevents hne]
      exact (h.pc l').quiet (fun c request hc => hstep.asks hc) rfl fun _ _ => Iff.rfl

theorem LockInv.returns (h : LockInv key id s) {event : LockEvent}
    (hfree : ∀ c, (s.locks l).call = some c → ¬ s.kv.Open c)
    (hpc : Has key id s.kv l ↔ holds (s.history ++ [(l, event)]) l = true) :
    LockInv key id { s with
      locks := Function.update s.locks l .idle, history := s.history ++ [(l, event)] } := by
  refine ⟨h.clerk, h.reads, h.done, fun c value version hc hopen => ?_, fun l' => ?_⟩
  · obtain ⟨l', hl'⟩ := h.writes c value version hc hopen
    have hne : l' ≠ l := by
      rintro rfl
      rcases hl' with ⟨hpc, -⟩ | ⟨before, hpc, -⟩
      · exact hfree c (by rw [hpc]; rfl) hopen
      · exact hfree c (by rw [hpc]; rfl) hopen
    refine ⟨l', ?_⟩
    simpa only [Function.update_of_ne hne] using hl'
  · rcases eq_or_ne l' l with rfl | hne
    · simp only [Function.update_self]
      exact hpc
    · simp only [Function.update_of_ne hne]
      rw [holds_other (by simp) hne]
      exact h.pc l'

/-- What an object may do next. -/
def LockMove.Sound (key : GoString) (id : LockIds Lk) (s : LockSystem Lk) (l : Lk) :
    LockMove → Prop
  | .call request pc =>
      (∀ c value version, request = .put key value version →
        pc c = .acquirePut c ∧ value = (id l).1 ∧ Seen s.kv.server key ⟨[], version⟩ ∨
          ∃ before, pc c = .releasePut before c ∧ value = [] ∧
            Seen s.kv.server key ⟨(id l).1, version⟩) ∧
      ∀ kv' c, Made s.kv kv' c request → LockPcInv key id kv' l (holds s.history l) (pc c)
  | .returns event => Has key id s.kv l ↔ holds (s.history ++ [(l, event)]) l = true

theorem LockInv.read (h : LockInv key id s) {c : ℕ} {reply : GetReply}
    (hreads : Reads key id s.kv l c) (hreturned : s.kv.Returned c (.get reply)) :
    (reply.value = (id l).1 ↔ Has key id s.kv l) ∧
      Seen s.kv.server key ⟨reply.value, reply.version⟩ ∧
      (reply.err = .ok ∨ reply = ⟨[], 0, .errNoKey⟩) := by
  have hreplied : Replied s.kv.attempts c (.get reply) := (h.clerk.returned_truth hreturned).replied
  exact ⟨hreads.2 reply hreplied, h.reads c reply hreads.1 hreplied,
    h.clerk.replied_fits hreads.1 hreplied⟩

theorem LockInv.not_has (h : LockInv key id s) {c : ℕ} {reply : GetReply}
    (hreads : Reads key id s.kv l c) (hreturned : s.kv.Returned c (.get reply))
    (hvalue : reply.value ≠ (id l).1) : ¬ Has key id s.kv l :=
  fun hhas => hvalue ((h.read hreads hreturned).1.mpr hhas)

omit [DecidableEq Lk] in
theorem held_false {held : Bool} (h : Has key id kv l ↔ held = true) (hnot : ¬ Has key id kv l) :
    held = false :=
  Bool.eq_false_iff.mpr fun htrue => hnot (h.mpr htrue)

theorem LockInv.next_acquireGet (h : LockInv key id s) {c : ℕ} (hpc : s.locks l = .acquireGet c)
    {result : Reply} (hreturned : s.kv.Returned c result) {move : LockMove}
    (hnext : Lock.next ⟨key, (id l).1⟩ (s.locks l) result = some move) :
    move.Sound key id s l := by
  have hl := h.pc l
  rw [hpc] at hl hnext
  obtain ⟨hheld, hreads⟩ := hl
  cases result with
  | put err => cases hnext
  | get reply =>
      obtain ⟨-, hseen, hfits⟩ := h.read hreads hreturned
      have hspin : (LockMove.call (.get key) .acquireGet).Sound key id s l :=
        ⟨nofun, fun kv' c' hmade => ⟨(hmade.has l).trans hheld, hmade.reads l⟩⟩
      -- the lock was read as free
      have htry : reply.value = [] →
          (LockMove.call (.put key (id l).1 reply.version) .acquirePut).Sound key id s l := by
        intro hempty
        rw [hempty] at hseen
        have hnot := h.not_has hreads hreturned (by rw [hempty]; exact (id l).2.symm)
        refine ⟨fun c' value version hreq => ?_, fun kv' c' hmade => ?_⟩
        · obtain ⟨-, rfl, rfl⟩ := Request.put.inj hreq
          exact Or.inl ⟨rfl, rfl, hseen⟩
        · exact ⟨held_false hheld hnot, _, hmade.asks,
            iff_of_false ((hmade.has l).not.mpr hnot) (hmade.silent _)⟩
      simp only [Lock.next] at hnext
      rcases hfits with hok | rfl
      · rw [hok] at hnext
        dsimp only at hnext
        split at hnext <;> cases hnext
        · exact hspin
        · rename_i hempty
          exact htry (not_not.mp hempty)
      · cases hnext
        exact htry rfl

theorem LockInv.next_acquirePut (h : LockInv key id s) {c : ℕ} (hpc : s.locks l = .acquirePut c)
    {result : Reply} (hreturned : s.kv.Returned c result) {move : LockMove}
    (hnext : Lock.next ⟨key, (id l).1⟩ (s.locks l) result = some move) :
    move.Sound key id s l := by
  have hl := h.pc l
  rw [hpc] at hl hnext
  obtain ⟨hheld, version, hasks, hok⟩ := hl
  have htruth := h.clerk.returned_truth hreturned
  cases result with
  | get reply => cases hnext
  | put err =>
      by_cases hmaybe : err = .errMaybe
      · subst hmaybe
        cases hnext
        exact ⟨nofun, fun kv' c' hmade => ⟨hheld, hmade.reads l⟩⟩
      · have hreplied := htruth.replied
        rw [if_neg fun heq => hmaybe (Reply.put.inj heq)] at hreplied
        rcases h.clerk.replied_fits hasks hreplied with rfl | rfl | rfl
        · cases hnext
          exact iff_of_true (hok.mpr hreplied) (by simp [holds_concat])
        · exact absurd rfl (h.done c _ version _ hasks hreplied).2
        · cases hnext
          have hnot : ¬ Has key id s.kv l := by
            intro hhas
            obtain ⟨k, attempt, hk, hcall, hreply⟩ := hok.mp hhas
            cases (htruth.all rfl k attempt hk hcall).symm.trans hreply
          refine ⟨nofun, fun kv' c' hmade => ⟨?_, hmade.reads l⟩⟩
          rw [hheld]
          exact iff_of_false ((hmade.has l).not.mpr hnot) (by simp)

theorem LockInv.next_acquireConfirm (h : LockInv key id s) {c : ℕ}
    (hpc : s.locks l = .acquireConfirm c) {result : Reply} (hreturned : s.kv.Returned c result)
    {move : LockMove} (hnext : Lock.next ⟨key, (id l).1⟩ (s.locks l) result = some move) :
    move.Sound key id s l := by
  have hl := h.pc l
  rw [hpc] at hl hnext
  obtain ⟨hheld, hreads⟩ := hl
  cases result with
  | put err => cases hnext
  | get reply =>
      obtain ⟨hvalue, -, hfits⟩ := h.read hreads hreturned
      simp only [Lock.next] at hnext
      split at hnext <;> cases hnext
      · rename_i hmine
        exact iff_of_true (hvalue.mp hmine.2) (by simp [holds_concat])
      · rename_i hother
        have hnot : ¬ Has key id s.kv l := by
          refine h.not_has hreads hreturned fun heq => ?_
          rcases hfits with hok | rfl
          · exact hother ⟨hok, heq⟩
          · exact (id l).2 heq.symm
        refine ⟨fun _ _ _ hreq => (by cases hreq), fun kv' c' hmade => ⟨?_, hmade.reads l⟩⟩
        rw [hheld]
        exact iff_of_false ((hmade.has l).not.mpr hnot) (by simp)

theorem LockInv.next_releaseGet (h : LockInv key id s) {c : ℕ} {before : Bool}
    (hpc : s.locks l = .releaseGet before c) {result : Reply}
    (hreturned : s.kv.Returned c result) {move : LockMove}
    (hnext : Lock.next ⟨key, (id l).1⟩ (s.locks l) result = some move) :
    move.Sound key id s l := by
  have hl := h.pc l
  rw [hpc] at hl hnext
  obtain ⟨hheld, hbefore, hreads⟩ := hl
  have hreturn : ¬ Has key id s.kv l → (LockMove.returns .released).Sound key id s l :=
    fun hnot => iff_of_false hnot (by simp [holds_concat, hheld])
  cases result with
  | put err => cases hnext
  | get reply =>
      obtain ⟨hvalue, hseen, hfits⟩ := h.read hreads hreturned
      simp only [Lock.next] at hnext
      rcases hfits with hok | rfl
      · rw [hok] at hnext
        dsimp only at hnext
        split at hnext <;> cases hnext
        · rename_i hother
          exact hreturn (h.not_has hreads hreturned hother)
        · rename_i hmine
          have hmine := not_not.mp hmine
          refine ⟨fun c' value version hreq => ?_, fun kv' c' hmade => ?_⟩
          · obtain ⟨-, rfl, rfl⟩ := Request.put.inj hreq
            exact Or.inr ⟨before, rfl, rfl, hmine ▸ hseen⟩
          · refine ⟨hheld, ?_, _, hmade.asks, fun hr => absurd hr (hmade.silent _)⟩
            exact Bool.eq_false_imp_eq_true.mp fun hb => absurd (hvalue.mp hmine) (hbefore hb)
      · cases hnext
        exact hreturn (h.not_has hreads hreturned (id l).2.symm)

theorem LockInv.next_releasePut (h : LockInv key id s) {c : ℕ} {before : Bool}
    (hpc : s.locks l = .releasePut before c) {result : Reply}
    (hreturned : s.kv.Returned c result) {move : LockMove}
    (hnext : Lock.next ⟨key, (id l).1⟩ (s.locks l) result = some move) :
    move.Sound key id s l := by
  have hl := h.pc l
  rw [hpc] at hl hnext
  obtain ⟨hheld, hbefore, version, hasks, hok⟩ := hl
  cases result with
  | get reply => cases hnext
  | put err =>
      simp only [Lock.next] at hnext
      split at hnext <;> cases hnext
      · rename_i herr
        subst herr
        have hnot := hok (h.clerk.returned_truth hreturned).replied
        exact iff_of_false hnot (by simp [holds_concat, hheld])
      · refine ⟨fun _ _ _ hreq => (by cases hreq),
          fun kv' c' hmade => ⟨hheld, fun hb => ?_, hmade.reads l⟩⟩
        rw [hbefore] at hb
        cases hb

/-- An object goes on. -/
theorem LockInv.next (h : LockInv key id s) {c : ℕ} (hpc : (s.locks l).call = some c)
    {result : Reply} (hreturned : s.kv.Returned c result) {move : LockMove}
    (hnext : Lock.next ⟨key, (id l).1⟩ (s.locks l) result = some move) :
    move.Sound key id s l := by
  cases hl : s.locks l with
  | idle =>
      rw [hl] at hpc
      cases hpc
  | acquireGet d =>
      rw [hl] at hpc
      cases hpc
      exact h.next_acquireGet hl hreturned hnext
  | acquirePut d =>
      rw [hl] at hpc
      cases hpc
      exact h.next_acquirePut hl hreturned hnext
  | acquireConfirm d =>
      rw [hl] at hpc
      cases hpc
      exact h.next_acquireConfirm hl hreturned hnext
  | releaseGet before d =>
      rw [hl] at hpc
      cases hpc
      exact h.next_releaseGet hl hreturned hnext
  | releasePut before d =>
      rw [hl] at hpc
      cases hpc
      exact h.next_releasePut hl hreturned hnext

theorem LockInv.init : LockInv key id (LockSystem.init Lk) where
  clerk := .init
  reads := by simp [LockSystem.init, System.init, System.Asks]
  done := by simp [LockSystem.init, System.init, System.Asks]
  writes := by simp [LockSystem.init, System.init, System.Asks]
  pc l := iff_of_false (id l).2.symm (by simp [LockSystem.init])

theorem LockInv.step (h : LockInv key id s) {a : LockAction Lk}
    (hs : LockStep key (fun l => (id l).1) s a s') : LockInv key id s' := by
  cases hs with
  | acquire l hidle =>
      have hl := h.pc l
      rw [hidle] at hl
      change Has key id s.kv l ↔ holds s.history l = true at hl
      refine h.invoke (by simp) (by simp [hidle, LockPc.call]) (fun _ _ hreq => nomatch hreq) ?_
      intro kv' hmade
      refine ⟨(hmade.has l).trans ?_, hmade.reads l⟩
      simpa [holds_concat] using hl
  | release l hidle =>
      have hl := h.pc l
      rw [hidle] at hl
      change Has key id s.kv l ↔ holds s.history l = true at hl
      refine h.invoke (by simp) (by simp [hidle, LockPc.call]) (fun _ _ hreq => nomatch hreq) ?_
      intro kv' hmade
      refine ⟨by simp [holds_concat], fun hb => (hmade.has l).not.mpr fun hhas => ?_,
        hmade.reads l⟩
      rw [hl.mp hhas] at hb
      cases hb
  | call l c result request pc hpc hreturned hnext =>
      have hsound := h.next hpc hreturned hnext
      refine h.invoke (by simp) (hreturned.free hpc)
        (fun value version hreq => hsound.1 _ value version hreq) fun kv' hmade => ?_
      rw [List.append_nil]
      exact hsound.2 kv' _ hmade
  | returns l c result event hpc hreturned hnext =>
      exact h.returns (hreturned.free hpc) (h.next hpc hreturned hnext)
  | other request kv' hputs hkv =>
      refine h.kv_step hkv fun value version ha => ?_
      rw [Action.invoke.inj ha] at hputs
      simp [Request.puts] at hputs
  | net a kv' hinvoke hkv => exact h.kv_step hkv fun value version ha => hinvoke _ ha

theorem LockInv.reachable (hs : (lockSys key id).Reachable s) : LockInv key id s :=
  hs.invariant (I := LockInv key id) (fun _ h => by rw [h]; exact .init)
    fun _ _ _ _ h hstep => h.step (.of_step hstep)

/-! ### Mutual exclusion -/

theorem LockInv.has (h : LockInv key id s) (hl : holds s.history l = true) :
    Has key id s.kv l := by
  have hpc := h.pc l
  rw [hl] at hpc
  cases hlock : s.locks l with
  | idle =>
      rw [hlock] at hpc
      exact hpc.mpr rfl
  | acquireGet c =>
      rw [hlock] at hpc
      exact hpc.1.mpr rfl
  | acquirePut c | acquireConfirm c | releaseGet before c | releasePut before c =>
      rw [hlock] at hpc
      cases hpc.1

/-- Between the return of `Acquire` of an object and the next call of its
`Release`, no other object returns from `Acquire`. -/
def Exclusive (history : List (Lk × LockEvent)) : Prop :=
  ∀ past between later l l', history = past ++ (l, .acquired) ::
    (between ++ (l', .acquired) :: later) → l' ≠ l → (l, LockEvent.releasing) ∈ between

theorem holds_of_kept (past between : List (Lk × LockEvent)) {l : Lk}
    (h : (l, LockEvent.releasing) ∉ between) :
    holds (past ++ (l, .acquired) :: between) l = true := by
  induction between using List.reverseRecOn with
  | nil => simp [holds_concat]
  | append_singleton between x ih =>
      have hrest := ih fun hmem => h (List.mem_append_left _ hmem)
      rw [← List.cons_append, ← List.append_assoc, holds_concat, hrest]
      obtain ⟨l', event⟩ := x
      split
      · rename_i heq
        obtain rfl : l' = l := heq
        cases event with
        | releasing => exact absurd (by simp) h
        | _ => rfl
      · rfl

/-- One more event keeps the history exclusive, since no two objects hold
the lock after it. -/
theorem Exclusive.concat {history : List (Lk × LockEvent)} (h : Exclusive history)
    {x : Lk × LockEvent}
    (hone : ∀ l l', holds (history ++ [x]) l = true → holds (history ++ [x]) l' = true → l = l') :
    Exclusive (history ++ [x]) := by
  intro past between later l l' heq hne
  rcases List.eq_nil_or_concat later with rfl | ⟨later', y, rfl⟩
  · by_contra hnot
    have hl : holds (history ++ [x]) l = true := by
      rw [heq]
      refine holds_of_kept past _ ?_
      simpa using hnot
    have hl' : holds (history ++ [x]) l' = true := by
      rw [heq, ← List.cons_append, ← List.append_assoc]
      exact holds_of_kept _ [] (by simp)
    exact hne (hone l' l hl' hl)
  · refine h past between later' l l' ?_ hne
    have hsplit : history ++ [x] =
        (past ++ (l, .acquired) :: (between ++ (l', .acquired) :: later')) ++ [y] := by
      simpa using heq
    exact (List.append_inj' hsplit rfl).1

theorem exclusive_of_reachable (hs : (lockSys key id).Reachable s) : Exclusive s.history := by
  refine hs.invariant (I := fun s => Exclusive s.history) ?_ ?_
  · rintro s rfl past between later l l' heq
    simp [LockSystem.init] at heq
  · intro s a s' hr ih hstep
    rcases (LockStep.of_step hstep).history with heq | ⟨x, heq⟩
    · rwa [heq]
    · have hinv := LockInv.reachable (hr.step hstep)
      rw [heq]
      refine ih.concat fun l l' hl hl' => ?_
      rw [← heq] at hl hl'
      exact id.injective (Subtype.ext ((hinv.has hl).symm.trans (hinv.has hl')))

/-- **The lock is exclusive.** No two objects hold it at a time; a
`Release` by an object that does not hold it writes nothing; and whatever
changes the key belongs to an `Acquire`, or to a `Release` by the holder,
that has not returned. -/
theorem lock_exclusion (hs : (lockSys key id).Reachable s) :
    Exclusive s.history ∧ (∀ l c, s.locks l ≠ .releasePut false c) ∧
    ∀ a s', s.step key (fun l => (id l).1) a = some s' →
      s'.kv.server.data key ≠ s.kv.server.data key →
        ∃ (k : ℕ) (attempt : Attempt) (l : Lk), a = .net (.execute k) ∧
          s.kv.attempts[k]? = some attempt ∧
          (s.locks l = .acquirePut attempt.call ∨ s.locks l = .releasePut true attempt.call) := by
  have h := LockInv.reachable hs
  refine ⟨exclusive_of_reachable hs, fun l c hpc => ?_, fun a s' hstep hchange => ?_⟩
  · have hl := h.pc l
    rw [hpc] at hl
    cases hl.2.1
  · rcases (LockStep.of_step hstep).server with hsame | ⟨k, attempt, rfl, hk, hserver⟩
    · exact absurd (by rw [hsame]) hchange
    · rw [hserver] at hchange
      have hattempt := (h.clerk.attempt k attempt hk).1
      rcases KVServer.handle_cell h.clerk.versioned attempt.request key with
        ⟨hsame, -⟩ | ⟨value, hreq, -, -⟩
      · exact absurd hsame hchange
      · rw [hreq] at hattempt
        have hwrites := (h.version_lt_or hattempt).resolve_left (lt_irrefl _)
        obtain ⟨l, ⟨hpc, -⟩ | ⟨before, hpc, -⟩⟩ := hwrites
        · exact ⟨k, attempt, l, rfl, hk, Or.inl hpc⟩
        · have hl := h.pc l
          rw [hpc] at hl
          obtain rfl : before = true := hl.2.1
          exact ⟨k, attempt, l, rfl, hk, Or.inr hpc⟩

/-- Two objects, named by one byte each. -/
def twoLocks : LockIds (Fin 2) where
  toFun l := ⟨[l.val.toUInt8], by simp⟩
  inj' := by decide

/-- A call is sent, executed as attempt `k` and answered. -/
def answer (c k : ℕ) : List (LockAction (Fin 2)) :=
  [.net (.send c), .net (.execute k), .net (.reply c)]

/-- Object 0 acquires the lock with a write whose first reply is lost, so
that it has to read back; object 1 calls `Release`, which does nothing;
object 0 releases the lock and object 1 acquires it. -/
def handedOn : List (LockAction (Fin 2)) :=
  [.acquire 0] ++ answer 0 0 ++ [.run 0, .net (.send 1), .net (.fail 1), .net (.send 1),
    .net (.execute 1), .net (.execute 2), .net (.reply 1), .run 0] ++ answer 2 3 ++ [.run 0] ++
  [.release 1] ++ answer 3 4 ++ [.run 1] ++
  [.release 0] ++ answer 4 5 ++ [.run 0] ++ answer 5 6 ++ [.run 0] ++
  [.acquire 1] ++ answer 6 7 ++ [.run 1] ++ answer 7 8 ++ [.run 1]

theorem lock_exclusion_handedOn :
    let s := Transition.play (LockSystem.step [] fun l => (twoLocks l).1)
      (LockSystem.init (Fin 2)) handedOn
    s.history = [(0, .acquiring), (0, .acquired), (1, .releasing), (1, .released), (0, .releasing),
      (0, .released), (1, .acquiring), (1, .acquired)] ∧ Exclusive s.history := by
  have hreachable : (lockSys [] twoLocks).Reachable (Transition.play _ _ handedOn) :=
    Transition.reachable_play (LockSystem.init (Fin 2)) _ handedOn
  exact ⟨by decide +kernel, (lock_exclusion hreachable).1⟩

end

end RaftShardedKv.Kvsrv
