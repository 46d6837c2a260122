import RaftShardedKv.Kvsrv.Lock

/-!
Who has the lock: the invariant of the lock objects.

The value of the key is the identity of the object that has the lock, or
empty. An object writes its identity only over a version at which it read
the lock as free, and empties the key only over a version at which it
read its own identity. A version has one value, so the first kind of
write finds the key empty and the second finds it with the identity of
its author; and the writes of a call that has returned are over, since
the version has moved on. So between the two the key stays as it is.
-/

namespace RaftShardedKv.Kvsrv

/-! ### What was read -/

/-- A value and its version that were read once: the version may have
moved on, but then only to a later one. -/
def Seen (kv : KVServer) (key : GoString) (item : Entry) : Prop :=
  item.version ≤ (kv.cell key).version ∧
    (item.version = (kv.cell key).version → item = kv.cell key)

theorem Seen.cell (kv : KVServer) (key : GoString) : Seen kv key (kv.cell key) :=
  ⟨le_rfl, fun _ => rfl⟩

theorem Seen.handle {kv : KVServer} (hv : kv.Versioned) {key : GoString} {item : Entry}
    (h : Seen kv key item) (request : Request) : Seen (kv.handle request).1 key item := by
  rcases KVServer.handle_cell hv request key with ⟨hsame, -⟩ | ⟨value, -, -, hnew⟩
  · unfold Seen
    rwa [KVServer.cell_congr hsame]
  · have hle := h.1
    unfold Seen
    rw [hnew]
    exact ⟨by dsimp only; omega, fun heq => by dsimp only at heq; omega⟩

/-! ### The invariant -/

section

variable {Lk : Type} (key : GoString) (id : LockIds Lk)

/-- The value of the key is the identity of `l`. -/
def Has (kv : System) (l : Lk) : Prop := (kv.server.cell key).value = (id l).1

/-- Call `c` reads the key, and what it has read is how things are for `l`. -/
def Reads (kv : System) (l : Lk) (c : ℕ) : Prop :=
  kv.Asks c (.get key) ∧ ∀ reply, Replied kv.attempts c (.get reply) →
    (reply.value = (id l).1 ↔ Has key id kv l)

/-- What is known of an object at each place. -/
def LockPcInv (kv : System) (l : Lk) (held : Bool) : LockPc → Prop
  | .idle => Has key id kv l ↔ held = true
  | .acquireGet c => (Has key id kv l ↔ held = true) ∧ Reads key id kv l c
  | .acquirePut c => held = false ∧ ∃ version, kv.Asks c (.put key (id l).1 version) ∧
      (Has key id kv l ↔ Replied kv.attempts c (.put .ok))
  | .acquireConfirm c => held = false ∧ Reads key id kv l c
  | .releaseGet before c =>
      held = false ∧ (before = false → ¬ Has key id kv l) ∧ Reads key id kv l c
  | .releasePut before c => held = false ∧ before = true ∧
      ∃ version, kv.Asks c (.put key [] version) ∧
        (Replied kv.attempts c (.put .ok) → ¬ Has key id kv l)

/-- Call `c` is the one that an object waits for, over a version that it
has read: as free to acquire it, with its identity to release it. -/
def Writes (kv : System) (locks : Lk → LockPc) (c : ℕ) (value : GoString) (version : ℕ) : Prop :=
  ∃ l, (locks l = .acquirePut c ∧ value = (id l).1 ∧ Seen kv.server key ⟨[], version⟩) ∨
    ∃ before, locks l = .releasePut before c ∧ value = [] ∧
      Seen kv.server key ⟨(id l).1, version⟩

variable [DecidableEq Lk]

structure LockInv (s : LockSystem Lk) : Prop where
  clerk : ClerkInv s.kv
  reads : ∀ c reply, s.kv.Asks c (.get key) → Replied s.kv.attempts c (.get reply) →
    Seen s.kv.server key ⟨reply.value, reply.version⟩
  -- a write that has been answered is over
  done : ∀ c value version err, s.kv.Asks c (.put key value version) →
    Replied s.kv.attempts c (.put err) →
      version < (s.kv.server.cell key).version ∧ err ≠ .errNoKey
  writes : ∀ c value version, s.kv.Asks c (.put key value version) → s.kv.Open c →
    Writes key id s.kv s.locks c value version
  pc : ∀ l, LockPcInv key id s.kv l (holds s.history l) (s.locks l)

end

section

variable {Lk : Type} {key : GoString} {id : LockIds Lk} {kv kv' : System} {l : Lk}

/-- What is known of an object survives when the value stays its identity
or another's, and its call gets no reply that tells it otherwise. -/
theorem LockPcInv.frame {held : Bool} {pc : LockPc} (h : LockPcInv key id kv l held pc)
    (hasks : ∀ c request, kv.Asks c request → kv'.Asks c request)
    (hvalue : Has key id kv' l ↔ Has key id kv l)
    (hget : ∀ c reply, kv.Asks c (.get key) → Replied kv'.attempts c (.get reply) →
      Replied kv.attempts c (.get reply) ∨ (reply.value = (id l).1 ↔ Has key id kv l))
    (hacquire : ∀ c version, kv.Asks c (.put key (id l).1 version) →
      (Replied kv'.attempts c (.put .ok) ↔ Replied kv.attempts c (.put .ok)))
    (hrelease : ∀ c version, kv.Asks c (.put key [] version) →
      Replied kv'.attempts c (.put .ok) →
        Replied kv.attempts c (.put .ok) ∨ ¬ Has key id kv l) :
    LockPcInv key id kv' l held pc := by
  have hreads : ∀ c, Reads key id kv l c → Reads key id kv' l c := by
    intro c hc
    refine ⟨hasks c _ hc.1, fun reply hreply => ?_⟩
    rw [hvalue]
    rcases hget c reply hc.1 hreply with hold | hnow
    · exact hc.2 reply hold
    · exact hnow
  cases pc with
  | idle => exact hvalue.trans h
  | acquireGet c => exact ⟨hvalue.trans h.1, hreads c h.2⟩
  | acquirePut c =>
      obtain ⟨hheld, version, hc, hok⟩ := h
      refine ⟨hheld, version, hasks c _ hc, ?_⟩
      rw [hvalue, hok, hacquire c version hc]
  | acquireConfirm c => exact ⟨h.1, hreads c h.2⟩
  | releaseGet before c => exact ⟨h.1, fun hb => hvalue.not.mpr (h.2.1 hb), hreads c h.2.2⟩
  | releasePut before c =>
      obtain ⟨hheld, hbefore, version, hc, hok⟩ := h
      refine ⟨hheld, hbefore, version, hasks c _ hc, fun hreply => hvalue.not.mpr ?_⟩
      rcases hrelease c version hc hreply with hold | hnot
      · exact hok hold
      · exact hnot

theorem LockPcInv.quiet {held : Bool} {pc : LockPc} (h : LockPcInv key id kv l held pc)
    (hasks : ∀ c request, kv.Asks c request → kv'.Asks c request)
    (hserver : kv'.server = kv.server)
    (hreplied : ∀ c reply, Replied kv'.attempts c reply ↔ Replied kv.attempts c reply) :
    LockPcInv key id kv' l held pc := by
  refine h.frame hasks ?_ (fun c reply _ hr => Or.inl ((hreplied c _).mp hr))
    (fun c _ _ => hreplied c _) (fun c _ _ hr => Or.inl ((hreplied c _).mp hr))
  unfold Has
  rw [hserver]

theorem Writes.seen {locks : Lk → LockPc} {c : ℕ} {value : GoString} {version : ℕ}
    (h : Writes key id kv locks c value version) :
    version ≤ (kv.server.cell key).version := by
  obtain ⟨l, ⟨-, -, hseen⟩ | ⟨before, -, -, hseen⟩⟩ := h
  · exact hseen.1
  · exact hseen.1

/-- **What a write does**: an object that waits for it acquires the free
lock, or it gives back the lock it has. -/
theorem Writes.effect {locks : Lk → LockPc} {c : ℕ} {value : GoString}
    (h : Writes key id kv locks c value (kv.server.cell key).version) :
    ∃ l, (locks l = .acquirePut c ∧ value = (id l).1 ∧ (kv.server.cell key).value = []) ∨
      ∃ before, locks l = .releasePut before c ∧ value = [] ∧
        (kv.server.cell key).value = (id l).1 := by
  obtain ⟨l, ⟨hpc, hvalue, hseen⟩ | ⟨before, hpc, hvalue, hseen⟩⟩ := h
  · exact ⟨l, Or.inl ⟨hpc, hvalue, (congrArg Entry.value (hseen.2 rfl)).symm⟩⟩
  · exact ⟨l, Or.inr ⟨before, hpc, hvalue, (congrArg Entry.value (hseen.2 rfl)).symm⟩⟩

theorem LockIds.ne {l' : Lk} (h : l ≠ l') : (id l).1 ≠ (id l').1 :=
  fun heq => h (id.injective (Subtype.ext heq))

section execute

variable {attempt : Attempt} (hcalls : kv'.calls = kv.calls)
  (hreplied : ∀ c reply, Replied kv'.attempts c reply ↔ Replied kv.attempts c reply ∨
    c = attempt.call ∧ reply = (kv.server.handle attempt.request).2)
  (hattempt : kv.Asks attempt.call attempt.request)

include hcalls hreplied hattempt

theorem LockPcInv.execute_same {held : Bool} {pc : LockPc} (h : LockPcInv key id kv l held pc)
    (hcell : kv'.server.cell key = kv.server.cell key)
    (hnot : ∀ value version, attempt.request = .put key value version →
      (kv.server.handle attempt.request).2 ≠ .put .ok) :
    LockPcInv key id kv' l held pc := by
  have hput : ∀ c value version, kv.Asks c (.put key value version) →
      Replied kv'.attempts c (.put .ok) → Replied kv.attempts c (.put .ok) := by
    intro c value version hc hr
    rcases (hreplied c _).mp hr with hold | ⟨rfl, hok⟩
    · exact hold
    · exact absurd hok.symm (hnot value version (hattempt.unique hc))
  refine h.frame (fun c request hc => ?_) ?_ (fun c reply hc hr => ?_)
    (fun c version hc => ⟨hput c _ version hc, fun hr => (hreplied c _).mpr (Or.inl hr)⟩)
    (fun c version hc hr => Or.inl (hput c _ version hc hr))
  · unfold System.Asks
    rwa [hcalls]
  · unfold Has
    rw [hcell]
  · rcases (hreplied c _).mp hr with hold | ⟨rfl, hnew⟩
    · exact Or.inl hold
    · rw [hattempt.unique hc] at hnew
      obtain rfl := Reply.get.inj hnew
      right
      unfold Has
      rw [← KVServer.get_cell]

theorem LockPcInv.execute_other {held : Bool} {pc : LockPc} (h : LockPcInv key id kv l held pc)
    {value : GoString} {version : ℕ} (hreq : attempt.request = .put key value version)
    (hvalue : value ≠ (id l).1) (hbefore : ¬ Has key id kv l) (hafter : ¬ Has key id kv' l) :
    LockPcInv key id kv' l held pc := by
  rw [hreq] at hattempt
  refine h.frame (fun c request hc => ?_) (iff_of_false hafter hbefore) (fun c reply hc hr => ?_)
    (fun c version' hc => ⟨fun hr => ?_, fun hr => (hreplied c _).mpr (Or.inl hr)⟩)
    (fun c _ _ _ => Or.inr hbefore)
  · unfold System.Asks
    rwa [hcalls]
  · rcases (hreplied c _).mp hr with hold | ⟨rfl, -⟩
    · exact Or.inl hold
    · cases hattempt.unique hc
  · rcases (hreplied c _).mp hr with hold | ⟨rfl, -⟩
    · exact hold
    · exact absurd (Request.put.inj (hattempt.unique hc)).2.1 hvalue

/-- An execution that changes the key. -/
theorem LockPcInv.execute_change {locks : Lk → LockPc} {held : Bool}
    (h : LockPcInv key id kv l held (locks l)) {value : GoString}
    (hreq : attempt.request = .put key value (kv.server.cell key).version)
    (hok : (kv.server.handle attempt.request).2 = .put .ok)
    (hcell : (kv'.server.cell key).value = value)
    (hwrites : Writes key id kv locks attempt.call value (kv.server.cell key).version) :
    LockPcInv key id kv' l held (locks l) := by
  have hasks : ∀ {c request}, kv.Asks c request → kv'.Asks c request := by
    intro c request hc
    unfold System.Asks
    rwa [hcalls]
  obtain ⟨l₀, ⟨hpc, rfl, hold⟩ | ⟨before, hpc, rfl, hold⟩⟩ := hwrites.effect
  · rcases eq_or_ne l₀ l with rfl | hne
    · rw [hpc] at h ⊢
      obtain ⟨hheld, version, hc, -⟩ := h
      refine ⟨hheld, version, hasks hc, iff_of_true hcell ?_⟩
      exact (hreplied _ _).mpr (Or.inr ⟨rfl, hok.symm⟩)
    · refine h.execute_other hcalls hreplied hattempt hreq (LockIds.ne hne) ?_ ?_
      · unfold Has
        rw [hold]
        exact (id l).2.symm
      · unfold Has
        rw [hcell]
        exact LockIds.ne hne
  · rcases eq_or_ne l₀ l with rfl | hne
    · rw [hpc] at h ⊢
      obtain ⟨hheld, hbefore, version, hc, -⟩ := h
      refine ⟨hheld, hbefore, version, hasks hc, fun _ => ?_⟩
      unfold Has
      rw [hcell]
      exact (id l₀).2.symm
    · refine h.execute_other hcalls hreplied hattempt hreq (id l).2.symm ?_ ?_
      · unfold Has
        rw [hold]
        exact LockIds.ne hne
      · unfold Has
        rw [hcell]
        exact (id l).2.symm

end execute

variable [DecidableEq Lk] {s s' : LockSystem Lk}

/-- A write that is still to be executed belongs to a call that an object
waits for, or it is over. -/
theorem LockInv.version_lt_or (h : LockInv key id s) {c : ℕ} {value : GoString} {version : ℕ}
    (hasks : s.kv.Asks c (.put key value version)) :
    version < (s.kv.server.cell key).version ∨ Writes key id s.kv s.locks c value version := by
  have hwrites := h.writes c value version hasks
  have hcall := hasks
  obtain ⟨call, hc, -⟩ := hcall
  cases hresult : call.result with
  | none => exact Or.inr (hwrites ⟨call, hc, hresult⟩)
  | some result =>
      have hreplied := (h.clerk.returned_truth ⟨call, hc, hresult⟩).replied
      have hfits := h.clerk.replied_fits hasks hreplied
      generalize (if result = .put .errMaybe then Reply.put .errVersion else result) = reply
        at hreplied hfits
      cases reply with
      | get reply => cases hfits
      | put err => exact Or.inl (h.done c value version err hasks hreplied).1

/-- An attempt is executed. -/
theorem LockInv.execute (h : LockInv key id s) {k : ℕ} {attempt : Attempt}
    (hk : s.kv.attempts[k]? = some attempt) (hs : s.kv.step (.execute k) = some kv')
    (hserver : kv'.server = (s.kv.server.handle attempt.request).1)
    (hcalls : kv'.calls = s.kv.calls)
    (hreplied : ∀ c reply, Replied kv'.attempts c reply ↔ Replied s.kv.attempts c reply ∨
      c = attempt.call ∧ reply = (s.kv.server.handle attempt.request).2) :
    LockInv key id { s with kv := kv' } := by
  have hversioned := h.clerk.versioned
  have hattempt := (h.clerk.attempt k attempt hk).1
  have hasks : ∀ {c request}, kv'.Asks c request → s.kv.Asks c request := by
    intro c request hc
    unfold System.Asks at hc
    rwa [hcalls] at hc
  have hseen : ∀ {item}, Seen s.kv.server key item → Seen kv'.server key item := by
    intro item hitem
    rw [hserver]
    exact hitem.handle hversioned attempt.request
  have hcell := KVServer.handle_cell hversioned attempt.request key
  rw [← hserver] at hcell
  refine ⟨h.clerk.step hs, fun c reply hc hr => ?_, fun c value version err hc hr => ?_,
    fun c value version hc hopen => ?_, fun l => ?_⟩
  · rcases (hreplied c _).mp hr with hold | ⟨rfl, hnew⟩
    · exact hseen (h.reads c reply (hasks hc) hold)
    · rw [hattempt.unique (hasks hc)] at hnew
      obtain rfl := Reply.get.inj hnew
      rw [KVServer.get_cell]
      exact hseen (.cell _ _)
  · have hgrow := (hseen (.cell s.kv.server key)).1
    rcases (hreplied c _).mp hr with hold | ⟨rfl, hnew⟩
    · obtain ⟨hlt, herr⟩ := h.done c value version err (hasks hc) hold
      exact ⟨hlt.trans_le hgrow, herr⟩
    · have hreq := hattempt.unique (hasks hc)
      rcases hcell with ⟨hsame, hnot⟩ | ⟨value', hreq', hok, hcell⟩
      · obtain ⟨hne, -, hzero⟩ := hnot value version hreq
        have hlt : version < (s.kv.server.cell key).version := by
          rcases h.version_lt_or (hasks hc) with hlt | hwrites
          · exact hlt
          · exact lt_of_le_of_ne hwrites.seen hne
        refine ⟨hlt.trans_le hgrow, ?_⟩
        rintro rfl
        have := hzero hnew.symm
        omega
      · obtain ⟨-, -, rfl⟩ := Request.put.inj (hreq.symm.trans hreq')
        rw [hok] at hnew
        obtain rfl := Reply.put.inj hnew
        refine ⟨?_, nofun⟩
        show _ < (kv'.server.cell key).version
        rw [hcell]
        exact Nat.lt_succ_self _
  · have hopen' : s.kv.Open c := by
      unfold System.Open at hopen ⊢
      rwa [hcalls] at hopen
    obtain ⟨l, hl⟩ := h.writes c value version (hasks hc) hopen'
    refine ⟨l, hl.imp (fun hl => ⟨hl.1, hl.2.1, hseen hl.2.2⟩) ?_⟩
    rintro ⟨before, hpc, hvalue, hl⟩
    exact ⟨before, hpc, hvalue, hseen hl⟩
  · rcases hcell with ⟨hsame, hnot⟩ | ⟨value, hreq, hok, hcell⟩
    · exact (h.pc l).execute_same hcalls hreplied hattempt (KVServer.cell_congr hsame)
        fun value version hreq => (hnot value version hreq).2.1
    · refine (h.pc l).execute_change hcalls hreplied hattempt hreq hok (by rw [hcell]) ?_
      have hput := hattempt
      rw [hreq] at hput
      exact (h.version_lt_or hput).resolve_left (lt_irrefl _)

/-- The server and the replies stay as they are, and if an object moves, it
does not leave a call that is open. -/
theorem LockInv.quiet (h : LockInv key id s) {a : Action} (hs : Step s.kv a s'.kv)
    (hclerk : ClerkInv s'.kv) (hserver : s'.kv.server = s.kv.server)
    (hreplied : ∀ c reply, Replied s'.kv.attempts c reply ↔ Replied s.kv.attempts c reply)
    (hlocks : ∀ l c, (s.locks l).call = some c → s.kv.Open c → s'.locks l = s.locks l)
    (hnew : ∀ value version, a = .invoke (.put key value version) →
      Writes key id s'.kv s'.locks s.kv.calls.length value version)
    (hpc : ∀ l, LockPcInv key id s'.kv l (holds s'.history l) (s'.locks l)) :
    LockInv key id s' := by
  refine ⟨hclerk, fun c reply hc hr => ?_, fun c value version err hc hr => ?_,
    fun c value version hc hopen => ?_, hpc⟩
  · rw [hreplied] at hr
    rw [hserver]
    rcases hs.asks_or hc with hc | ⟨-, rfl⟩
    · exact h.reads c reply hc hr
    · exact absurd hr (h.clerk.not_replied _)
  · rw [hreplied] at hr
    rw [hserver]
    rcases hs.asks_or hc with hc | ⟨-, rfl⟩
    · exact h.done c value version err hc hr
    · exact absurd hr (h.clerk.not_replied _)
  · rcases hs.asks_or hc with hc | ⟨ha, rfl⟩
    · rcases h.clerk.open_or hs hopen with hopen | ⟨request, -, rfl⟩
      · obtain ⟨l, hl⟩ := h.writes c value version hc hopen
        refine ⟨l, ?_⟩
        rw [hserver]
        rcases hl with ⟨hpc, hrest⟩ | ⟨before, hpc, hrest⟩
        · rw [hlocks l c (by rw [hpc]; rfl) hopen]
          exact Or.inl ⟨hpc, hrest⟩
        · rw [hlocks l c (by rw [hpc]; rfl) hopen]
          exact Or.inr ⟨before, hpc, hrest⟩
      · obtain ⟨call, hcall, -⟩ := hc
        exact absurd (List.getElem?_eq_some_iff.mp hcall).1 (lt_irrefl _)
    · exact hnew value version ha

theorem LockInv.kv_step (h : LockInv key id s) {a : Action} (hs : s.kv.step a = some kv')
    (hother : ∀ value version, a ≠ .invoke (.put key value version)) :
    LockInv key id { s with kv := kv' } := by
  have hstep := Step.of_step hs
  rcases hstep.replied with ⟨hserver, hreplied⟩ |
    ⟨k, attempt, rfl, hk, -, hserver, hcalls, hreplied⟩
  · refine h.quiet hstep (h.clerk.step hs) hserver hreplied (fun _ _ _ _ => rfl)
      (fun value version ha => absurd ha (hother value version)) fun l => ?_
    exact (h.pc l).quiet (fun c request hc => hstep.asks hc) hserver hreplied
  · exact h.execute hk hs hserver hcalls hreplied

end

end RaftShardedKv.Kvsrv
