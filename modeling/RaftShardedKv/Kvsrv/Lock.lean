import RaftShardedKv.Kvsrv.Clerk

/-!
The lock of `kvsrv1/lock/lock.go`, any number of objects on one name.

An object is a loop around calls of a clerk. It is at the place where it
waits for one of them, and goes on when that has returned. Everybody else
may use the server as well, but for the key of the lock.
-/

namespace RaftShardedKv.Kvsrv

/-! ### The program -/

/-- Where an object is: it waits for a call of its clerk. `held` says that
it had the lock when it called `Release`; nothing depends on it. -/
inductive LockPc
  | idle
  | acquireGet (c : ℕ)
  | acquirePut (c : ℕ)
  /-- The read that follows on `ErrMaybe`. -/
  | acquireConfirm (c : ℕ)
  | releaseGet (held : Bool) (c : ℕ)
  | releasePut (held : Bool) (c : ℕ)
  deriving DecidableEq, Repr

/-- The call it waits for. -/
def LockPc.call : LockPc → Option ℕ
  | .idle => none
  | .acquireGet c | .acquirePut c | .acquireConfirm c | .releaseGet _ c | .releasePut _ c => some c

inductive LockEvent
  | acquiring
  | acquired
  | releasing
  | released
  deriving DecidableEq, Repr

/-- What an object does next: it calls its clerk, or it returns. -/
inductive LockMove
  | call (request : Request) (pc : ℕ → LockPc)
  | returns (event : LockEvent)

structure Lock where
  key : GoString
  id : GoString
  deriving DecidableEq, Repr

/-- The loops of `Acquire` and `Release`, after a call has returned. -/
def Lock.next (lk : Lock) : LockPc → Reply → Option LockMove
  | .acquireGet _, .get reply =>
      match reply.err with
      | .errNoKey => some (.call (.put lk.key lk.id 0) .acquirePut)
      | .ok =>
          if reply.value ≠ [] then some (.call (.get lk.key) .acquireGet)
          else some (.call (.put lk.key lk.id reply.version) .acquirePut)
      | _ => some (.call (.get lk.key) .acquireGet)
  | .acquirePut _, .put err =>
      match err with
      | .ok => some (.returns .acquired)
      | .errMaybe => some (.call (.get lk.key) .acquireConfirm)
      | _ => some (.call (.get lk.key) .acquireGet)
  | .acquireConfirm _, .get reply =>
      if reply.err = .ok ∧ reply.value = lk.id then some (.returns .acquired)
      else some (.call (.get lk.key) .acquireGet)
  | .releaseGet held _, .get reply =>
      match reply.err with
      | .errNoKey => some (.returns .released)
      | .ok =>
          if reply.value ≠ lk.id then some (.returns .released)
          else some (.call (.put lk.key [] reply.version) (.releasePut held))
      | _ => some (.call (.get lk.key) (.releaseGet held))
  | .releasePut held _, .put err =>
      if err = .ok then some (.returns .released)
      else some (.call (.get lk.key) (.releaseGet held))
  | _, _ => none

/-! ### The system -/

/-- The object has returned from `Acquire` and not called `Release` since. -/
def holds {Lk : Type} [DecidableEq Lk] (history : List (Lk × LockEvent)) (l : Lk) : Bool :=
  history.foldl (fun held x => if x.1 = l then
    match x.2 with
    | .acquired => true
    | .releasing => false
    | _ => held
  else held) false

structure LockSystem (Lk : Type) where
  kv : System
  locks : Lk → LockPc
  history : List (Lk × LockEvent)

inductive LockAction (Lk : Type)
  | acquire (l : Lk)
  | release (l : Lk)
  /-- Object `l` goes on with the result of the call it waits for. -/
  | run (l : Lk)
  /-- Somebody else calls a clerk. -/
  | other (request : Request)
  | net (a : Action)

/-- A write to this key. -/
def Request.puts (key : GoString) : Request → Bool
  | .put key' _ _ => key' = key
  | .get _ => false

namespace LockSystem

variable {Lk : Type} [DecidableEq Lk]

def init (Lk : Type) : LockSystem Lk := ⟨.init, fun _ => .idle, []⟩

def invoke (s : LockSystem Lk) (l : Lk) (request : Request) (pc : ℕ → LockPc)
    (events : List (Lk × LockEvent)) : LockSystem Lk where
  kv := { s.kv with calls := s.kv.calls ++ [.start request] }
  locks := Function.update s.locks l (pc s.kv.calls.length)
  history := s.history ++ events

def step (key : GoString) (id : Lk → GoString) (s : LockSystem Lk) :
    LockAction Lk → Option (LockSystem Lk)
  | .acquire l =>
      match s.locks l with
      | .idle => some (s.invoke l (.get key) .acquireGet [(l, .acquiring)])
      | _ => none
  | .release l =>
      match s.locks l with
      | .idle =>
          some (s.invoke l (.get key) (.releaseGet (holds s.history l)) [(l, .releasing)])
      | _ => none
  | .run l => do
      let call ← s.kv.calls[← (s.locks l).call]?
      match ← Lock.next ⟨key, id l⟩ (s.locks l) (← call.result) with
      | .call request pc => some (s.invoke l request pc [])
      | .returns event => some { s with
          locks := Function.update s.locks l .idle
          history := s.history ++ [(l, event)] }
  | .other request =>
      if request.puts key then none
      else do
        let kv ← s.kv.step (.invoke request)
        some { s with kv := kv }
  | .net a =>
      match a with
      | .invoke _ => none
      | a => do
          let kv ← s.kv.step a
          some { s with kv := kv }

end LockSystem

/-- The identities of lock objects: different ones, and none empty. -/
abbrev LockIds (Lk : Type) := Lk ↪ {id : GoString // id ≠ []}

/-- The runs of the objects on the lock `key`. -/
abbrev lockSys {Lk : Type} [DecidableEq Lk] (key : GoString) (id : LockIds Lk) :
    Transition.Sys (LockSystem Lk) (LockAction Lk) :=
  Transition.Sys.ofStep (LockSystem.init Lk) (LockSystem.step key fun l => (id l).1)

/-! ### Steps -/

section

variable {Lk : Type} [DecidableEq Lk] {key : GoString} {id : Lk → GoString}
  {s s' : LockSystem Lk}

/-- What a step can do. -/
inductive LockStep (key : GoString) (id : Lk → GoString) (s : LockSystem Lk) :
    LockAction Lk → LockSystem Lk → Prop
  | acquire (l : Lk) (hidle : s.locks l = .idle) :
      LockStep key id s (.acquire l) (s.invoke l (.get key) .acquireGet [(l, .acquiring)])
  | release (l : Lk) (hidle : s.locks l = .idle) :
      LockStep key id s (.release l)
        (s.invoke l (.get key) (.releaseGet (holds s.history l)) [(l, .releasing)])
  | call (l : Lk) (c : ℕ) (result : Reply) (request : Request) (pc : ℕ → LockPc)
      (hpc : (s.locks l).call = some c) (hreturned : s.kv.Returned c result)
      (hnext : Lock.next ⟨key, id l⟩ (s.locks l) result = some (.call request pc)) :
      LockStep key id s (.run l) (s.invoke l request pc [])
  | returns (l : Lk) (c : ℕ) (result : Reply) (event : LockEvent)
      (hpc : (s.locks l).call = some c) (hreturned : s.kv.Returned c result)
      (hnext : Lock.next ⟨key, id l⟩ (s.locks l) result = some (.returns event)) :
      LockStep key id s (.run l) { s with
        locks := Function.update s.locks l .idle
        history := s.history ++ [(l, event)] }
  | other (request : Request) (kv : System) (hputs : request.puts key = false)
      (hkv : s.kv.step (.invoke request) = some kv) :
      LockStep key id s (.other request) { s with kv := kv }
  | net (a : Action) (kv : System) (hinvoke : ∀ request, a ≠ .invoke request)
      (hkv : s.kv.step a = some kv) : LockStep key id s (.net a) { s with kv := kv }

theorem LockStep.of_step {a : LockAction Lk} (hs : s.step key id a = some s') :
    LockStep key id s a s' := by
  cases a with
  | acquire l =>
      simp only [LockSystem.step] at hs
      split at hs <;> cases hs
      rename_i hidle
      exact .acquire l hidle
  | release l =>
      simp only [LockSystem.step] at hs
      split at hs <;> cases hs
      rename_i hidle
      exact .release l hidle
  | run l =>
      obtain ⟨c, hpc, hs⟩ := Option.bind_eq_some_iff.mp hs
      obtain ⟨call, hc, hs⟩ := Option.bind_eq_some_iff.mp hs
      obtain ⟨result, hresult, hs⟩ := Option.bind_eq_some_iff.mp hs
      obtain ⟨move, hnext, hs⟩ := Option.bind_eq_some_iff.mp hs
      cases move with
      | call request pc =>
          cases hs
          exact .call l c result request pc hpc ⟨call, hc, hresult⟩ hnext
      | returns event =>
          cases hs
          exact .returns l c result event hpc ⟨call, hc, hresult⟩ hnext
  | other request =>
      simp only [LockSystem.step] at hs
      split at hs
      · cases hs
      · rename_i hputs
        obtain ⟨kv, hkv, hs⟩ := Option.bind_eq_some_iff.mp hs
        cases hs
        exact .other request kv (Bool.eq_false_iff.mpr hputs) hkv
  | net a =>
      simp only [LockSystem.step] at hs
      split at hs
      · cases hs
      · rename_i hinvoke
        obtain ⟨kv, hkv, hs⟩ := Option.bind_eq_some_iff.mp hs
        cases hs
        exact .net a kv hinvoke hkv

theorem LockStep.history {a : LockAction Lk} (hs : LockStep key id s a s') :
    s'.history = s.history ∨ ∃ x, s'.history = s.history ++ [x] := by
  cases hs with
  | acquire l hidle | release l hidle => exact Or.inr ⟨_, rfl⟩
  | call l c result request pc hpc hreturned hnext => exact Or.inl (List.append_nil _)
  | returns l c result event hpc hreturned hnext => exact Or.inr ⟨_, rfl⟩
  | other request kv hputs hkv | net a kv hinvoke hkv => exact Or.inl rfl

theorem LockStep.server {a : LockAction Lk} (hs : LockStep key id s a s') :
    s'.kv.server = s.kv.server ∨ ∃ (k : ℕ) (attempt : Attempt), a = .net (.execute k) ∧
      s.kv.attempts[k]? = some attempt ∧
      s'.kv.server = (s.kv.server.handle attempt.request).1 := by
  cases hs with
  | net a kv hinvoke hkv =>
      rcases (Step.of_step hkv).replied with ⟨hserver, -⟩ | ⟨k, attempt, rfl, hk, -, hserver, -⟩
      · exact Or.inl hserver
      · exact Or.inr ⟨k, attempt, rfl, hk, hserver⟩
  | other request kv hputs hkv =>
      cases hkv
      exact Or.inl rfl
  | _ => exact Or.inl rfl

@[simp] theorem holds_nil (l : Lk) : holds [] l = false := rfl

theorem holds_concat (history : List (Lk × LockEvent)) (x : Lk × LockEvent) (l : Lk) :
    holds (history ++ [x]) l = if x.1 = l then
      match x.2 with
      | .acquired => true
      | .releasing => false
      | _ => holds history l
    else holds history l := by
  simp [holds]

theorem holds_other {history events : List (Lk × LockEvent)} {l l' : Lk}
    (hevents : ∀ x ∈ events, x.1 = l) (hne : l' ≠ l) :
    holds (history ++ events) l' = holds history l' := by
  induction events using List.reverseRecOn with
  | nil => rw [List.append_nil]
  | append_singleton events x ih =>
      rw [← List.append_assoc, holds_concat, if_neg, ih]
      · exact fun y hy => hevents y (List.mem_append_left _ hy)
      · rw [hevents x (by simp)]
        exact hne.symm

end

end RaftShardedKv.Kvsrv
