import RaftShardedKv.Kv.Runs
import RaftShardedKv.Rsm.Linearizable

/-!
The state machine of the replicated key/value service, from
`kvraft1/server.go`.

The map of values and the reply maps of the sessions are never `nil` in a
server, which the type of its state says; `Do` cannot panic then, and
`DoOp` is a total function. Encoding is left open: what a snapshot needs
is that a decoder gives back what an encoder wrote, value after value.
-/

namespace RaftShardedKv.Kvraft

open Dedup

structure ValueEntry where
  value : GoString
  version : Tversion
  deriving DecidableEq, Repr

inductive Request
  | get (args : GetArgs)
  | put (args : PutArgs)
  deriving DecidableEq, Repr

inductive Reply
  | get (reply : GetReply)
  | put (reply : PutReply)
  deriving DecidableEq, Repr

abbrev Values := GoMap GoString ValueEntry

structure KVServer where
  values : Values
  requests : Table
  values_made : values ≠ .nil
  requests_made : requests.Made

/-- `none` is the assignment to a map that is `nil`. -/
def putLocked (args : PutArgs) (values : Values) : Option (Values × PutReply) :=
  match values.get args.key with
  | none =>
      if args.version ≠ 0 then some (values, ⟨.errNoKey⟩)
      else do
        let values ← values.set args.key ⟨args.value, 1⟩
        some (values, ⟨.ok⟩)
  | some entry =>
      if entry.version ≠ args.version then some (values, ⟨.errVersion⟩)
      else do
        let values ← values.set args.key ⟨args.value, entry.version + 1⟩
        some (values, ⟨.ok⟩)

/-- The version of a key, zero if it is absent. -/
def versionOf (values : Values) (key : GoString) : Tversion :=
  ((values.get key).map ValueEntry.version).getD 0

section putLocked

variable {args : PutArgs} {values values' : Values} {reply : PutReply}

theorem exists_putLocked (args : PutArgs) (h : values ≠ .nil) :
    ∃ out, putLocked args values = some out := by
  unfold putLocked
  split
  · split
    · exact ⟨_, rfl⟩
    · obtain ⟨values', hset⟩ := GoMap.exists_set h args.key ⟨args.value, 1⟩
      exact ⟨_, by rw [hset]; rfl⟩
  · rename_i entry _
    split
    · exact ⟨_, rfl⟩
    · obtain ⟨values', hset⟩ := GoMap.exists_set h args.key ⟨args.value, entry.version + 1⟩
      exact ⟨_, by rw [hset]; rfl⟩

theorem putLocked_ne_nil (h : putLocked args values = some (values', reply)) (hv : values ≠ .nil) :
    values' ≠ .nil := by
  unfold putLocked at h
  split at h
  · split at h
    · cases h
      exact hv
    · obtain ⟨_, hset, h⟩ := Option.bind_eq_some_iff.mp h
      cases h
      exact GoMap.set_ne_nil hset
  · split at h
    · cases h
      exact hv
    · obtain ⟨_, hset, h⟩ := Option.bind_eq_some_iff.mp h
      cases h
      exact GoMap.set_ne_nil hset

theorem versionOf_set {key key' : GoString} {entry : ValueEntry}
    (h : values.set key entry = some values') :
    versionOf values' key' = if key' = key then entry.version else versionOf values key' := by
  unfold versionOf
  rw [GoMap.get_set h]
  split <;> rfl

/-- A run returns `OK` and counts the version of its key up, or returns
why it did not and changes nothing. -/
theorem putLocked_cases (h : putLocked args values = some (values', reply)) :
    reply = ⟨.ok⟩ ∧ (∀ key, versionOf values' key =
        versionOf values key + if key = args.key then 1 else 0) ∨
      (reply = ⟨.errNoKey⟩ ∨ reply = ⟨.errVersion⟩) ∧ values' = values := by
  unfold putLocked at h
  split at h
  · rename_i hnone
    split at h
    · cases h
      exact Or.inr ⟨Or.inl rfl, rfl⟩
    · obtain ⟨_, hset, h⟩ := Option.bind_eq_some_iff.mp h
      cases h
      refine Or.inl ⟨rfl, fun key => ?_⟩
      rw [versionOf_set hset]
      split
      · rename_i heq
        rw [heq]
        simp [versionOf, hnone]
      · simp
  · rename_i entry hsome
    split at h
    · cases h
      exact Or.inr ⟨Or.inr rfl, rfl⟩
    · obtain ⟨_, hset, h⟩ := Option.bind_eq_some_iff.mp h
      cases h
      refine Or.inl ⟨rfl, fun key => ?_⟩
      rw [versionOf_set hset]
      split
      · rename_i heq
        rw [heq]
        simp [versionOf, hsome]
      · simp

end putLocked

namespace KVServer

/-- What `StartKVServer` sets up. -/
def start : KVServer := ⟨.make, .empty, by simp [GoMap.make], .empty⟩

def get (kv : KVServer) (args : GetArgs) : GetReply :=
  match kv.values.get args.key with
  | none => ⟨[], 0, .errNoKey⟩
  | some entry => ⟨entry.value, entry.version, .ok⟩

theorem exists_doPut (kv : KVServer) (args : PutArgs) :
    ∃ out, kv.requests.doPut args (putLocked args) kv.values = some out :=
  kv.requests_made.exists_doPut (exists_putLocked args kv.values_made)

theorem isSome_doPut (kv : KVServer) (args : PutArgs) :
    (kv.requests.doPut args (putLocked args) kv.values).isSome :=
  Option.isSome_iff_exists.mpr (kv.exists_doPut args)

theorem made_doPut (kv : KVServer) {args : PutArgs} {requests : Table} {values : Values}
    {reply : PutReply}
    (h : kv.requests.doPut args (putLocked args) kv.values = some (requests, values, reply)) :
    values ≠ .nil ∧ requests.Made := by
  have hdone := Table.done_of_doPut h
  refine ⟨?_, kv.requests_made.done hdone⟩
  rcases hdone.state with rfl | ⟨reply', happly⟩
  · exact kv.values_made
  · exact putLocked_ne_nil happly kv.values_made

def put (kv : KVServer) (args : PutArgs) : KVServer × PutReply :=
  let out := (kv.requests.doPut args (putLocked args) kv.values).get (kv.isSome_doPut args)
  have h := kv.made_doPut (Option.some_get (kv.isSome_doPut args)).symm
  (⟨out.2.1, out.1, h.1, h.2⟩, out.2.2)

def doOp (kv : KVServer) : Request → KVServer × Reply
  | .get args => (kv, .get (kv.get args))
  | .put args =>
      let (kv, reply) := kv.put args
      (kv, .put reply)

theorem doPut_eq (kv : KVServer) (args : PutArgs) :
    kv.requests.doPut args (putLocked args) kv.values =
      some ((kv.put args).1.requests, (kv.put args).1.values, (kv.put args).2) :=
  (Option.some_get (kv.isSome_doPut args)).symm

/-- The runs of `putLocked` in `DoOp` for request `q` of client `c`, with
what they return. -/
def runsFor (kv : KVServer) (c q : ℕ) : Request → List PutReply
  | .get _ => []
  | .put args => kv.requests.runsFor args (putLocked args) kv.values c q

end KVServer

/-! ### Snapshots -/

/-- How values and tables are written and read, one after the other. -/
class Gob where
  encodeValues : Values → Bytes
  decodeValues : Bytes → Option (Values × Bytes)
  encodeTable : Table → Bytes
  decodeTable : Bytes → Option (Table × Bytes)
  decode_values : ∀ values rest, values ≠ .nil →
    decodeValues (encodeValues values ++ rest) = some (values, rest)
  decode_table : ∀ t rest, decodeTable (encodeTable t ++ rest) = some (t, rest)
  encodeValues_ne : ∀ values, encodeValues values ≠ []
  encodeTable_ne : ∀ t, encodeTable t ≠ []

namespace KVServer

variable [Gob]

def snapshot (kv : KVServer) : Bytes := Gob.encodeValues kv.values ++ Gob.encodeTable kv.requests

/-- What `Restore` reads; an old snapshot ends after the values. `none` is
a panic: of the decoder, or of the first `Put` of a session that has come
without its reply map. -/
def decode (data : Bytes) : Option KVServer := do
  let (values, rest) ← Gob.decodeValues data
  let requests ← if rest = [] then some .empty else (Gob.decodeTable rest).map Prod.fst
  if h : requests.Made then some ⟨values.orMake, requests, values.orMake_ne_nil, h⟩ else none

/-- `Restore`. A server that panics does not go on, so the state it would
have does not matter. -/
def restore (kv : KVServer) (data : Bytes) : KVServer :=
  if data = [] then kv else (decode data).getD kv

theorem decode_snapshot (kv : KVServer) : decode kv.snapshot = some kv := by
  unfold decode snapshot
  simp only [Gob.decode_values _ _ kv.values_made, Option.bind_eq_bind, Option.bind_some,
    if_neg (Gob.encodeTable_ne kv.requests)]
  have htable : Gob.decodeTable (Gob.encodeTable kv.requests) = some (kv.requests, []) := by
    have h := Gob.decode_table kv.requests []
    rwa [List.append_nil] at h
  simp [htable, kv.requests_made, GoMap.orMake_of_ne_nil _ kv.values_made]

end KVServer

/-- The state machine that `MakeRSM` is given. -/
def machine [Gob] : StateMachine KVServer Request Reply where
  initial := .start
  doOp := KVServer.doOp
  snapshot := KVServer.snapshot
  restore := KVServer.restore

theorem machine_lawful [Gob] : machine.Lawful where
  restore_snapshot st st' := by
    show st'.restore st.snapshot = st
    unfold KVServer.restore
    rw [if_neg (by simp [KVServer.snapshot, Gob.encodeValues_ne]), st.decode_snapshot]
    rfl
  snapshot_ne st := by simp [machine, KVServer.snapshot, Gob.encodeValues_ne]

/-! ### That there are encodings

Everything that is written is one of countably many things, and a number
can be written in unary. -/

section encodings

instance countable_uint8 : Countable UInt8 :=
  Function.Injective.countable (f := UInt8.toNat) fun _ _ h => UInt8.toNat_inj.mp h

instance countable_uint64 : Countable UInt64 :=
  Function.Injective.countable (f := UInt64.toNat) fun _ _ h => UInt64.toNat_inj.mp h

instance {K V : Type} [Countable K] [Countable V] : Countable (GoMap K V) := by
  let entries : GoMap K V → Option (Multiset (Sigma fun _ : K => V))
    | .nil => none
    | .table entries => some entries.entries
  refine Function.Injective.countable (f := entries) fun m m' h => ?_
  cases m with
  | nil => cases m' with
    | nil => rfl
    | table entries => cases h
  | table entries => cases m' with
    | nil => cases h
    | table entries' => rw [Finmap.ext (Option.some.inj h)]

instance : Countable ValueEntry :=
  Function.Injective.countable (f := fun e : ValueEntry => (e.value, e.version))
    fun e e' h => by cases e; cases e'; cases h; rfl

instance : Countable Err :=
  Function.Injective.countable (f := Err.ctorIdx) fun e e' h => by
    cases e <;> cases e' <;> first | rfl | cases h

instance : Countable PutReply :=
  Function.Injective.countable (f := PutReply.err) fun r r' h => by cases r; cases r'; cases h; rfl

instance : Countable Session :=
  Function.Injective.countable (f := fun s : Session => (s.ack, s.replies))
    fun s s' h => by cases s; cases s'; cases h; rfl

instance : Countable Table :=
  Function.Injective.countable (f := Table.sessions) fun t t' h => by
    cases t
    cases t'
    cases h
    rfl

instance : Countable Request := by
  let code : Request → GoString ⊕ (GoString × GoString × Tversion × ℕ × ℕ × ℕ)
    | .get args => .inl args.key
    | .put args => .inr (args.key, args.value, args.version, args.clientID, args.sequence, args.ack)
  refine Function.Injective.countable (f := code) fun r r' h => ?_
  rcases r with ⟨⟨⟩⟩ | ⟨⟨⟩⟩ <;> rcases r' with ⟨⟨⟩⟩ | ⟨⟨⟩⟩ <;> cases h <;> rfl

instance {n : ℕ} : Countable (Op n Request) :=
  Function.Injective.countable
    (f := fun op : Op n Request => (op.server, op.epoch, op.sequence, op.req))
    fun op op' h => by cases op; cases op'; cases h; rfl

instance {n : ℕ} : Countable (LogEntry (Op n Request)) :=
  Function.Injective.countable (f := fun e : LogEntry (Op n Request) => (e.term, e.command))
    fun e e' h => by cases e; cases e'; cases h; rfl

variable {α : Type} [Countable α]

noncomputable def encodeCountable (a : α) : Bytes := unary ((exists_injective_nat α).choose a)

noncomputable def decodeCountable (data : Bytes) : Option (α × Bytes) := do
  let (k, rest) ← readUnary data
  let a ← Function.partialInv (exists_injective_nat α).choose k
  some (a, rest)

theorem decode_encodeCountable (a : α) (rest : Bytes) :
    decodeCountable (encodeCountable a ++ rest) = some (a, rest) := by
  simp [decodeCountable, encodeCountable, readUnary_unary,
    Function.partialInv_left (exists_injective_nat α).choose_spec]

theorem encodeCountable_ne (a : α) : encodeCountable a ≠ [] := by
  simp [encodeCountable, unary]

@[reducible] noncomputable def someGob : Gob where
  encodeValues := encodeCountable
  decodeValues := decodeCountable
  encodeTable := encodeCountable
  decodeTable := decodeCountable
  decode_values values rest _ := decode_encodeCountable values rest
  decode_table := decode_encodeCountable
  encodeValues_ne := encodeCountable_ne
  encodeTable_ne := encodeCountable_ne

@[reducible] noncomputable def someLabgob {n : ℕ} : Labgob (Op n Request) where
  encodeLogEntry := encodeCountable
  decodeLogEntry data := (decodeCountable data).map Prod.fst
  decode_encode e := by
    have h := decode_encodeCountable e []
    rw [List.append_nil] at h
    rw [h]
    rfl

end encodings

end RaftShardedKv.Kvraft
