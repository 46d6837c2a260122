import RaftShardedKv.Lib.GoMap

/-!
Requests and replies of the key/value services, from `kvsrv1/rpc/rpc.go`,
and the package `kvraft1/dedup` that lets a `Put` be sent any number of
times: the client numbers its calls and knows up to where all of them
are done, the table keeps the reply to every numbered request that may
still come again.

Strings are byte strings. Versions are 64 bits wide and wrap around; the
numbers of a client are natural numbers, since `Begin` panics before
they would.
-/

namespace RaftShardedKv

abbrev GoString := List UInt8

/-- The 32-bit FNV-1a hash. -/
def fnv32a (data : GoString) : UInt32 :=
  data.foldl (fun h b => (h ^^^ b.toUInt32) * 16777619) 2166136261

inductive Err
  | ok
  | errNoKey
  | errVersion
  | errMaybe
  | errWrongLeader
  | errWrongGroup
  | errStaleRequest
  deriving DecidableEq, Repr

abbrev Tversion := UInt64

structure PutArgs where
  key : GoString
  value : GoString
  version : Tversion
  clientID : ℕ
  sequence : ℕ
  ack : ℕ
  deriving DecidableEq, Repr

structure PutReply where
  err : Err
  deriving DecidableEq, Repr

structure GetArgs where
  key : GoString
  deriving DecidableEq, Repr

structure GetReply where
  value : GoString
  version : Tversion
  err : Err
  deriving DecidableEq, Repr

namespace Dedup

/-! ### The client -/

/-- `completed` holds the keys that the map has, all of them `true`. -/
structure Client where
  id : ℕ
  next : ℕ
  ack : ℕ
  completed : Finset ℕ
  deriving DecidableEq

namespace Client

def initial : Client := ⟨0, 0, 0, ∅⟩

/-- `Begin`, where `draw` is the first number drawn that is not zero;
`none` is the panic when the numbers are used up. -/
def begin (c : Client) (draw : ℕ) : Option (Client × ℕ × ℕ) :=
  let id := if c.id = 0 then draw else c.id
  let next := c.next + 1
  if next = 2 ^ 64 then none else some ({ c with id := id, next := next }, id, next)

/-- The loop of `Complete`, for at most `fuel` rounds. -/
def advance : ℕ → Client → Client
  | 0, c => c
  | fuel + 1, c =>
      if c.ack + 1 ∈ c.completed then
        advance fuel { c with ack := c.ack + 1, completed := c.completed.erase (c.ack + 1) }
      else c

def complete (c : Client) (sequence : ℕ) : Client :=
  if sequence ≤ c.ack then c
  else
    let completed := insert sequence c.completed
    advance completed.card { c with completed := completed }

end Client

/-! ### The table -/

structure Session where
  ack : ℕ
  replies : GoMap ℕ PutReply

/-- What a session is after a request with this acknowledgement. -/
def Session.acknowledge (s : Session) (ack : ℕ) : Session :=
  if s.ack < ack then ⟨ack, s.replies.filter fun sequence => ack < sequence⟩ else s

structure Table where
  sessions : GoMap ℕ Session

namespace Table

def empty : Table := ⟨.nil⟩

/-- The session of a client, made if there is none. -/
def session (t : Table) (clientID : ℕ) : Session :=
  (t.sessions.get clientID).getD ⟨0, .make⟩

/-- `Do`, with what `apply` works on in the open. `none` is a panic: that
of `apply`, or the assignment to a reply map that is `nil`. -/
def doPut {σ : Type} (t : Table) (args : PutArgs) (apply : σ → Option (σ × PutReply)) (s : σ) :
    Option (Table × σ × PutReply) :=
  if args.clientID = 0 then do
    let (s, reply) ← apply s
    some (t, s, reply)
  else if args.sequence = 0 ∨ args.sequence ≤ args.ack then some (t, s, ⟨.errStaleRequest⟩)
  else do
    let session := (t.session args.clientID).acknowledge args.ack
    let store (session : Session) : Option Table := do
      let sessions ← t.sessions.orMake.set args.clientID session
      some ⟨sessions⟩
    if args.sequence ≤ session.ack then do
      let t ← store session
      some (t, s, ⟨.errStaleRequest⟩)
    else
      match session.replies.get args.sequence with
      | some reply => do
          let t ← store session
          some (t, s, reply)
      | none => do
          let (s, reply) ← apply s
          let replies ← session.replies.set args.sequence reply
          let t ← store { session with replies := replies }
          some (t, s, reply)

end Table

end Dedup

end RaftShardedKv
