import RaftShardedKv.Kvraft.System

/-!
Histories of the state machine: what a list of operations makes of the
server, one operation after the other.

The lemmas are about any list of operations in which every `Put` comes
from a client. One of them follows a request through the list; the next
one bounds the watermarks in the table by those that came with the
requests; the last one follows the version of a key.
-/

namespace RaftShardedKv.Kvraft

open Dedup

variable {n : ℕ} [Gob] {ops ops' : List (Op n Request)}

/-- The server after the first `m` operations. -/
def stateAt (ops : List (Op n Request)) (m : ℕ) : KVServer := machine.run (ops.take m)

/-- The runs of `putLocked` for request `q` of client `c` in the first `m`
operations, with what they return. -/
def runsAt (ops : List (Op n Request)) (c q : ℕ) : ℕ → List PutReply
  | 0 => []
  | m + 1 => runsAt ops c q m ++
      match ops[m]? with
      | some op => (stateAt ops m).runsFor c q op.req
      | none => []

theorem stateAt_succ {m : ℕ} {op : Op n Request} (h : ops[m]? = some op) :
    stateAt ops (m + 1) = ((stateAt ops m).doOp op.req).1 :=
  machine.run_take_succ h

theorem runsAt_succ {m c q : ℕ} {op : Op n Request} (h : ops[m]? = some op) :
    runsAt ops c q (m + 1) = runsAt ops c q m ++ (stateAt ops m).runsFor c q op.req := by
  rw [runsAt, h]

theorem stateAt_put {m : ℕ} {op : Op n Request} {args : PutArgs} (h : ops[m]? = some op)
    (hreq : op.req = .put args) : (stateAt ops m).requests.doPut args (putLocked args)
      (stateAt ops m).values = some ((stateAt ops (m + 1)).requests, (stateAt ops (m + 1)).values,
        ((stateAt ops m).put args).2) := by
  rw [stateAt_succ h, hreq]
  exact (stateAt ops m).doPut_eq args

theorem stateAt_get {m : ℕ} {op : Op n Request} {args : GetArgs} (h : ops[m]? = some op)
    (hreq : op.req = .get args) : stateAt ops (m + 1) = stateAt ops m := by
  rw [stateAt_succ h, hreq]
  rfl

section mono

variable (h : ops <+: ops')

include h

theorem stateAt_mono {m : ℕ} (hm : m ≤ ops.length) : stateAt ops' m = stateAt ops m := by
  unfold stateAt
  rw [take_of_initial h hm]

theorem runsAt_mono {m c q : ℕ} (hm : m ≤ ops.length) : runsAt ops' c q m = runsAt ops c q m := by
  induction m with
  | zero => rfl
  | succ m ih =>
      obtain ⟨op, hop⟩ : ∃ op, ops[m]? = some op := ⟨_, List.getElem?_eq_getElem hm⟩
      rw [runsAt_succ (getElem?_of_initial h hop), runsAt_succ hop, ih (by omega),
        stateAt_mono h (by omega)]

end mono

/-- `P` holds of every `Put` in the list. -/
def Puts (P : PutArgs → Prop) (ops : List (Op n Request)) : Prop :=
  ∀ (k : ℕ) op args, ops[k]? = some op → op.req = .put args → P args

theorem stateAt_preserves {P : PutArgs → Prop} (hops : Puts P ops) {I : Table → ℕ → Prop}
    (hzero : I .empty 0) (hget : ∀ t k op args, ops[k]? = some op → op.req = .get args →
      I t k → I t (k + 1))
    (hput : ∀ k op args, ops[k]? = some op → op.req = .put args → P args →
      I (stateAt ops k).requests k → I (stateAt ops (k + 1)).requests (k + 1)) {m : ℕ}
    (hm : m ≤ ops.length) : I (stateAt ops m).requests m := by
  induction m with
  | zero => exact hzero
  | succ m ih =>
      obtain ⟨op, hop⟩ : ∃ op, ops[m]? = some op := ⟨_, List.getElem?_eq_getElem hm⟩
      have ih := ih (by omega)
      cases hreq : op.req with
      | get args =>
          rw [stateAt_get hop hreq]
          exact hget _ m op args hop hreq ih
      | put args => exact hput m op args hop hreq (hops m op args hop hreq) ih

theorem recorded_stateAt (hops : Puts (fun args => args.clientID ≠ 0) ops) {m : ℕ}
    (hm : m ≤ ops.length) (c q : ℕ) :
    (stateAt ops m).requests.Recorded c q (runsAt ops c q m) := by
  refine stateAt_preserves hops (I := fun t k => t.Recorded c q (runsAt ops c q k)) ?_ ?_ ?_ hm
  · exact .empty
  · intro t k op args hop hreq ht
    rw [runsAt_succ hop, hreq]
    simpa [KVServer.runsFor] using ht
  · intro k op args hop hreq hid ht
    rw [runsAt_succ hop, hreq]
    exact ht.doPut hid (stateAt_put hop hreq)

theorem within_stateAt {ack : ℕ → ℕ} (hops : Puts (fun args => args.ack ≤ ack args.clientID) ops)
    {m : ℕ} (hm : m ≤ ops.length) : (stateAt ops m).requests.Within ack := by
  refine stateAt_preserves hops (I := fun t _ => t.Within ack) .empty ?_ ?_ hm
  · intro t k op args hop hreq ht
    exact ht
  · intro k op args hop hreq hack ht
    exact ht.done (Table.done_of_doPut (stateAt_put hop hreq)) hack

theorem answer_active {ack : ℕ → ℕ}
    (hops : Puts (fun args => args.clientID ≠ 0 ∧ args.ack ≤ ack args.clientID) ops) {m : ℕ}
    {op : Op n Request} {args : PutArgs} (hop : ops[m]? = some op) (hreq : op.req = .put args)
    (hseq : ack args.clientID < args.sequence) :
    runsAt ops args.clientID args.sequence (m + 1) = [((stateAt ops m).put args).2] := by
  have hm : m ≤ ops.length := (List.getElem?_eq_some_iff.mp hop).1.le
  obtain ⟨hid, hack⟩ := hops m op args hop hreq
  have hrecorded := recorded_stateAt (fun k op args hop hreq => (hops k op args hop hreq).1) hm
    args.clientID args.sequence
  have hwithin := within_stateAt (fun k op args hop hreq => (hops k op args hop hreq).2) hm
  rw [runsAt_succ hop, hreq]
  simpa [KVServer.runsFor, Table.runsFor] using
    hrecorded.active hwithin hid hack hseq (stateAt_put hop hreq)

theorem runsAt_le {c q m m' : ℕ} (h : m ≤ m') : runsAt ops c q m <+: runsAt ops c q m' := by
  induction m', h using Nat.le_induction with
  | base => exact List.prefix_rfl
  | succ m' _ ih => exact ih.trans ⟨_, rfl⟩

theorem runsAt_of_eq (hops : Puts (fun args => args.clientID ≠ 0) ops) {c q m m' : ℕ}
    {reply : PutReply} (h : runsAt ops c q m = [reply]) (hle : m ≤ m') (hm : m' ≤ ops.length) :
    runsAt ops c q m' = [reply] := by
  have hone := (recorded_stateAt hops hm c q).length_le
  have hpre : runsAt ops c q m <+: runsAt ops c q m' := runsAt_le hle
  rw [h] at hpre
  exact (hpre.eq_of_length_le hone).symm

/-- What `putLocked` can return. -/
theorem runsAt_reply (hops : Puts (fun args => args.clientID ≠ 0) ops) {c q m : ℕ}
    (hm : m ≤ ops.length) {reply : PutReply} (h : reply ∈ runsAt ops c q m) :
    reply = ⟨.ok⟩ ∨ reply = ⟨.errNoKey⟩ ∨ reply = ⟨.errVersion⟩ := by
  induction m with
  | zero => cases h
  | succ m ih =>
      obtain ⟨op, hop⟩ : ∃ op, ops[m]? = some op := ⟨_, List.getElem?_eq_getElem hm⟩
      rw [runsAt_succ hop] at h
      rcases List.mem_append.mp h with h | h
      · exact ih (by omega) h
      · cases hreq : op.req with
        | get args =>
            rw [hreq] at h
            cases h
        | put args =>
            rw [hreq, KVServer.runsFor, Table.runsFor] at h
            split at h
            · cases Table.ran_of_doPut (hops m op args hop hreq) (stateAt_put hop hreq) with
              | kept hnil =>
                  rw [hnil] at h
                  cases h
              | run hone happly =>
                  rw [hone] at h
                  cases List.mem_singleton.mp h
                  exact (putLocked_cases happly).imp And.left And.left
            · cases h

/-- A run counts the version of its key up if it returns `OK`, and only a
run does. -/
theorem version_succ {m : ℕ} {op : Op n Request} {args : PutArgs} (hop : ops[m]? = some op)
    (hreq : op.req = .put args) (hid : args.clientID ≠ 0) (key : GoString) :
    versionOf (stateAt ops (m + 1)).values key = versionOf (stateAt ops m).values key +
      if key = args.key ∧ (stateAt ops m).runsFor args.clientID args.sequence op.req = [⟨.ok⟩]
      then 1 else 0 := by
  have hruns : (stateAt ops m).runsFor args.clientID args.sequence op.req =
      (stateAt ops m).requests.runs args (putLocked args) (stateAt ops m).values := by
    rw [hreq]
    simp [KVServer.runsFor, Table.runsFor]
  rw [hruns]
  cases Table.ran_of_doPut hid (stateAt_put hop hreq) with
  | kept hnil hstate => simp [hnil, hstate]
  | run hone happly =>
      rw [hone]
      rcases putLocked_cases happly with ⟨hreply, hversion⟩ | ⟨hreply, hsame⟩
      · rw [hversion, hreply]
        simp
      · rw [hsame]
        rcases hreply with hreply | hreply <;> simp [hreply]

end RaftShardedKv.Kvraft
