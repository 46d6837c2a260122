import RaftShardedKv.Kv.Clients
import RaftShardedKv.Lib.Loop
import RaftShardedKv.Lib.Transition

/-!
How far a client of `kvraft1/dedup` has got: its watermark is the end of the
unbroken row of calls that are complete, and the map holds the calls that are
complete beyond it.

The clerks of the services are modelled with numbers that never wrap around.
Here the client has the words and the map of the source, also in the last
round of the loop, where the watermark may be the largest word and the number
after it is zero. Such a client stands for one with unbounded numbers, and
what is exact there is exact here.
-/

namespace RaftShardedKv.Dedup

/-! ### The source -/

/-- `Client`, with the widths of the source. -/
structure Client64 where
  id : UInt64
  next : UInt64
  ack : UInt64
  completed : GoMap UInt64 Bool

namespace Client64

def initial : Client64 := ⟨0, 0, 0, .nil⟩

/-- The loop that draws the number of the client; `none` if these draws do
not end it. -/
def drawID : UInt64 → List UInt64 → Option UInt64
  | id, [] => if id = 0 then none else some id
  | id, data :: draws => if id = 0 then drawID data draws else some id

/-- `Begin`. It gives no client and number where it panics, with `next` already
raised. -/
def begin (c : Client64) (draws : List UInt64) : Option (Client64 × Option (UInt64 × UInt64)) := do
  let id ← drawID c.id draws
  let next := c.next + 1
  some ({ c with id := id, next := next }, if next = 0 then none else some (id, next))

/-- A round of the loop of `Complete`. -/
def advance (c : Client64) : Option Client64 :=
  if (c.completed.get (c.ack + 1)).getD false then
    some { c with ack := c.ack + 1, completed := c.completed.delete (c.ack + 1) }
  else none

def complete (c : Client64) (sequence : UInt64) : Option Client64 :=
  if sequence ≤ c.ack then some c
  else do
    let completed ← c.completed.orMake.set sequence true
    loop advance (completed.len + 1) { c with completed := completed }

end Client64

/-- One client, the number of times `Begin` was called, what it returned, and
what `Complete` was called with. -/
structure ClientCalls where
  client : Client64
  begins : ℕ
  begun : List (UInt64 × UInt64)
  done : Finset UInt64

inductive ClientAction
  | begin (draws : List UInt64)
  | complete (sequence : UInt64)
  deriving DecidableEq, Repr

namespace ClientCalls

def init : ClientCalls := ⟨.initial, 0, [], ∅⟩

/-- A call, which is one step under the lock. -/
def step (s : ClientCalls) : ClientAction → Option ClientCalls
  | .begin draws => do
      let (client, result) ← s.client.begin draws
      some { s with client := client, begins := s.begins + 1, begun := s.begun ++ result.toList }
  | .complete sequence =>
      if sequence ∈ s.begun.map Prod.snd then do
        let client ← s.client.complete sequence
        some { s with client := client, done := insert sequence s.done }
      else none

end ClientCalls

def clientSys : Transition.Sys ClientCalls ClientAction := .ofStep .init ClientCalls.step

/-! ### Unbounded numbers -/

namespace Client

variable {c : Client} {done : Set ℕ}

/-- The loop has got to `ack` and may go on. -/
structure Row (c : Client) (done : Set ℕ) : Prop where
  below : ∀ q, 1 ≤ q → q ≤ c.ack → q ∈ done
  above : ∀ q, q ∈ c.completed ↔ q ∈ done ∧ c.ack < q

structure Exact (c : Client) (done : Set ℕ) : Prop extends c.Row done where
  ends : c.ack + 1 ∉ c.completed

theorem Exact.initial : initial.Exact ∅ where
  below q h hle := absurd (h.trans hle) (by decide)
  above q := by simp [Client.initial]
  ends := by simp [Client.initial]

theorem Row.next (h : c.Row done) (hmem : c.ack + 1 ∈ c.completed) :
    { c with ack := c.ack + 1, completed := c.completed.erase (c.ack + 1) }.Row done where
  below q hpos hle := by
    rcases Nat.le_succ_iff.mp hle with hle | rfl
    · exact h.below q hpos hle
    · exact ((h.above _).mp hmem).1
  above q := by
    rw [Finset.mem_erase, h.above]
    constructor
    · rintro ⟨hne, hdone, hlt⟩
      exact ⟨hdone, lt_of_le_of_ne hlt hne.symm⟩
    · rintro ⟨hdone, hlt⟩
      exact ⟨hlt.ne', hdone, (Nat.lt_succ_self _).trans hlt⟩

theorem Row.advance {fuel : ℕ} (h : c.Row done) (hfuel : c.completed.card ≤ fuel) :
    (Client.advance fuel c).Exact done := by
  induction fuel generalizing c with
  | zero =>
      have hempty : c.completed = ∅ := Finset.card_eq_zero.mp (Nat.le_zero.mp hfuel)
      exact ⟨h, fun hmem => absurd (hempty ▸ hmem) (Finset.notMem_empty _)⟩
  | succ fuel ih =>
      unfold Client.advance
      split
      · rename_i hmem
        refine ih (h.next hmem) ?_
        rw [Finset.card_erase_of_mem hmem]
        exact Nat.sub_le_of_le_add hfuel
      · rename_i hnot
        exact ⟨h, hnot⟩

theorem Exact.complete (h : c.Exact done) (q : ℕ) : (c.complete q).Exact (insert q done) := by
  unfold Client.complete
  split
  · rename_i hle
    refine ⟨⟨fun q' hpos hle' => Or.inr (h.below q' hpos hle'), fun q' => ?_⟩, h.ends⟩
    rw [h.above]
    refine and_congr_left fun hlt => (or_iff_right ?_).symm
    rintro rfl
    exact absurd hlt (not_lt.mpr hle)
  · rename_i hlt
    refine Row.advance ⟨fun q' hpos hle' => Or.inr (h.below q' hpos hle'), fun q' => ?_⟩ le_rfl
    rw [Finset.mem_insert, h.above]
    constructor
    · rintro (rfl | ⟨hdone, hlt'⟩)
      · exact ⟨Or.inl rfl, not_le.mp hlt⟩
      · exact ⟨Or.inr hdone, hlt'⟩
    · rintro ⟨rfl | hdone, hlt'⟩
      · exact Or.inl rfl
      · exact Or.inr ⟨hdone, hlt'⟩

theorem Exact.isGreatest (h : c.Exact done) :
    IsGreatest {n | ∀ q, 1 ≤ q → q ≤ n → q ∈ done} c.ack := by
  refine ⟨h.below, fun n hn => ?_⟩
  by_contra hlt
  exact h.ends ((h.above _).mpr ⟨hn _ (Nat.le_add_left ..) (not_le.mp hlt), Nat.lt_succ_self _⟩)

end Client

/-! ### Words -/

namespace Client64

variable {c c' : Client64} {n : Client}

/-- The words stand for these numbers, and the map for this set. -/
structure Stands (c : Client64) (n : Client) : Prop where
  id : c.id.toNat = n.id
  next : c.next.toNat = n.next
  ack : c.ack.toNat = n.ack
  get : ∀ q, c.completed.get q = if q.toNat ∈ n.completed then some true else none
  range : ∀ q ∈ n.completed, 0 < q ∧ q < 2 ^ 64

theorem Stands.initial : initial.Stands .initial where
  id := rfl
  next := rfl
  ack := rfl
  get q := by simp [Client64.initial, Client.initial]
  range q hq := by cases hq

theorem Stands.len (h : c.Stands n) : c.completed.len = n.completed.card := by
  have hsub : ∀ q ∈ n.completed, (UInt64.ofNat q).toNat = q := fun q hq =>
    UInt64.toNat_ofNat_of_lt' (h.range q hq).2
  rw [GoMap.len_eq_card _ (n.completed.image UInt64.ofNat), Finset.card_image_of_injOn]
  · intro q hq q' hq' heq
    rw [← hsub q hq, ← hsub q' hq']
    exact congrArg _ heq
  · intro k
    rw [h.get, Finset.mem_image]
    constructor
    · rintro ⟨q, hq, rfl⟩
      simp [hsub q hq, hq]
    · intro hk
      refine ⟨k.toNat, ?_, UInt64.ofNat_toNat⟩
      by_contra hnot
      exact hk (if_neg hnot)

/-- The number after the watermark, and zero after the largest word, which no
call has. -/
theorem Stands.succ (h : c.Stands n) :
    (c.completed.get (c.ack + 1)).getD false = true ↔ n.ack + 1 ∈ n.completed := by
  rw [h.get]
  rcases Nat.lt_or_ge (n.ack + 1) (2 ^ 64) with hlt | hge
  · have hsucc : (c.ack + 1).toNat = n.ack + 1 := by
      rw [UInt64.toNat_add, h.ack]
      exact Nat.mod_eq_of_lt hlt
    rw [hsucc]
    split <;> simp_all
  · have hzero : (c.ack + 1).toNat = 0 := by
      have := c.ack.toNat_lt
      rw [UInt64.toNat_add, h.ack]
      rw [h.ack] at this
      have : n.ack + 1 = 2 ^ 64 := by omega
      exact (congrArg (· % 2 ^ 64) this).trans (Nat.mod_self _)
    rw [hzero, if_neg fun hmem => absurd (h.range _ hmem).1 (lt_irrefl _)]
    simp only [Option.getD_none, Bool.false_eq_true, false_iff]
    exact fun hmem => absurd (h.range _ hmem).2 (not_lt.mpr hge)

theorem Stands.advance_some (h : c.Stands n) (hmem : n.ack + 1 ∈ n.completed) : c.advance =
    some { c with ack := c.ack + 1, completed := c.completed.delete (c.ack + 1) } :=
  if_pos (h.succ.mpr hmem)

theorem Stands.advance_none (h : c.Stands n) (hnot : n.ack + 1 ∉ n.completed) :
    c.advance = none :=
  if_neg fun hget => hnot (h.succ.mp hget)

theorem Stands.next_round (h : c.Stands n) (hmem : n.ack + 1 ∈ n.completed) :
    { c with ack := c.ack + 1, completed := c.completed.delete (c.ack + 1) }.Stands
      { n with ack := n.ack + 1, completed := n.completed.erase (n.ack + 1) } := by
  have hsucc : (c.ack + 1).toNat = n.ack + 1 := by
    rw [UInt64.toNat_add, h.ack]
    exact Nat.mod_eq_of_lt (h.range _ hmem).2
  refine ⟨h.id, h.next, hsucc, fun q => ?_, fun q hq => h.range q (Finset.mem_of_mem_erase hq)⟩
  have hq : q = c.ack + 1 ↔ q.toNat = n.ack + 1 := by
    rw [← hsucc, UInt64.toNat_inj]
  simp only [GoMap.get_delete, h.get, Finset.mem_erase, hq]
  split <;> simp_all

theorem Stands.advance {fuel : ℕ} (h : c.Stands n) (hfuel : n.completed.card ≤ fuel) :
    ∃ c', loop advance (fuel + 1) c = some c' ∧ c'.Stands (Client.advance fuel n) := by
  induction fuel generalizing c n with
  | zero =>
      have hempty : n.completed = ∅ := Finset.card_eq_zero.mp (Nat.le_zero.mp hfuel)
      have hnone := h.advance_none fun hmem => absurd (hempty ▸ hmem) (Finset.notMem_empty _)
      exact ⟨c, Loop.succ_of_none hnone 0, h⟩
  | succ fuel ih =>
      unfold Client.advance
      split
      · rename_i hmem
        rw [Loop.succ_of_some (h.advance_some hmem)]
        refine ih (h.next_round hmem) ?_
        rw [Finset.card_erase_of_mem hmem]
        exact Nat.sub_le_of_le_add hfuel
      · rename_i hnot
        exact ⟨c, Loop.succ_of_none (h.advance_none hnot) _, h⟩

theorem Stands.complete (h : c.Stands n) {q : UInt64} (hq : q ≠ 0) :
    ∃ c', c.complete q = some c' ∧ c'.Stands (n.complete q.toNat) := by
  have hle : q ≤ c.ack ↔ q.toNat ≤ n.ack := by
    rw [UInt64.le_iff_toNat_le, h.ack]
  unfold Client64.complete Client.complete
  split
  · rename_i hq
    rw [if_pos (hle.mp hq)]
    exact ⟨c, rfl, h⟩
  · rename_i hnot
    rw [if_neg fun hq => hnot (hle.mpr hq)]
    obtain ⟨completed, hset⟩ := GoMap.exists_set c.completed.orMake_ne_nil q true
    have hstands : { c with completed := completed }.Stands
        { n with completed := insert q.toNat n.completed } := by
      refine ⟨h.id, h.next, h.ack, fun q' => ?_, fun q' hq' => ?_⟩
      · simp only [GoMap.get_set hset, GoMap.get_orMake, h.get, Finset.mem_insert,
          UInt64.toNat_inj]
        split <;> simp_all
      · rcases Finset.mem_insert.mp hq' with rfl | hq'
        · exact ⟨Nat.pos_of_ne_zero fun hzero => hq (UInt64.toNat_inj.mp hzero), q.toNat_lt⟩
        · exact h.range q' hq'
    have hlen : completed.len = (insert q.toNat n.completed).card := hstands.len
    simp only [hset, Option.bind_eq_bind, Option.bind_some, hlen]
    exact hstands.advance le_rfl

theorem drawID_ne_zero {id id' : UInt64} {draws : List UInt64}
    (h : drawID id draws = some id') : id' ≠ 0 ∧ (id ≠ 0 → id' = id) := by
  induction draws generalizing id with
  | nil =>
      unfold drawID at h
      split at h
      · cases h
      · rename_i hne
        cases h
        exact ⟨hne, fun _ => rfl⟩
  | cons data draws ih =>
      unfold drawID at h
      split at h
      · rename_i hzero
        exact ⟨(ih h).1, fun hne => absurd hzero hne⟩
      · rename_i hne
        cases h
        exact ⟨hne, fun _ => rfl⟩

end Client64

/-! ### Calls -/

namespace ClientCalls

variable {s s' : ClientCalls}

/-- What `Complete` was called with, as numbers. -/
def doneNat (s : ClientCalls) : Set ℕ := {q | ∃ k ∈ s.done, k.toNat = q}

/-- As long as `Begin` has not been called too often. -/
structure Inv (s : ClientCalls) : Prop where
  client : ∃ n, s.client.Stands n ∧ n.Exact s.doneNat
  next : s.client.next.toNat = s.begins
  id : s.begins ≠ 0 → s.client.id ≠ 0
  begun : s.begun = (List.range' 1 s.begins).map fun q => (s.client.id, UInt64.ofNat q)
  done : ∀ q ∈ s.done, q ∈ s.begun.map Prod.snd

theorem Inv.init : ClientCalls.init.Inv where
  client := by
    refine ⟨.initial, Client64.Stands.initial, ?_⟩
    have hempty : ClientCalls.init.doneNat = ∅ := by
      simp [doneNat, ClientCalls.init]
    exact hempty ▸ Client.Exact.initial
  next := rfl
  id h := absurd rfl h
  begun := rfl
  done q hq := by cases hq

theorem Inv.mem_begun (h : s.Inv) (hb : s.begins < 2 ^ 64) {q : UInt64} :
    q ∈ s.begun.map Prod.snd ↔ 1 ≤ q.toNat ∧ q.toNat ≤ s.begins := by
  rw [h.begun]
  simp only [List.map_map, List.mem_map, List.mem_range'_1, Function.comp_apply]
  constructor
  · rintro ⟨k, ⟨hpos, hlt⟩, rfl⟩
    rw [UInt64.toNat_ofNat_of_lt' (show k < 2 ^ 64 by omega)]
    omega
  · rintro ⟨hpos, hle⟩
    exact ⟨q.toNat, ⟨hpos, by omega⟩, UInt64.ofNat_toNat⟩

theorem Inv.begin (h : s.Inv) {draws : List UInt64} (hs : s.step (.begin draws) = some s')
    (hb : s'.begins < 2 ^ 64) : s'.Inv := by
  obtain ⟨⟨client, result⟩, hbegin, hs⟩ := Option.bind_eq_some_iff.mp hs
  cases hs
  obtain ⟨id, hdraw, hbegin⟩ := Option.bind_eq_some_iff.mp hbegin
  cases hbegin
  obtain ⟨hid, hsame⟩ := Client64.drawID_ne_zero hdraw
  have hnext : (s.client.next + 1).toNat = s.begins + 1 := by
    rw [UInt64.toNat_add, h.next]
    exact Nat.mod_eq_of_lt hb
  have hne : s.client.next + 1 ≠ 0 := by
    intro hzero
    rw [hzero] at hnext
    cases hnext
  rw [if_neg hne]
  refine ⟨?_, hnext, fun _ => hid, ?_, fun q hq => ?_⟩
  · obtain ⟨n, hstands, hexact⟩ := h.client
    exact ⟨{ n with id := id.toNat, next := s.begins + 1 },
      ⟨rfl, hnext, hstands.ack, hstands.get, hstands.range⟩, ⟨hexact.below, hexact.above⟩,
      hexact.ends⟩
  · have hlast : UInt64.ofNat (1 + s.begins) = s.client.next + 1 := by
      rw [← UInt64.toNat_inj, hnext, Nat.add_comm, UInt64.toNat_ofNat_of_lt' hb]
    rw [List.range'_1_concat, List.map_append, h.begun]
    simp only [Option.toList_some, List.map_cons, List.map_nil, hlast]
    congr 1
    refine List.map_congr_left fun q hq => ?_
    have hpos : s.begins ≠ 0 := by
      have := List.mem_range'_1.mp hq
      omega
    rw [hsame (h.id hpos)]
  · rw [List.map_append]
    exact List.mem_append_left _ (h.done q hq)

theorem Inv.complete_returns (h : s.Inv) (hb : s.begins < 2 ^ 64) {q : UInt64}
    (hq : q ∈ s.begun.map Prod.snd) : ∃ c n, s.client.complete q = some c ∧
      s.client.Stands n ∧ n.Exact s.doneNat ∧ c.Stands (n.complete q.toNat) := by
  obtain ⟨n, hstands, hexact⟩ := h.client
  have hne : q ≠ 0 := by
    rintro rfl
    exact absurd ((h.mem_begun hb).mp hq).1 (by decide)
  obtain ⟨c, hc, hstands'⟩ := hstands.complete hne
  exact ⟨c, n, hc, hstands, hexact, hstands'⟩

theorem Inv.complete (h : s.Inv) {q : UInt64} (hs : s.step (.complete q) = some s')
    (hb : s'.begins < 2 ^ 64) : s'.Inv := by
  unfold step at hs
  dsimp only at hs
  split at hs
  · rename_i hq
    obtain ⟨client, hclient, hs⟩ := Option.bind_eq_some_iff.mp hs
    cases hs
    obtain ⟨c, n, hc, hold, hexact, hstands⟩ := h.complete_returns hb hq
    obtain rfl : c = client := Option.some.inj (hc.symm.trans hclient)
    obtain ⟨hid, hnext, -⟩ := n.complete_keeps q.toNat
    have hids : c.id = s.client.id := by
      rw [← UInt64.toNat_inj, hstands.id, hold.id, hid]
    refine ⟨⟨_, hstands, ?_⟩, ?_, ?_, ?_, fun q' hq' => ?_⟩
    · convert hexact.complete q.toNat using 1
      ext k
      simp [doneNat, eq_comm]
    · rw [hstands.next, hnext, ← hold.next, h.next]
    · rw [hids]
      exact h.id
    · rw [hids]
      exact h.begun
    · rcases Finset.mem_insert.mp hq' with rfl | hq'
      · exact hq
      · exact h.done q' hq'
  · cases hs

theorem begins_le {a : ClientAction} (hs : s.step a = some s') : s.begins ≤ s'.begins := by
  cases a with
  | begin draws =>
      obtain ⟨r, -, hs⟩ := Option.bind_eq_some_iff.mp hs
      cases hs
      exact Nat.le_succ _
  | complete q =>
      unfold step at hs
      dsimp only at hs
      split at hs
      · obtain ⟨client, -, hs⟩ := Option.bind_eq_some_iff.mp hs
        cases hs
        exact le_rfl
      · cases hs

theorem Inv.reachable (hr : clientSys.Reachable s) (hb : s.begins < 2 ^ 64) : s.Inv := by
  refine Transition.Sys.Reachable.invariant (I := fun s => s.begins < 2 ^ 64 → s.Inv)
    (fun s hs _ => hs ▸ Inv.init) (fun s a s' _ ih hs hb => ?_) hr hb
  have h := ih ((begins_le hs).trans_lt hb)
  cases a with
  | begin draws => exact h.begin hs hb
  | complete q => exact h.complete hs hb

end ClientCalls

/-- Over any calls, of which fewer than `2 ^ 64` are of `Begin`: what these
return is numbered from one under one client number, the watermark is the
largest number up to which all calls are complete, the map holds the complete
calls above it, and every `Complete` returns. -/
theorem watermark_exact {s : ClientCalls} (hr : clientSys.Reachable s) (hb : s.begins < 2 ^ 64) :
    (∃ id : UInt64, id ≠ 0 ∧
      s.begun = (List.range' 1 s.begins).map fun q => (id, UInt64.ofNat q)) ∧
    (s.begun.map Prod.snd).Nodup ∧
    IsGreatest {n : ℕ | ∀ q, 1 ≤ q → q ≤ n → ∃ k ∈ s.done, k.toNat = q} s.client.ack.toNat ∧
    (∀ q, s.client.completed.get q =
      if q ∈ s.done ∧ s.client.ack < q then some true else none) ∧
    ((∀ call ∈ s.begun, call.2 ∈ s.done) → s.client.completed.len = 0) ∧
    ∀ q ∈ s.begun.map Prod.snd, ∃ client, s.client.complete q = some client := by
  have h := ClientCalls.Inv.reachable hr hb
  obtain ⟨n, hstands, hexact⟩ := h.client
  have hdone : ∀ q : UInt64, q.toNat ∈ s.doneNat ↔ q ∈ s.done := by
    intro q
    constructor
    · rintro ⟨k, hk, heq⟩
      rwa [← UInt64.toNat_inj.mp heq]
    · exact fun hq => ⟨q, hq, rfl⟩
  have hget : ∀ q, s.client.completed.get q =
      if q ∈ s.done ∧ s.client.ack < q then some true else none := by
    intro q
    simp only [hstands.get, hexact.above, hdone, UInt64.lt_iff_toNat_lt, hstands.ack]
  have hack := hexact.isGreatest
  rw [← hstands.ack] at hack
  refine ⟨?_, ?_, hack, hget, fun hall => ?_, fun q hq => ?_⟩
  · by_cases hzero : s.begins = 0
    · exact ⟨1, by decide, by rw [h.begun, hzero]; rfl⟩
    · exact ⟨s.client.id, h.id hzero, h.begun⟩
  · rw [h.begun, List.map_map]
    refine List.Nodup.map_on (fun q hq q' hq' heq => ?_) (List.nodup_range' ..)
    have hlt := List.mem_range'_1.mp hq
    have hlt' := List.mem_range'_1.mp hq'
    calc
      q = (UInt64.ofNat q).toNat := (UInt64.toNat_ofNat_of_lt' (show q < 2 ^ 64 by omega)).symm
      _ = (UInt64.ofNat q').toNat := congrArg UInt64.toNat heq
      _ = q' := UInt64.toNat_ofNat_of_lt' (show q' < 2 ^ 64 by omega)
  · -- all that was begun is in one row
    have hrow : s.begins ≤ s.client.ack.toNat := hack.2 fun q hpos hle => by
      have hq : (UInt64.ofNat q).toNat = q := UInt64.toNat_ofNat_of_lt' (hle.trans_lt hb)
      have hmem : UInt64.ofNat q ∈ s.begun.map Prod.snd := by
        rw [h.mem_begun hb, hq]
        exact ⟨hpos, hle⟩
      obtain ⟨call, hcall, heq⟩ := List.mem_map.mp hmem
      exact ⟨.ofNat q, heq ▸ hall call hcall, hq⟩
    rw [GoMap.len_eq_card _ ∅, Finset.card_empty]
    intro q
    simp only [Finset.notMem_empty, false_iff, not_not, hget]
    refine if_neg fun hq => absurd (UInt64.lt_iff_toNat_lt.mp hq.2) (not_lt.mpr ?_)
    exact ((h.mem_begun hb).mp (h.done q hq.1)).2.trans hrow
  · obtain ⟨c, -, hc, -⟩ := h.complete_returns hb hq
    exact ⟨c, hc⟩

def sampleCalls : List ClientAction :=
  [.begin [0, 7], .begin [], .begin [9], .complete 2, .complete 3, .complete 2]

/-- The second and the third of three calls are complete, twice and once. -/
theorem watermark_exact_sampleCalls :
    (Transition.play ClientCalls.step .init sampleCalls).begun = [(7, 1), (7, 2), (7, 3)] ∧
    IsGreatest {n : ℕ | ∀ q, 1 ≤ q → q ≤ n → ∃ k ∈ ({2, 3} : Finset UInt64), k.toNat = q} 0 := by
  have h := watermark_exact (s := Transition.play ClientCalls.step .init sampleCalls)
    (Transition.reachable_play ..) (by decide +kernel)
  have hdone : (Transition.play ClientCalls.step .init sampleCalls).done = {2, 3} := by
    decide +kernel
  have hack : (Transition.play ClientCalls.step .init sampleCalls).client.ack.toNat = 0 := by
    decide +kernel
  rw [hdone, hack] at h
  exact ⟨by decide +kernel, h.2.2.1⟩

end RaftShardedKv.Dedup
