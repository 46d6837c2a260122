import RaftShardedKv.Kv.AtMostOnce
import RaftShardedKv.Lib.Pool

/-!
What the numbers of a client guarantee.

The watermark of a client stays below every call that is not complete.
The watermark that comes with a request was read from the client, and the
watermarks in a table come with requests, so neither is ever past what
the client has now. A request whose call is not complete is then never
stale.

Both services have clerks that number their calls of `Put` in the same
way, so the calls of any number of clerks and the requests they have ever
sent are put together here, with the four things a call does to them.
-/

namespace RaftShardedKv.Dedup

/-! ### The client -/

namespace Client

/-- The calls in `active` have been numbered and are not complete. -/
structure Tracks (c : Client) (active : ℕ → Prop) : Prop where
  ack_le : c.ack ≤ c.next
  completed_le : ∀ q ∈ c.completed, q ≤ c.next
  active : ∀ q, active q → c.ack < q ∧ q ≤ c.next ∧ q ∉ c.completed

variable {c c' : Client} {active active' : ℕ → Prop}

theorem Tracks.initial : initial.Tracks fun _ => False where
  ack_le := le_rfl
  completed_le _ hq := by cases hq
  active _ hq := hq.elim

theorem Tracks.mono (h : c.Tracks active) (hsub : ∀ q, active' q → active q) : c.Tracks active' :=
  ⟨h.ack_le, h.completed_le, fun q hq => h.active q (hsub q hq)⟩

theorem begin_eq_some {draw id q : ℕ} (hb : c.begin draw = some (c', id, q)) :
    q = c.next + 1 ∧ id = (if c.id = 0 then draw else c.id) ∧
      c' = { c with id := id, next := q } := by
  unfold begin at hb
  dsimp only at hb
  split at hb
  · cases hb
  · cases hb
    exact ⟨rfl, rfl, rfl⟩

theorem Tracks.begin (h : c.Tracks active) (id : ℕ) :
    { c with id := id, next := c.next + 1 }.Tracks fun q => active q ∨ q = c.next + 1 where
  ack_le := h.ack_le.trans (Nat.le_succ _)
  completed_le q hq := (h.completed_le q hq).trans (Nat.le_succ _)
  active q hq := by
    rcases hq with hq | rfl
    · obtain ⟨hlt, hle, hnot⟩ := h.active q hq
      exact ⟨hlt, hle.trans (Nat.le_succ _), hnot⟩
    · refine ⟨Nat.lt_succ_of_le h.ack_le, le_rfl, fun hmem => ?_⟩
      exact absurd (h.completed_le _ hmem) (Nat.not_succ_le_self _)

theorem Tracks.advance (fuel : ℕ) (h : c.Tracks active) :
    (Client.advance fuel c).Tracks active := by
  induction fuel generalizing c with
  | zero => exact h
  | succ fuel ih =>
      unfold Client.advance
      split
      · rename_i hmem
        refine ih ⟨h.completed_le _ hmem, fun q hq => ?_, fun q hq => ?_⟩
        · exact h.completed_le q (Finset.mem_of_mem_erase hq)
        · obtain ⟨hlt, hle, hnot⟩ := h.active q hq
          have hne : c.ack + 1 ≠ q := fun heq => hnot (heq ▸ hmem)
          exact ⟨lt_of_le_of_ne hlt hne, hle, fun hq => hnot (Finset.mem_of_mem_erase hq)⟩
      · exact h

theorem advance_keeps (fuel : ℕ) (c : Client) : (advance fuel c).id = c.id ∧
    (advance fuel c).next = c.next ∧ c.ack ≤ (advance fuel c).ack := by
  induction fuel generalizing c with
  | zero => exact ⟨rfl, rfl, le_rfl⟩
  | succ fuel ih =>
      unfold advance
      split
      · obtain ⟨hid, hnext, hack⟩ :=
          ih { c with ack := c.ack + 1, completed := c.completed.erase (c.ack + 1) }
        exact ⟨hid, hnext, (Nat.le_succ _).trans hack⟩
      · exact ⟨rfl, rfl, le_rfl⟩

theorem Tracks.complete {q : ℕ} (h : c.Tracks active) (hq : active q) :
    (c.complete q).Tracks fun q' => active q' ∧ q' ≠ q := by
  obtain ⟨hlt, hle, hnot⟩ := h.active q hq
  unfold Client.complete
  rw [if_neg (not_le.mpr hlt)]
  refine Tracks.advance _ ⟨h.ack_le, fun q' hq' => ?_, fun q' hq' => ?_⟩
  · rcases Finset.mem_insert.mp hq' with rfl | hq'
    · exact hle
    · exact h.completed_le q' hq'
  · obtain ⟨hlt', hle', hnot'⟩ := h.active q' hq'.1
    refine ⟨hlt', hle', fun hmem => ?_⟩
    rcases Finset.mem_insert.mp hmem with heq | hmem
    · exact hq'.2 heq
    · exact hnot' hmem

theorem complete_keeps (c : Client) (q : ℕ) : (c.complete q).id = c.id ∧
    (c.complete q).next = c.next ∧ c.ack ≤ (c.complete q).ack := by
  unfold complete
  split
  · exact ⟨rfl, rfl, le_rfl⟩
  · exact advance_keeps _ { c with completed := insert q c.completed }

end Client

/-! ### The table -/

namespace Table

variable {σ : Type} {t t' : Table} {args : PutArgs} {apply : σ → Option (σ × PutReply)} {s s' : σ}
  {reply : PutReply} {ack ack' : ℕ → ℕ}

/-- No session is past what its client has acknowledged. -/
def Within (ack : ℕ → ℕ) (t : Table) : Prop := ∀ c, (t.session c).ack ≤ ack c

theorem Within.empty : Table.empty.Within ack := fun _ => Nat.zero_le _

theorem Within.mono (h : t.Within ack) (hle : ∀ c, ack c ≤ ack' c) : t.Within ack' :=
  fun c => (h c).trans (hle c)

theorem Within.acknowledge (h : t.Within ack) {c a : ℕ} (ha : a ≤ ack c) :
    ((t.session c).acknowledge a).ack ≤ ack c :=
  (Session.acknowledge_le ..).trans (max_le (h c) ha)

theorem Within.done (h : t.Within ack) (hdone : Done t args apply s t' s' reply)
    (hargs : args.ack ≤ ack args.clientID) : t'.Within ack := by
  intro c
  rcases hdone.session c with heq | ⟨rfl, heq | ⟨replies, heq, -⟩⟩
  · rw [heq]
    exact h c
  · rw [heq]
    exact h.acknowledge hargs
  · rw [heq]
    exact h.acknowledge hargs

end Table

/-! ### Clerks -/

/-- The variable `args` of a call of `Put`, and whether the call has come
to its `Complete`. -/
structure PutCall (Ck : Type) where
  clerk : Ck
  args : PutArgs
  completed : Bool
  deriving DecidableEq, Repr

structure Sent (D : Type) where
  call : ℕ
  dst : D
  args : PutArgs
  deriving DecidableEq, Repr

/-- Clerks, their calls of `Put` and the requests sent to `D`. -/
structure Clerks (Ck D : Type) where
  client : Ck → Client
  calls : List (PutCall Ck)
  sent : List (Sent D)

namespace Clerks

variable {Ck D : Type}

def init : Clerks Ck D := ⟨fun _ => .initial, [], []⟩

section

variable (clientID : Ck ↪ {id : ℕ // id ≠ 0}) (s : Clerks Ck D)

def begin [DecidableEq Ck] (ck : Ck) (key value : GoString) (version : Tversion) :
    Option (Clerks Ck D) := do
  let (client, id, sequence) ← (s.client ck).begin (clientID ck)
  some { s with
    client := Function.update s.client ck client
    calls := s.calls ++ [⟨ck, ⟨key, value, version, id, sequence, 0⟩, false⟩] }

/-- `args.Ack` is set to the watermark of the client. -/
def ack (p : ℕ) : Option (Clerks Ck D) := do
  let call ← s.calls[p]?
  if call.completed then none
  else
    let args := { call.args with ack := (s.client call.clerk).ack }
    some { s with calls := s.calls.set p { call with args := args } }

def send (p : ℕ) (dst : D) : Option (Clerks Ck D) := do
  let call ← s.calls[p]?
  if call.completed then none else some { s with sent := s.sent ++ [⟨p, dst, call.args⟩] }

def complete [DecidableEq Ck] (p : ℕ) : Option (Clerks Ck D) := do
  let call ← s.calls[p]?
  if call.completed then none
  else some { s with
    client := Function.update s.client call.clerk
      ((s.client call.clerk).complete call.args.sequence)
    calls := s.calls.set p { call with completed := true } }

end

/-- The numbers of the calls that are not complete. -/
def Active (s : Clerks Ck D) (ck : Ck) (q : ℕ) : Prop :=
  ∃ (p : ℕ) (call : PutCall Ck), s.calls[p]? = some call ∧ call.clerk = ck ∧
    call.args.sequence = q ∧ call.completed = false

/-- The request is the one that the call is about, at some watermark. -/
def For (args : PutArgs) (call : PutCall Ck) : Prop := args = { call.args with ack := args.ack }

structure Inv (clientID : Ck ↪ {id : ℕ // id ≠ 0}) (s : Clerks Ck D) : Prop where
  id : ∀ ck, (s.client ck).id = 0 ∨ (s.client ck).id = clientID ck
  call : ∀ (p : ℕ) call, s.calls[p]? = some call →
    call.args.clientID = clientID call.clerk ∧ call.args.sequence ≤ (s.client call.clerk).next ∧
      call.args.ack ≤ (s.client call.clerk).ack
  unique : ∀ (p p' : ℕ) call call', s.calls[p]? = some call → s.calls[p']? = some call' →
    call.clerk = call'.clerk → call.args.sequence = call'.args.sequence → p = p'
  tracks : ∀ ck, (s.client ck).Tracks (s.Active ck)
  sent : ∀ x ∈ s.sent, ∃ call, s.calls[x.call]? = some call ∧ For x.args call ∧
    x.args.ack ≤ (s.client call.clerk).ack

/-- What clerks may go on to. -/
structure Later (s s' : Clerks Ck D) : Prop where
  ack : ∀ ck, (s.client ck).ack ≤ (s'.client ck).ack
  call : ∀ (p : ℕ) call, s.calls[p]? = some call → ∃ call', s'.calls[p]? = some call' ∧
    call'.clerk = call.clerk ∧ For call'.args call

section

variable {clientID : Ck ↪ {id : ℕ // id ≠ 0}} {s s' : Clerks Ck D}

theorem Inv.init : (Clerks.init : Clerks Ck D).Inv clientID where
  id ck := Or.inl rfl
  call p call h := by cases h
  unique p p' call call' h := by cases h
  tracks ck := Client.Tracks.initial.mono fun q ⟨p, call, h, _⟩ => by cases h
  sent x h := by cases h

theorem begin_spec [DecidableEq Ck] (h : s.Inv clientID) {ck : Ck} {key value : GoString}
    {version : Tversion} (hs : s.begin clientID ck key value version = some s') :
    s'.client ck = { s.client ck with id := clientID ck, next := (s.client ck).next + 1 } ∧
      (∀ ck', ck' ≠ ck → s'.client ck' = s.client ck') ∧
      s'.calls = s.calls ++
        [⟨ck, ⟨key, value, version, clientID ck, (s.client ck).next + 1, 0⟩, false⟩] ∧
      s'.sent = s.sent := by
  obtain ⟨⟨client, id, q⟩, hbegin, hs⟩ := Option.bind_eq_some_iff.mp hs
  cases hs
  obtain ⟨rfl, hid, rfl⟩ := Client.begin_eq_some hbegin
  obtain rfl : id = clientID ck := by
    rcases h.id ck with hzero | hset
    · rw [hid, if_pos hzero]
    · rw [hid, if_neg (hset ▸ (clientID ck).2), hset]
  exact ⟨Function.update_self .., fun ck' hne => Function.update_of_ne hne .., rfl, rfl⟩

theorem ack_spec {p : ℕ} (hs : s.ack p = some s') :
    ∃ call, s.calls[p]? = some call ∧ call.completed = false ∧ s'.client = s.client ∧
      s'.calls = s.calls.set p
        { call with args := { call.args with ack := (s.client call.clerk).ack } } ∧
      s'.sent = s.sent := by
  obtain ⟨call, hp, hs⟩ := Option.bind_eq_some_iff.mp hs
  split at hs
  · cases hs
  · rename_i hnot
    cases hs
    exact ⟨call, hp, by simpa using hnot, rfl, rfl, rfl⟩

theorem send_spec {p : ℕ} {dst : D} (hs : s.send p dst = some s') :
    ∃ call, s.calls[p]? = some call ∧ call.completed = false ∧
      s' = { s with sent := s.sent ++ [⟨p, dst, call.args⟩] } := by
  obtain ⟨call, hp, hs⟩ := Option.bind_eq_some_iff.mp hs
  split at hs
  · cases hs
  · rename_i hnot
    cases hs
    exact ⟨call, hp, by simpa using hnot, rfl⟩

theorem complete_spec [DecidableEq Ck] {p : ℕ} (hs : s.complete p = some s') :
    ∃ call, s.calls[p]? = some call ∧ call.completed = false ∧
      s'.client call.clerk = (s.client call.clerk).complete call.args.sequence ∧
      (∀ ck, ck ≠ call.clerk → s'.client ck = s.client ck) ∧
      s'.calls = s.calls.set p { call with completed := true } ∧ s'.sent = s.sent := by
  obtain ⟨call, hp, hs⟩ := Option.bind_eq_some_iff.mp hs
  split at hs
  · cases hs
  · rename_i hnot
    cases hs
    exact ⟨call, hp, by simpa using hnot, Function.update_self .., fun ck hne =>
      Function.update_of_ne hne .., rfl, rfl⟩

theorem Inv.begin [DecidableEq Ck] (h : s.Inv clientID) {ck : Ck} {key value : GoString}
    {version : Tversion} (hs : s.begin clientID ck key value version = some s') :
    s'.Inv clientID ∧ s.Later s' := by
  obtain ⟨hself, hother, hcalls, hsent⟩ := begin_spec h hs
  have hack : ∀ ck', (s'.client ck').ack = (s.client ck').ack := by
    intro ck'
    rcases eq_or_ne ck' ck with rfl | hne
    · rw [hself]
    · rw [hother ck' hne]
  have hlater : ∀ (p : ℕ) call, s.calls[p]? = some call → s'.calls[p]? = some call := by
    intro p call hp
    rw [hcalls]
    exact Pool.append hp _
  have hcase : ∀ (p : ℕ) call, s'.calls[p]? = some call → s.calls[p]? = some call ∨
      p = s.calls.length ∧ call.clerk = ck ∧ call.args.clientID = clientID ck ∧
        call.args.sequence = (s.client ck).next + 1 ∧ call.args.ack = 0 := by
    intro p call hp
    rw [hcalls] at hp
    rcases Pool.concat_cases hp with hp | ⟨rfl, rfl⟩
    · exact Or.inl hp
    · exact Or.inr ⟨rfl, rfl, rfl, rfl, rfl⟩
  refine ⟨⟨fun ck' => ?_, fun p call hp => ?_, fun p p' call call' hp hp' hck hq => ?_,
    fun ck' => ?_, fun x hx => ?_⟩, fun ck' => (hack ck').ge, fun p call hp =>
      ⟨call, hlater p call hp, rfl, rfl⟩⟩
  · rcases eq_or_ne ck' ck with rfl | hne
    · exact Or.inr (by rw [hself])
    · rw [hother ck' hne]
      exact h.id ck'
  · rcases hcase p call hp with hp | ⟨-, rfl, hid, hq, hzero⟩
    · obtain ⟨hid, hle, hlow⟩ := h.call p call hp
      refine ⟨hid, ?_, by rwa [hack]⟩
      rcases eq_or_ne call.clerk ck with rfl | hne
      · rw [hself]
        exact hle.trans (Nat.le_succ _)
      · rwa [hother _ hne]
    · exact ⟨hid, by rw [hself, hq], hzero ▸ Nat.zero_le _⟩
  · have hfresh : ∀ (p : ℕ) call, s.calls[p]? = some call → call.clerk = ck →
        call.args.sequence ≠ (s.client ck).next + 1 := by
      rintro p call hp rfl heq
      exact absurd (heq ▸ (h.call p call hp).2.1) (Nat.not_succ_le_self _)
    rcases hcase p call hp with hp | ⟨rfl, hck', -, hq', -⟩ <;>
      rcases hcase p' call' hp' with hp' | ⟨rfl, hck'', -, hq'', -⟩
    · exact h.unique p p' call call' hp hp' hck hq
    · exact absurd (hq.trans hq'') (hfresh p call hp (hck.trans hck''))
    · exact absurd (hq.symm.trans hq') (hfresh p' call' hp' (hck.symm.trans hck'))
    · rfl
  · have hactive : ∀ q, s'.Active ck' q →
        s.Active ck' q ∨ ck' = ck ∧ q = (s.client ck).next + 1 := by
      rintro q ⟨p, call, hp, rfl, rfl, hnot⟩
      rcases hcase p call hp with hp | ⟨-, hck, -, hq, -⟩
      · exact Or.inl ⟨p, call, hp, rfl, rfl, hnot⟩
      · exact Or.inr ⟨hck, hq⟩
    rcases eq_or_ne ck' ck with rfl | hne
    · rw [hself]
      exact ((h.tracks ck').begin (clientID ck')).mono fun q hq =>
        (hactive q hq).imp_right And.right
    · rw [hother ck' hne]
      exact (h.tracks ck').mono fun q hq => (hactive q hq).resolve_right fun heq => hne heq.1
  · rw [hsent] at hx
    obtain ⟨call, hp, hfor, hle⟩ := h.sent x hx
    exact ⟨call, hlater _ call hp, hfor, by rwa [hack]⟩

/-- A call goes on as the same request. -/
theorem Inv.move (h : s.Inv clientID) {p : ℕ} {call call' : PutCall Ck}
    (hp : s.calls[p]? = some call) (hcalls : s'.calls = s.calls.set p call')
    (hck : call'.clerk = call.clerk) (hfor : For call'.args call)
    (hlow : call'.args.ack ≤ (s'.client call.clerk).ack)
    (hid : ∀ ck, (s'.client ck).id = (s.client ck).id)
    (hnext : ∀ ck, (s'.client ck).next = (s.client ck).next)
    (hack : ∀ ck, (s.client ck).ack ≤ (s'.client ck).ack)
    (htracks : ∀ ck, (s'.client ck).Tracks (s'.Active ck)) (hsent : s'.sent = s.sent) :
    s'.Inv clientID ∧ s.Later s' := by
  have hfwd : ∀ (p' : ℕ) x, s.calls[p']? = some x → ∃ x', s'.calls[p']? = some x' ∧
      x'.clerk = x.clerk ∧ For x'.args x := by
    intro p' x hx
    rw [hcalls]
    rcases eq_or_ne p' p with rfl | hne
    · obtain rfl := Option.some.inj (hp.symm.trans hx)
      exact ⟨call', Pool.set_self hp, hck, hfor⟩
    · exact ⟨x, (List.getElem?_set_ne hne.symm).trans hx, rfl, rfl⟩
  have hback : ∀ (p' : ℕ) x', s'.calls[p']? = some x' → ∃ x, s.calls[p']? = some x ∧
      x'.clerk = x.clerk ∧ For x'.args x ∧ x'.args.ack ≤ (s'.client x.clerk).ack := by
    intro p' x' hx'
    rw [hcalls] at hx'
    rcases Pool.set_cases hx' with ⟨rfl, rfl⟩ | ⟨hne, hx⟩
    · exact ⟨call, hp, hck, hfor, hlow⟩
    · exact ⟨x', hx, rfl, rfl, (h.call p' x' hx).2.2.trans (hack _)⟩
  refine ⟨⟨fun ck => ?_, fun p' x' hx' => ?_, fun p₁ p₂ x₁ x₂ h₁ h₂ hcks hqs => ?_, htracks,
    fun x hx => ?_⟩, hack, hfwd⟩
  · rw [hid]
    exact h.id ck
  · obtain ⟨x, hx, hxck, hxfor, hxlow⟩ := hback p' x' hx'
    obtain ⟨hxid, hle, -⟩ := h.call p' x hx
    rw [hxck, hnext]
    refine ⟨?_, ?_, hxlow⟩
    · rw [hxfor]
      exact hxid
    · rw [hxfor]
      exact hle
  · obtain ⟨y₁, hy₁, hck₁, hfor₁, -⟩ := hback p₁ x₁ h₁
    obtain ⟨y₂, hy₂, hck₂, hfor₂, -⟩ := hback p₂ x₂ h₂
    rw [hfor₁, hfor₂] at hqs
    exact h.unique p₁ p₂ y₁ y₂ hy₁ hy₂ (hck₁.symm.trans (hcks.trans hck₂)) hqs
  · rw [hsent] at hx
    obtain ⟨y, hy, hyfor, hle⟩ := h.sent x hx
    obtain ⟨y', hy', hyck, hfor'⟩ := hfwd _ y hy
    refine ⟨y', hy', ?_, by rw [hyck]; exact hle.trans (hack _)⟩
    unfold For at hyfor hfor' ⊢
    rw [hfor']
    exact hyfor

theorem Inv.ack (h : s.Inv clientID) {p : ℕ} (hs : s.ack p = some s') :
    s'.Inv clientID ∧ s.Later s' := by
  obtain ⟨call, hp, hnot, hclient, hcalls, hsent⟩ := ack_spec hs
  refine h.move hp hcalls rfl rfl (by rw [hclient]) (by simp [hclient]) (by simp [hclient])
    (by simp [hclient]) (fun ck => ?_) hsent
  rw [hclient]
  refine (h.tracks ck).mono fun q ⟨p', x, hx, hck, hq, hxnot⟩ => ?_
  rw [hcalls] at hx
  rcases Pool.set_cases hx with ⟨rfl, rfl⟩ | ⟨-, hx⟩
  · exact ⟨p', call, hp, hck, hq, hnot⟩
  · exact ⟨p', x, hx, hck, hq, hxnot⟩

theorem Later.refl (s : Clerks Ck D) : s.Later s :=
  ⟨fun _ => le_rfl, fun _ call hp => ⟨call, hp, rfl, rfl⟩⟩

theorem Inv.send (h : s.Inv clientID) {p : ℕ} {dst : D} (hs : s.send p dst = some s') :
    s'.Inv clientID ∧ s.Later s' := by
  obtain ⟨call, hp, hnot, rfl⟩ := send_spec hs
  refine ⟨⟨h.id, h.call, h.unique, h.tracks, fun x hx => ?_⟩,
    ⟨fun _ => le_rfl, (Later.refl s).call⟩⟩
  rcases List.mem_append.mp hx with hx | hx
  · exact h.sent x hx
  · cases List.mem_singleton.mp hx
    exact ⟨call, hp, rfl, (h.call p call hp).2.2⟩

theorem Inv.complete [DecidableEq Ck] (h : s.Inv clientID) {p : ℕ} (hs : s.complete p = some s') :
    s'.Inv clientID ∧ s.Later s' := by
  obtain ⟨call, hp, hnot, hself, hother, hcalls, hsent⟩ := complete_spec hs
  obtain ⟨hid, hnext, hack⟩ := (s.client call.clerk).complete_keeps call.args.sequence
  have hkeeps : ∀ ck, (s'.client ck).id = (s.client ck).id ∧
      (s'.client ck).next = (s.client ck).next ∧ (s.client ck).ack ≤ (s'.client ck).ack := by
    intro ck
    rcases eq_or_ne ck call.clerk with rfl | hne
    · rw [hself]
      exact ⟨hid, hnext, hack⟩
    · rw [hother ck hne]
      exact ⟨rfl, rfl, le_rfl⟩
  refine h.move hp hcalls rfl rfl ((h.call p call hp).2.2.trans (hkeeps _).2.2)
    (fun ck => (hkeeps ck).1) (fun ck => (hkeeps ck).2.1) (fun ck => (hkeeps ck).2.2)
    (fun ck => ?_) hsent
  have hactive : ∀ q, s'.Active ck q → s.Active ck q ∧
      (ck = call.clerk → q ≠ call.args.sequence) := by
    rintro q ⟨p', x, hx, rfl, rfl, hxnot⟩
    rw [hcalls] at hx
    rcases Pool.set_cases hx with ⟨-, rfl⟩ | ⟨hne, hx⟩
    · cases hxnot
    · exact ⟨⟨p', x, hx, rfl, rfl, hxnot⟩, fun hck hq => hne (h.unique p' p x call hx hp hck hq)⟩
  rcases eq_or_ne ck call.clerk with rfl | hne
  · rw [hself]
    refine ((h.tracks _).complete ⟨p, call, hp, rfl, rfl, hnot⟩).mono fun q hq => ?_
    exact ⟨(hactive q hq).1, (hactive q hq).2 rfl⟩
  · rw [hother ck hne]
    exact (h.tracks ck).mono fun q hq => (hactive q hq).1

/-! What clients have acknowledged -/

noncomputable def watermark (clientID : Ck ↪ {id : ℕ // id ≠ 0}) (s : Clerks Ck D) : ℕ → ℕ :=
  Function.extend (fun ck => (clientID ck).1) (fun ck => (s.client ck).ack) 0

theorem watermark_clientID (s : Clerks Ck D) (ck : Ck) :
    s.watermark clientID (clientID ck) = (s.client ck).ack :=
  Function.Injective.extend_apply (Subtype.val_injective.comp clientID.injective) _ _ ck

theorem Later.watermark (h : s.Later s') (c : ℕ) :
    s.watermark clientID c ≤ s'.watermark clientID c := by
  by_cases hc : ∃ ck, (clientID ck).1 = c
  · obtain ⟨ck, rfl⟩ := hc
    rw [watermark_clientID, watermark_clientID]
    exact h.ack ck
  · unfold Clerks.watermark
    rw [Function.extend_apply' _ _ _ hc, Function.extend_apply' _ _ _ hc]

theorem Inv.sent_ack (h : s.Inv clientID) {x : Sent D} (hx : x ∈ s.sent) :
    x.args.clientID ≠ 0 ∧ x.args.ack ≤ s.watermark clientID x.args.clientID := by
  obtain ⟨call, hp, hfor, hle⟩ := h.sent x hx
  have hid : x.args.clientID = clientID call.clerk := by
    rw [hfor]
    exact (h.call _ call hp).1
  rw [hid, watermark_clientID]
  exact ⟨(clientID call.clerk).2, hle⟩

theorem Inv.active (h : s.Inv clientID) {p : ℕ} {call : PutCall Ck} (hp : s.calls[p]? = some call)
    (hnot : call.completed = false) :
    s.watermark clientID call.args.clientID < call.args.sequence := by
  rw [(h.call p call hp).1, watermark_clientID]
  exact ((h.tracks call.clerk).active _ ⟨p, call, hp, rfl, rfl, hnot⟩).1

theorem Inv.call_unique (h : s.Inv clientID) {p p' : ℕ} {call call' : PutCall Ck}
    (hp : s.calls[p]? = some call) (hp' : s.calls[p']? = some call')
    (hid : call.args.clientID = call'.args.clientID)
    (hq : call.args.sequence = call'.args.sequence) : p = p' := by
  refine h.unique p p' call call' hp hp' (clientID.injective (Subtype.ext ?_)) hq
  rw [← (h.call p call hp).1, ← (h.call p' call' hp').1, hid]

end

end Clerks

end RaftShardedKv.Dedup
