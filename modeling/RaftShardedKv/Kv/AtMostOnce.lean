import RaftShardedKv.Kv.Dedup

/-!
What the table of replies guarantees.

A request that has been run is settled: its reply is in the table, or the
session of its client is past it. A settled request is not run again, and
it stays settled whatever requests come, in whatever order and with
whatever acknowledgements, so each request is run at most once. The table
needs nothing from its clients for that.
-/

namespace RaftShardedKv.Dedup

/-! ### One request -/

namespace Session

variable (s : Session) (ack : ℕ)

/-- The replies that are kept are those above the watermark. -/
def Trimmed (s : Session) : Prop := ∀ sequence reply, s.replies.get sequence = some reply →
  s.ack < sequence

theorem le_acknowledge : s.ack ≤ (s.acknowledge ack).ack := by
  unfold acknowledge
  split
  · rename_i h
    exact h.le
  · exact le_rfl

theorem acknowledge_le : (s.acknowledge ack).ack ≤ max s.ack ack := by
  unfold acknowledge
  split
  · exact le_max_right _ _
  · exact le_max_left _ _

variable {s ack}

theorem get_acknowledge {sequence : ℕ} (h : (s.acknowledge ack).ack < sequence) :
    (s.acknowledge ack).replies.get sequence = s.replies.get sequence := by
  unfold acknowledge at h ⊢
  split
  · rename_i hlt
    rw [if_pos hlt] at h
    simp [show ack < sequence from h]
  · rfl

theorem Trimmed.acknowledge (h : s.Trimmed) : (s.acknowledge ack).Trimmed := by
  intro sequence reply hget
  unfold Session.acknowledge at hget ⊢
  split at hget
  · rename_i hlt
    rw [if_pos hlt]
    by_contra hle
    simp [show ¬ ack < sequence from hle] at hget
  · rename_i hlt
    rw [if_neg hlt]
    exact h sequence reply hget

end Session

namespace Table

variable {σ : Type}

/-- What `Do` can do. The session is the one after the acknowledgement of
the request. -/
inductive Done (t : Table) (args : PutArgs) (apply : σ → Option (σ × PutReply)) (s : σ) :
    Table → σ → PutReply → Prop
  | unnumbered (s' : σ) (reply : PutReply) (hid : args.clientID = 0)
      (happly : apply s = some (s', reply)) : Done t args apply s t s' reply
  | malformed (hid : args.clientID ≠ 0) (h : args.sequence = 0 ∨ args.sequence ≤ args.ack) :
      Done t args apply s t s ⟨.errStaleRequest⟩
  | stale (t' : Table) (hid : args.clientID ≠ 0) (hpos : args.sequence ≠ 0)
      (hack : args.ack < args.sequence)
      (hsession : t'.session = Function.update t.session args.clientID
        ((t.session args.clientID).acknowledge args.ack))
      (hstale : args.sequence ≤ ((t.session args.clientID).acknowledge args.ack).ack) :
      Done t args apply s t' s ⟨.errStaleRequest⟩
  | cached (t' : Table) (reply : PutReply) (hid : args.clientID ≠ 0)
      (hsession : t'.session = Function.update t.session args.clientID
        ((t.session args.clientID).acknowledge args.ack))
      (hlt : ((t.session args.clientID).acknowledge args.ack).ack < args.sequence)
      (hreply : (t.session args.clientID).replies.get args.sequence = some reply) :
      Done t args apply s t' s reply
  | run (t' : Table) (s' : σ) (reply : PutReply) (replies : GoMap ℕ PutReply)
      (hid : args.clientID ≠ 0)
      (hreplies : ((t.session args.clientID).acknowledge args.ack).replies.set args.sequence reply =
        some replies)
      (hsession : t'.session = Function.update t.session args.clientID
        { (t.session args.clientID).acknowledge args.ack with replies := replies })
      (hlt : ((t.session args.clientID).acknowledge args.ack).ack < args.sequence)
      (hnew : (t.session args.clientID).replies.get args.sequence = none)
      (happly : apply s = some (s', reply)) : Done t args apply s t' s' reply

theorem session_set {t : Table} {clientID : ℕ} {session : Session} {sessions : GoMap ℕ Session}
    (h : t.sessions.orMake.set clientID session = some sessions) :
    (Table.mk sessions).session = Function.update t.session clientID session := by
  ext1 c
  rw [Function.update_apply]
  unfold Table.session
  rw [GoMap.get_set h, GoMap.get_orMake]
  split <;> rfl

theorem done_of_doPut {t t' : Table} {args : PutArgs} {apply : σ → Option (σ × PutReply)}
    {s s' : σ} {reply : PutReply} (h : t.doPut args apply s = some (t', s', reply)) :
    Done t args apply s t' s' reply := by
  unfold doPut at h
  split at h
  · rename_i hid
    obtain ⟨⟨s'', reply'⟩, happly, h⟩ := Option.bind_eq_some_iff.mp h
    cases h
    exact .unnumbered _ _ hid happly
  · rename_i hid
    split at h
    · rename_i hseq
      cases h
      exact .malformed hid hseq
    · rename_i hseq
      obtain ⟨hpos, hack⟩ := not_or.mp hseq
      dsimp only at h
      split at h
      · rename_i hstale
        obtain ⟨t'', ht, h⟩ := Option.bind_eq_some_iff.mp h
        obtain ⟨sessions, hset, ht⟩ := Option.bind_eq_some_iff.mp ht
        cases ht
        cases h
        exact .stale _ hid hpos (not_le.mp hack) (session_set hset) hstale
      · rename_i hlt
        have hlt := not_le.mp hlt
        split at h
        · rename_i reply' hreply
          obtain ⟨t'', ht, h⟩ := Option.bind_eq_some_iff.mp h
          obtain ⟨sessions, hset, ht⟩ := Option.bind_eq_some_iff.mp ht
          cases ht
          cases h
          rw [Session.get_acknowledge hlt] at hreply
          exact .cached _ _ hid (session_set hset) hlt hreply
        · rename_i hnew
          obtain ⟨⟨s'', reply'⟩, happly, h⟩ := Option.bind_eq_some_iff.mp h
          obtain ⟨replies, hreplies, h⟩ := Option.bind_eq_some_iff.mp h
          obtain ⟨t'', ht, h⟩ := Option.bind_eq_some_iff.mp h
          obtain ⟨sessions, hset, ht⟩ := Option.bind_eq_some_iff.mp ht
          cases ht
          cases h
          rw [Session.get_acknowledge hlt] at hnew
          exact .run _ _ _ replies hid hreplies (session_set hset) hlt hnew happly

theorem Done.state {t t' : Table} {args : PutArgs} {apply : σ → Option (σ × PutReply)} {s s' : σ}
    {reply : PutReply} (h : Done t args apply s t' s' reply) :
    s' = s ∨ ∃ reply', apply s = some (s', reply') := by
  cases h with
  | unnumbered s' reply hid happly => exact Or.inr ⟨reply, happly⟩
  | malformed | stale | cached => exact Or.inl rfl
  | run t' s' reply replies hid hreplies hsession hlt hnew happly => exact Or.inr ⟨reply, happly⟩

/-! ### What stays -/

/-- The request has been run with this reply, or it never will be. -/
def Settled (t : Table) (clientID sequence : ℕ) (reply : PutReply) : Prop :=
  sequence ≤ (t.session clientID).ack ∨ (t.session clientID).replies.get sequence = some reply

def Trimmed (t : Table) : Prop := ∀ clientID, (t.session clientID).Trimmed

variable {t t' : Table} {args : PutArgs} {apply : σ → Option (σ × PutReply)} {s s' : σ}
  {reply : PutReply}

theorem Done.session (h : Done t args apply s t' s' reply) (c : ℕ) :
    t'.session c = t.session c ∨ c = args.clientID ∧
      (t'.session c = (t.session c).acknowledge args.ack ∨
        ∃ replies, t'.session c = { (t.session c).acknowledge args.ack with replies := replies } ∧
          ((t.session c).acknowledge args.ack).replies.set args.sequence reply = some replies ∧
          ((t.session c).acknowledge args.ack).ack < args.sequence ∧
          (t.session c).replies.get args.sequence = none) := by
  rcases eq_or_ne c args.clientID with rfl | hne
  · cases h with
    | unnumbered => exact Or.inl rfl
    | malformed => exact Or.inl rfl
    | stale t' hid hpos hack hsession hstale =>
        exact Or.inr ⟨rfl, Or.inl (by rw [hsession, Function.update_self])⟩
    | cached t' reply hid hsession =>
        exact Or.inr ⟨rfl, Or.inl (by rw [hsession, Function.update_self])⟩
    | run t' s' reply replies hid hreplies hsession hlt hnew =>
        refine Or.inr ⟨rfl, Or.inr ⟨replies, ?_, hreplies, hlt, hnew⟩⟩
        rw [hsession, Function.update_self]
  · left
    cases h with
    | unnumbered => rfl
    | malformed => rfl
    | stale t' hid hpos hack hsession => rw [hsession, Function.update_of_ne hne]
    | cached t' reply hid hsession => rw [hsession, Function.update_of_ne hne]
    | run t' s' reply replies hid hreplies hsession => rw [hsession, Function.update_of_ne hne]

theorem Done.ack_le (h : Done t args apply s t' s' reply) (c : ℕ) :
    (t.session c).ack ≤ (t'.session c).ack := by
  rcases h.session c with heq | ⟨-, heq | ⟨replies, heq, -⟩⟩
  · rw [heq]
  · rw [heq]
    exact Session.le_acknowledge ..
  · rw [heq]
    exact Session.le_acknowledge ..

theorem Done.trimmed (h : Done t args apply s t' s' reply) (ht : t.Trimmed) : t'.Trimmed := by
  intro c
  rcases h.session c with heq | ⟨-, heq | ⟨replies, heq, hset, hlt, -⟩⟩
  · rw [heq]
    exact ht c
  · rw [heq]
    exact (ht c).acknowledge
  · rw [heq]
    intro sequence reply' hget
    dsimp only at hget ⊢
    rw [GoMap.get_set hset] at hget
    split at hget
    · rename_i heq
      rwa [heq]
    · exact (ht c).acknowledge sequence reply' hget

theorem Done.settled {c sequence : ℕ} {reply' : PutReply} (h : Done t args apply s t' s' reply)
    (hs : t.Settled c sequence reply') : t'.Settled c sequence reply' := by
  rcases hs with hs | hs
  · exact Or.inl (hs.trans (h.ack_le c))
  · rcases Nat.lt_or_ge (t'.session c).ack sequence with hlt | hge
    · right
      rcases h.session c with heq | ⟨-, heq | ⟨replies, heq, hset, -, hnew⟩⟩
      · rw [heq]
        exact hs
      · rw [heq] at hlt ⊢
        rw [Session.get_acknowledge hlt]
        exact hs
      · rw [heq] at hlt ⊢
        dsimp only at hlt ⊢
        rw [GoMap.get_set hset, Session.get_acknowledge hlt]
        split
        · rename_i heq
          cases (heq ▸ hnew).symm.trans hs
        · exact hs
    · exact Or.inl hge

/-- A settled request is not run, and it is answered as it was or told to
be stale. -/
theorem Done.of_settled {reply' : PutReply} (h : Done t args apply s t' s' reply)
    (hid : args.clientID ≠ 0) (hs : t.Settled args.clientID args.sequence reply') :
    s' = s ∧ (reply = reply' ∨ reply = ⟨.errStaleRequest⟩) := by
  have hlive : ∀ {x : Option PutReply},
      ((t.session args.clientID).acknowledge args.ack).ack < args.sequence →
      (t.session args.clientID).replies.get args.sequence = x → x = some reply' := by
    intro x hlt hx
    rcases hs with hs | hs
    · exact absurd (hs.trans (Session.le_acknowledge ..)) (not_le.mpr hlt)
    · exact hx.symm.trans hs
  cases h with
  | unnumbered s' reply hid' => exact absurd hid' hid
  | malformed => exact ⟨rfl, Or.inr rfl⟩
  | stale => exact ⟨rfl, Or.inr rfl⟩
  | cached t' reply hid' hsession hlt hreply =>
      exact ⟨rfl, Or.inl (Option.some.inj (hlive hlt hreply))⟩
  | run t' s' reply replies hid' hreplies hsession hlt hnew => cases hlive hlt hnew

theorem Done.of_le_ack (h : Done t args apply s t' s' reply) (hid : args.clientID ≠ 0)
    (hle : args.sequence ≤ (t'.session args.clientID).ack) :
    s' = s ∧ reply = ⟨.errStaleRequest⟩ := by
  cases h with
  | unnumbered s' reply hid' => exact absurd hid' hid
  | malformed => exact ⟨rfl, rfl⟩
  | stale => exact ⟨rfl, rfl⟩
  | cached t' reply hid' hsession hlt =>
      rw [hsession, Function.update_self] at hle
      exact absurd hle (not_le.mpr hlt)
  | run t' s' reply replies hid' hreplies hsession hlt =>
      rw [hsession, Function.update_self] at hle
      exact absurd hle (not_le.mpr hlt)

end Table

/-! ### Sequences of requests -/

/-- A way to write a table down and read it back, as for a snapshot or
for the transfer of a shard. -/
structure TableCodec where
  Data : Type
  encode : Table → Data
  decode : Data → Option Table
  decode_encode : ∀ t, decode (encode t) = some t

inductive TableEvent (σ : Type)
  | call (args : PutArgs) (apply : σ → Option (σ × PutReply))
  /-- The table is written down and read back. -/
  | transfer

/-- `apply`, that also notes the event it is run for and its reply. -/
def recording {σ : Type} (k : ℕ) (apply : σ → Option (σ × PutReply)) :
    σ × List (ℕ × PutReply) → Option ((σ × List (ℕ × PutReply)) × PutReply) := fun s => do
  let (s', reply) ← apply s.1
  some ((s', s.2 ++ [(k, reply)]), reply)

/-- `n` events from the empty table. -/
structure TableRun (codec : TableCodec) (σ : Type) (n : ℕ) where
  event : ℕ → TableEvent σ
  table : ℕ → Table
  /-- What the calls work on, and the runs of `apply` so far. -/
  state : ℕ → σ × List (ℕ × PutReply)
  reply : ℕ → PutReply
  start : table 0 = .empty ∧ (state 0).2 = []
  step : ∀ k < n, match event k with
    | .call args apply =>
        (table k).doPut args (recording k apply) (state k) =
          some (table (k + 1), state (k + 1), reply k)
    | .transfer => codec.decode (codec.encode (table k)) = some (table (k + 1)) ∧
        state (k + 1) = state k

namespace TableRun

variable {codec : TableCodec} {σ : Type} {n : ℕ} (r : TableRun codec σ n)

/-- Event `k` is a call for this request. -/
def CallsFor (k clientID sequence : ℕ) : Prop := ∃ args apply,
  r.event k = .call args apply ∧ args.clientID = clientID ∧ args.sequence = sequence

/-- `apply` has been run for event `k`, with this reply, when `m` events
are over. -/
def Ran (m k : ℕ) (reply : PutReply) : Prop := (k, reply) ∈ (r.state m).2

theorem done {k : ℕ} (hk : k < n) {args : PutArgs} {apply : σ → Option (σ × PutReply)}
    (he : r.event k = .call args apply) :
    Table.Done (r.table k) args (recording k apply) (r.state k) (r.table (k + 1))
      (r.state (k + 1)) (r.reply k) := by
  have h := r.step k hk
  rw [he] at h
  exact Table.done_of_doPut h

theorem transferred {k : ℕ} (hk : k < n) (he : r.event k = .transfer) :
    r.table (k + 1) = r.table k ∧ r.state (k + 1) = r.state k := by
  have h := r.step k hk
  rw [he] at h
  exact ⟨Option.some.inj (h.1.symm.trans (codec.decode_encode _)), h.2⟩

theorem preserves {P : Table → Prop}
    (hP : ∀ {τ : Type} {t t' : Table} {args : PutArgs} {apply : τ → Option (τ × PutReply)}
      {s s' : τ} {reply : PutReply}, Table.Done t args apply s t' s' reply → P t → P t') {i j : ℕ}
    (hij : i ≤ j) (hj : j ≤ n) (hi : P (r.table i)) : P (r.table j) := by
  induction j, hij using Nat.le_induction with
  | base => exact hi
  | succ j _ ih =>
      cases he : r.event j with
      | call args apply => exact hP (r.done hj he) (ih (by omega))
      | transfer =>
          rw [(r.transferred hj he).1]
          exact ih (by omega)

/-- A step runs `apply` for its own event or not at all, and then the
request is settled. -/
theorem ran_step {k : ℕ} (hk : k < n) : (r.state (k + 1)).2 = (r.state k).2 ∨
    (r.state (k + 1)).2 = (r.state k).2 ++ [(k, r.reply k)] ∧
      ∀ clientID sequence, r.CallsFor k clientID sequence → clientID ≠ 0 →
        (r.table (k + 1)).Settled clientID sequence (r.reply k) := by
  have hrecording : ∀ {apply : σ → Option (σ × PutReply)} {s' reply},
      recording k apply (r.state k) = some (s', reply) →
        s'.2 = (r.state k).2 ++ [(k, reply)] := by
    intro apply s' reply h
    obtain ⟨⟨s'', reply'⟩, -, h⟩ := Option.bind_eq_some_iff.mp h
    cases h
    rfl
  cases he : r.event k with
  | transfer => exact Or.inl (by rw [(r.transferred hk he).2])
  | call args apply =>
      have hargs : ∀ clientID sequence, r.CallsFor k clientID sequence →
          args.clientID = clientID ∧ args.sequence = sequence := by
        rintro clientID sequence ⟨args', apply', he', hrest⟩
        cases he.symm.trans he'
        exact hrest
      have hdone := r.done hk he
      generalize r.table (k + 1) = t' at hdone ⊢
      generalize r.state (k + 1) = s' at hdone ⊢
      generalize r.reply k = reply at hdone ⊢
      cases hdone with
      | unnumbered s' reply hid happly =>
          refine Or.inr ⟨hrecording happly, fun c sequence hcalls hne => ?_⟩
          exact absurd ((hargs c sequence hcalls).1.symm.trans hid) hne
      | malformed | stale | cached => exact Or.inl rfl
      | run t' s' reply replies hid hreplies hsession hlt hnew happly =>
          refine Or.inr ⟨hrecording happly, fun c sequence hcalls hne => Or.inr ?_⟩
          obtain ⟨rfl, rfl⟩ := hargs c sequence hcalls
          rw [hsession, Function.update_self]
          dsimp only
          rw [GoMap.get_set hreplies, if_pos rfl]

theorem Ran.at_event {r : TableRun codec σ n} {m k : ℕ} {reply : PutReply} (hm : m ≤ n)
    (h : r.Ran m k reply) : k < m ∧ r.Ran (k + 1) k reply := by
  induction m with
  | zero =>
      unfold Ran at h
      rw [r.start.2] at h
      cases h
  | succ m ih =>
      rcases r.ran_step hm with heq | ⟨heq, -⟩
      · unfold Ran at h
        rw [heq] at h
        obtain ⟨hlt, hran⟩ := ih (by omega) h
        exact ⟨by omega, hran⟩
      · have h' := h
        unfold Ran at h'
        rw [heq] at h'
        rcases List.mem_append.mp h' with h' | h'
        · obtain ⟨hlt, hran⟩ := ih (by omega) h'
          exact ⟨by omega, hran⟩
        · cases List.mem_singleton.mp h'
          exact ⟨by omega, h⟩

theorem Ran.ne {r : TableRun codec σ n} {k : ℕ} {reply : PutReply} (hk : k < n)
    (h : r.Ran (k + 1) k reply) : r.state (k + 1) ≠ r.state k := by
  intro heq
  unfold Ran at h
  rw [heq] at h
  exact absurd (Ran.at_event hk.le h).1 (lt_irrefl k)

theorem Ran.reply_eq {r : TableRun codec σ n} {k : ℕ} {reply : PutReply} (hk : k < n)
    (h : r.Ran (k + 1) k reply) : reply = r.reply k ∧
      ∀ clientID sequence, r.CallsFor k clientID sequence → clientID ≠ 0 →
        (r.table (k + 1)).Settled clientID sequence reply := by
  unfold Ran at h
  rcases r.ran_step hk with heq | ⟨heq, hsettled⟩
  · rw [heq] at h
    exact absurd (Ran.at_event hk.le h).1 (lt_irrefl k)
  · rw [heq] at h
    rcases List.mem_append.mp h with h | h
    · exact absurd (Ran.at_event hk.le h).1 (lt_irrefl k)
    · cases List.mem_singleton.mp h
      exact ⟨rfl, hsettled⟩

theorem Ran.settled {r : TableRun codec σ n} {i j clientID sequence : ℕ} {reply : PutReply}
    (h : r.Ran n i reply) (hcalls : r.CallsFor i clientID sequence) (hid : clientID ≠ 0)
    (hij : i < j) (hj : j ≤ n) : (r.table j).Settled clientID sequence reply := by
  obtain ⟨hi, hran⟩ := h.at_event le_rfl
  refine r.preserves (P := fun t => t.Settled clientID sequence reply) ?_ hij hj
    ((hran.reply_eq hi).2 clientID sequence hcalls hid)
  exact fun hdone hs => hdone.settled hs

theorem ran_nodup {m : ℕ} (hm : m ≤ n) : ((r.state m).2.map Prod.fst).Nodup := by
  induction m with
  | zero =>
      rw [r.start.2]
      exact List.nodup_nil
  | succ m ih =>
      rcases r.ran_step hm with heq | ⟨heq, -⟩
      · rw [heq]
        exact ih (by omega)
      · rw [heq, List.map_append, List.nodup_append]
        refine ⟨ih (by omega), List.nodup_singleton _, ?_⟩
        rintro k hk _ hm' rfl
        obtain ⟨⟨k', reply⟩, hmem, rfl⟩ := List.mem_map.mp hk
        obtain rfl : k' = m := by simpa using hm'
        exact absurd (Ran.at_event (by omega) hmem).1 (lt_irrefl k')

end TableRun

/-- What holds of the requests that a table has been given. -/
structure AtMostOnce {codec : TableCodec} {σ : Type} {n : ℕ} (r : TableRun codec σ n) : Prop where
  runs : ((r.state n).2.map Prod.fst).Nodup
  once : ∀ clientID sequence i j reply reply', clientID ≠ 0 → r.CallsFor i clientID sequence →
    r.CallsFor j clientID sequence → r.Ran n i reply → r.Ran n j reply' → i = j
  replay : ∀ clientID sequence i j reply, clientID ≠ 0 → r.CallsFor i clientID sequence →
    r.CallsFor j clientID sequence → i ≤ j → j < n → r.Ran n i reply →
      r.reply j = reply ∨ r.reply j = ⟨.errStaleRequest⟩
  stale : ∀ clientID sequence i j, clientID ≠ 0 → r.CallsFor i clientID sequence →
    r.CallsFor j clientID sequence → i ≤ j → j < n →
      sequence ≤ ((r.table (i + 1)).session clientID).ack →
        r.reply j = ⟨.errStaleRequest⟩ ∧ ∀ reply, ¬ r.Ran n j reply
  ack : ∀ clientID i j, i ≤ j → j ≤ n →
    ((r.table i).session clientID).ack ≤ ((r.table j).session clientID).ack
  trimmed : ∀ k ≤ n, ∀ clientID sequence reply,
    ((r.table k).session clientID).replies.get sequence = some reply →
      ((r.table k).session clientID).ack < sequence

/-- Any requests in any order, with the table written down and read back
in between. -/
theorem table_atMostOnce {codec : TableCodec} {σ : Type} {n : ℕ} (r : TableRun codec σ n) :
    AtMostOnce r := by
  have hack : ∀ clientID i j, i ≤ j → j ≤ n →
      ((r.table i).session clientID).ack ≤ ((r.table j).session clientID).ack := by
    intro clientID i j hij hj
    exact r.preserves
      (P := fun t => ((r.table i).session clientID).ack ≤ (t.session clientID).ack)
      (fun hdone hle => hle.trans (hdone.ack_le clientID)) hij hj le_rfl
  refine ⟨r.ran_nodup le_rfl, ?_, ?_, ?_, hack, ?_⟩
  · intro clientID sequence i j reply reply' hid hi hj hrani hranj
    wlog hij : i ≤ j generalizing i j reply reply'
    · exact (this j i reply' reply hj hi hranj hrani (by omega)).symm
    by_contra hne
    obtain ⟨hjn, hranj⟩ := hranj.at_event le_rfl
    have hsettled := hrani.settled hi hid (show i < j by omega) hjn.le
    obtain ⟨args, apply, he, rfl, rfl⟩ := hj
    exact hranj.ne hjn ((r.done hjn he).of_settled hid hsettled).1
  · intro clientID sequence i j reply hid hi hj hij hjn hran
    rcases hij.eq_or_lt with rfl | hlt
    · exact Or.inl ((hran.at_event le_rfl).2.reply_eq hjn).1.symm
    · have hsettled := hran.settled hi hid hlt hjn.le
      obtain ⟨args, apply, he, rfl, rfl⟩ := hj
      exact ((r.done hjn he).of_settled hid hsettled).2
  · intro clientID sequence i j hid hi hj hij hjn hle
    have hle' := hle.trans (hack clientID (i + 1) (j + 1) (by omega) hjn)
    obtain ⟨args, apply, he, rfl, rfl⟩ := hj
    obtain ⟨hstate, hreply⟩ := (r.done hjn he).of_le_ack hid hle'
    exact ⟨hreply, fun reply hran => (hran.at_event le_rfl).2.ne hjn hstate⟩
  · intro k hk clientID
    refine r.preserves (P := Table.Trimmed) (fun hdone ht => hdone.trimmed ht) (Nat.zero_le k) hk ?_
      clientID
    rw [r.start.1]
    intro c sequence reply hget
    simp [Table.session, Table.empty] at hget

/-! ### A run with a replay, a transfer and a late request -/

/-- The table goes over as it is. -/
def plainCodec : TableCodec where
  Data := Table
  encode := id
  decode := some
  decode_encode _ := rfl

/-- What `k` events lead to, and the last reply; a call that panics is
skipped. -/
def playTable {σ : Type} (event : ℕ → TableEvent σ) (s : σ) :
    ℕ → Table × (σ × List (ℕ × PutReply)) × PutReply
  | 0 => (.empty, (s, []), ⟨.ok⟩)
  | k + 1 =>
      let (t, s, reply) := playTable event s k
      match event k with
      | .call args apply => (t.doPut args (recording k apply) s).getD (t, s, reply)
      | .transfer => (t, s, reply)

/-- Event `k` does not panic. -/
def playable {σ : Type} (event : ℕ → TableEvent σ) (s : σ) (k : ℕ) : Bool :=
  let (t, s, _) := playTable event s k
  match event k with
  | .call args apply => (t.doPut args (recording k apply) s).isSome
  | .transfer => true

def TableRun.play {σ : Type} (event : ℕ → TableEvent σ) (s : σ) (n : ℕ)
    (h : ∀ k < n, playable event s k) : TableRun plainCodec σ n where
  event := event
  table k := (playTable event s k).1
  state k := (playTable event s k).2.1
  reply k := (playTable event s (k + 1)).2.2
  start := ⟨rfl, rfl⟩
  step k hk := by
    have hplay := h k hk
    unfold playable at hplay
    cases he : event k with
    | call args apply =>
        simp only [he] at hplay ⊢
        obtain ⟨x, hx⟩ := Option.isSome_iff_exists.mp hplay
        have hnext : playTable event s (k + 1) = x := by
          rw [playTable]
          simp only [he, hx, Option.getD_some]
        rw [hx, hnext]
    | transfer =>
        have hnext : playTable event s (k + 1) = playTable event s k := by
          rw [playTable]
          simp only [he]
        exact ⟨by rw [hnext]; rfl, by rw [hnext]⟩

/-- A client's first request, again after a transfer, and once more when
its second request has acknowledged it. -/
def replayEvents : List (TableEvent ℕ) :=
  let put (sequence ack : ℕ) : TableEvent ℕ :=
    .call ⟨[13], [7], 0, 5, sequence, ack⟩ fun s => some (s + 1, ⟨.ok⟩)
  [put 1 0, .transfer, put 1 0, put 2 1, put 1 0]

def replayRun : TableRun plainCodec ℕ 5 :=
  .play (fun k => replayEvents.getD k .transfer) 0 5 (by decide)

theorem table_atMostOnce_replayRun :
    [replayRun.reply 0, replayRun.reply 2, replayRun.reply 3, replayRun.reply 4] =
        [⟨.ok⟩, ⟨.ok⟩, ⟨.ok⟩, ⟨.errStaleRequest⟩] ∧
      replayRun.state 5 = (2, [(0, ⟨.ok⟩), (3, ⟨.ok⟩)]) ∧ AtMostOnce replayRun :=
  ⟨by decide, by decide, table_atMostOnce replayRun⟩

end RaftShardedKv.Dedup
