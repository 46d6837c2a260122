import RaftShardedKv.Kv.Clients

/-!
The runs of one request.

`Do` is followed with a function that notes when it is run, so that the
runs of a request over a whole history are a list of replies. A table
that has seen the history knows this list: it is empty and the request is
new to the table, or it has one reply and the request is settled with it.
-/

namespace RaftShardedKv.Dedup.Table

variable {σ : Type}

/-! ### Tables without a `nil` map -/

def Made (t : Table) : Prop := ∀ c session, t.sessions.get c = some session → session.replies ≠ .nil

instance (t : Table) : Decidable t.Made :=
  match t with
  | ⟨.nil⟩ => .isTrue fun _ _ h => by cases h
  | ⟨.table entries⟩ =>
      decidable_of_iff (∀ e ∈ entries.entries,
          (match e.2.replies with | .nil => false | _ => true) = true) <| by
        refine ⟨fun h c session hget => ?_, fun h e he => ?_⟩
        · have := h ⟨c, session⟩ (Finmap.lookup_eq_some_iff.mp hget)
          rintro hnil
          simp [hnil] at this
        · have := h e.1 e.2 (Finmap.lookup_eq_some_iff.mpr he)
          split
          · rename_i hnil
            exact absurd hnil this
          · rfl

theorem Made.session {t : Table} (h : t.Made) (c : ℕ) : (t.session c).replies ≠ .nil := by
  unfold Table.session
  cases hget : t.sessions.get c with
  | none => simp [GoMap.make]
  | some session => exact h c session hget

theorem made_of_session {t : Table} (h : ∀ c, (t.session c).replies ≠ .nil) : t.Made := by
  intro c session hget
  have hc := h c
  unfold Table.session at hc
  rwa [hget] at hc

theorem Made.empty : Table.empty.Made := fun _ _ h => by cases h

theorem acknowledge_ne_nil {s : Session} {ack : ℕ} (h : s.replies ≠ .nil) :
    (s.acknowledge ack).replies ≠ .nil := by
  unfold Session.acknowledge
  split
  · exact GoMap.filter_ne_nil (fun sequence => decide (ack < sequence)) h
  · exact h

section

variable {t t' : Table} {args : PutArgs} {apply : σ → Option (σ × PutReply)} {s s' : σ}
  {reply : PutReply}

theorem Made.exists_doPut (h : t.Made) (happly : ∃ out, apply s = some out) :
    ∃ out, t.doPut args apply s = some out := by
  obtain ⟨⟨s', reply⟩, happly⟩ := happly
  have hstore : ∀ session, ∃ sessions,
      t.sessions.orMake.set args.clientID session = some sessions :=
    fun session => GoMap.exists_set (GoMap.orMake_ne_nil _) _ _
  unfold doPut
  split
  · exact ⟨_, by rw [happly]; rfl⟩
  · split
    · exact ⟨_, rfl⟩
    · dsimp only
      split
      · obtain ⟨sessions, hsessions⟩ := hstore ((t.session args.clientID).acknowledge args.ack)
        exact ⟨_, by rw [hsessions]; rfl⟩
      · split
        · obtain ⟨sessions, hsessions⟩ := hstore ((t.session args.clientID).acknowledge args.ack)
          exact ⟨_, by rw [hsessions]; rfl⟩
        · have hmade : ((t.session args.clientID).acknowledge args.ack).replies ≠ .nil :=
            acknowledge_ne_nil (h.session args.clientID)
          obtain ⟨replies, hreplies⟩ := GoMap.exists_set hmade args.sequence reply
          obtain ⟨sessions, hsessions⟩ := hstore
            { (t.session args.clientID).acknowledge args.ack with replies := replies }
          exact ⟨(⟨sessions⟩, s', reply), by simp [happly, hreplies, hsessions]⟩

theorem Made.done (h : t.Made) (hdone : Done t args apply s t' s' reply) : t'.Made := by
  refine made_of_session fun c => ?_
  rcases hdone.session c with heq | ⟨-, heq | ⟨replies, heq, hset, -⟩⟩
  · rw [heq]
    exact h.session c
  · rw [heq]
    exact acknowledge_ne_nil (h.session c)
  · rw [heq]
    exact GoMap.set_ne_nil hset

end

/-! ### Runs -/

/-- The runs of `apply` in `Do`, with their replies. -/
def runs (t : Table) (args : PutArgs) (apply : σ → Option (σ × PutReply)) (s : σ) : List PutReply :=
  match t.doPut args (recording 0 apply) (s, []) with
  | some (_, (_, notes), _) => notes.map Prod.snd
  | none => []

section

variable {t t' : Table} {args : PutArgs} {apply : σ → Option (σ × PutReply)} {s s' : σ}
  {reply : PutReply}

/-- Taking notes changes nothing. -/
theorem doPut_recording (t : Table) (args : PutArgs) (apply : σ → Option (σ × PutReply)) (s : σ)
    (k : ℕ) (notes : List (ℕ × PutReply)) :
    (t.doPut args (recording k apply) (s, notes)).map (fun out => (out.1, out.2.1.1, out.2.2)) =
      t.doPut args apply s := by
  unfold doPut
  split
  · cases happly : apply s with
    | none => simp [recording, happly]
    | some out => simp [recording, happly]
  · split
    · rfl
    · dsimp only
      split
      · cases t.sessions.orMake.set args.clientID
          ((t.session args.clientID).acknowledge args.ack) <;> rfl
      · split
        · cases t.sessions.orMake.set args.clientID
            ((t.session args.clientID).acknowledge args.ack) <;> rfl
        · cases happly : apply s with
          | none => simp [recording, happly]
          | some out =>
              simp only [recording, happly]
              cases hreplies : ((t.session args.clientID).acknowledge args.ack).replies.set
                  args.sequence out.2 with
              | none => simp [hreplies]
              | some replies =>
                  simp only [hreplies, Option.bind_eq_bind, Option.bind_some]
                  cases t.sessions.orMake.set args.clientID
                    { (t.session args.clientID).acknowledge args.ack with replies := replies } <;>
                    rfl

theorem get_of_get_acknowledge {session : Session} {ack q : ℕ}
    (h : (session.acknowledge ack).replies.get q = some reply) :
    session.replies.get q = some reply := by
  unfold Session.acknowledge at h
  split at h
  · rw [GoMap.get_filter] at h
    split at h
    · exact h
    · cases h
  · exact h

theorem get_of_get_update {c ack : ℕ}
    (hsession : t'.session = Function.update t.session c ((t.session c).acknowledge ack)) {c' q : ℕ}
    (h : (t'.session c').replies.get q = some reply) :
    (t.session c').replies.get q = some reply := by
  rw [hsession] at h
  rcases eq_or_ne c' c with rfl | hne
  · rw [Function.update_self] at h
    exact get_of_get_acknowledge h
  · rwa [Function.update_of_ne hne] at h

/-- Whether `Do` ran the request of a client, and which replies the table
has then. -/
inductive Ran (t : Table) (args : PutArgs) (apply : σ → Option (σ × PutReply)) (s : σ) (t' : Table)
    (s' : σ) (reply : PutReply) : Prop
  | kept (hruns : t.runs args apply s = []) (hstate : s' = s)
      (hreply : reply = ⟨.errStaleRequest⟩ ∧
          args.sequence ≤ max (t.session args.clientID).ack args.ack ∨
        (t.session args.clientID).replies.get args.sequence = some reply)
      (hold : ∀ c q reply', (t'.session c).replies.get q = some reply' →
        (t.session c).replies.get q = some reply')
  | run (hruns : t.runs args apply s = [reply]) (happly : apply s = some (s', reply))
      (hnew : ∀ reply', ¬ t.Settled args.clientID args.sequence reply')
      (hkept : (t'.session args.clientID).replies.get args.sequence = some reply)
      (hold : ∀ c q reply', (t'.session c).replies.get q = some reply' →
        args.clientID = c ∧ args.sequence = q ∨ (t.session c).replies.get q = some reply')

theorem ran_of_doPut (hid : args.clientID ≠ 0) (h : t.doPut args apply s = some (t', s', reply)) :
    Ran t args apply s t' s' reply := by
  rw [← doPut_recording t args apply s 0 [], Option.map_eq_some_iff] at h
  obtain ⟨⟨t'', ⟨s'', notes⟩, reply'⟩, hrecorded, heq⟩ := h
  cases heq
  have hruns : t.runs args apply s = notes.map Prod.snd := by
    unfold runs
    rw [hrecorded]
  generalize hrecord : (s'', notes) = record at hrecorded
  have hdone := done_of_doPut hrecorded
  cases hdone with
  | unnumbered _ _ hid' => exact absurd hid' hid
  | malformed _ hbad =>
      cases hrecord
      refine .kept hruns rfl (Or.inl ⟨rfl, ?_⟩) fun _ _ _ h => h
      rcases hbad with hzero | hle
      · rw [hzero]
        exact Nat.zero_le _
      · exact hle.trans (le_max_right _ _)
  | stale _ _ _ _ hsession hstale =>
      cases hrecord
      refine .kept hruns rfl (Or.inl ⟨rfl, ?_⟩) fun _ _ _ h => get_of_get_update hsession h
      exact hstale.trans (Session.acknowledge_le ..)
  | cached _ _ _ hsession hlt hreply =>
      cases hrecord
      exact .kept hruns rfl (Or.inr hreply) fun _ _ _ h => get_of_get_update hsession h
  | run _ _ _ replies _ hreplies hsession hlt hnew happly =>
      obtain ⟨⟨s'', reply'⟩, happly', hpair⟩ := Option.bind_eq_some_iff.mp happly
      cases hrecord
      cases hpair
      refine .run hruns happly' (fun reply' hs => ?_) ?_ fun c q reply' h => ?_
      · rcases hs with hle | hget
        · exact absurd (hle.trans (Session.le_acknowledge ..)) (not_le.mpr hlt)
        · cases hnew.symm.trans hget
      · rw [hsession, Function.update_self]
        dsimp only
        rw [GoMap.get_set hreplies, if_pos rfl]
      · rw [hsession] at h
        rcases eq_or_ne c args.clientID with rfl | hne
        · rw [Function.update_self] at h
          dsimp only at h
          rw [GoMap.get_set hreplies] at h
          split at h
          · rename_i heq
            exact Or.inl ⟨rfl, heq.symm⟩
          · exact Or.inr (get_of_get_acknowledge h)
        · rw [Function.update_of_ne hne] at h
          exact Or.inr h

end

/-- What a table knows of a request that has been run with these
replies. -/
structure Recorded (t : Table) (c q : ℕ) (runs : List PutReply) : Prop where
  cached : ∀ reply, (t.session c).replies.get q = some reply → runs = [reply]
  settled : runs = [] ∨ ∃ reply, runs = [reply] ∧ t.Settled c q reply

section

variable {t t' : Table} {args : PutArgs} {apply : σ → Option (σ × PutReply)} {s s' : σ}
  {reply : PutReply} {c q : ℕ} {notes : List PutReply}

theorem Recorded.empty : Table.empty.Recorded c q [] :=
  ⟨fun _ h => (by cases h), Or.inl rfl⟩

theorem Recorded.length_le (h : t.Recorded c q notes) : notes.length ≤ 1 := by
  rcases h.settled with rfl | ⟨reply, rfl, -⟩
  · exact Nat.zero_le 1
  · exact le_rfl

/-- The runs of `c`'s request `q` when `Do` is called for `args`. -/
def runsFor (t : Table) (args : PutArgs) (apply : σ → Option (σ × PutReply)) (s : σ) (c q : ℕ) :
    List PutReply :=
  if args.clientID = c ∧ args.sequence = q then t.runs args apply s else []

theorem Recorded.doPut (h : t.Recorded c q notes) (hid : args.clientID ≠ 0)
    (hput : t.doPut args apply s = some (t', s', reply)) :
    t'.Recorded c q (notes ++ t.runsFor args apply s c q) := by
  have hsettled : ∀ {reply'}, t.Settled c q reply' → t'.Settled c q reply' :=
    (done_of_doPut hput).settled
  unfold runsFor
  cases ran_of_doPut hid hput with
  | kept hruns hstate hreply hold =>
      rw [hruns, ite_self, List.append_nil]
      refine ⟨fun reply' hget => h.cached reply' (hold c q reply' hget), ?_⟩
      exact h.settled.imp_right fun ⟨reply', hnotes, hs⟩ => ⟨reply', hnotes, hsettled hs⟩
  | run hruns happly hnew hkept hold =>
      rw [hruns]
      split
      · rename_i hsame
        obtain ⟨rfl, rfl⟩ := hsame
        have hnotes : notes = [] := by
          rcases h.settled with hnil | ⟨reply', -, hs⟩
          · exact hnil
          · exact absurd hs (hnew reply')
        rw [hnotes, List.nil_append]
        refine ⟨fun reply' hget => ?_, Or.inr ⟨reply, rfl, Or.inr hkept⟩⟩
        rw [Option.some.inj (hkept.symm.trans hget)]
      · rename_i hother
        rw [List.append_nil]
        refine ⟨fun reply' hget => ?_, ?_⟩
        · rcases hold c q reply' hget with hsame | hget
          · exact absurd hsame hother
          · exact h.cached reply' hget
        · exact h.settled.imp_right fun ⟨reply', hnotes, hs⟩ => ⟨reply', hnotes, hsettled hs⟩

/-- The request of a call that is not complete is always answered with
the reply of its one run. -/
theorem Recorded.active {ack : ℕ → ℕ} (h : t.Recorded args.clientID args.sequence notes)
    (hwithin : t.Within ack) (hid : args.clientID ≠ 0) (hargs : args.ack ≤ ack args.clientID)
    (hseq : ack args.clientID < args.sequence)
    (hput : t.doPut args apply s = some (t', s', reply)) :
    notes ++ t.runs args apply s = [reply] := by
  cases ran_of_doPut hid hput with
  | kept hruns hstate hreply hold =>
      rw [hruns, List.append_nil]
      rcases hreply with ⟨-, hle⟩ | hget
      · exact absurd (hle.trans (max_le (hwithin _) hargs)) (not_le.mpr hseq)
      · exact h.cached reply hget
  | run hruns happly hnew hkept hold =>
      rcases h.settled with rfl | ⟨reply', -, hs⟩
      · exact hruns
      · exact absurd hs (hnew reply')

theorem doPut_cached (hid : args.clientID ≠ 0) (hack : args.ack < args.sequence)
    (hsession : (t.session args.clientID).ack < args.sequence)
    (hget : (t.session args.clientID).replies.get args.sequence = some reply) :
    ∃ t', t.doPut args apply s = some (t', s, reply) := by
  have hlt : ((t.session args.clientID).acknowledge args.ack).ack < args.sequence :=
    (Session.acknowledge_le ..).trans_lt (max_lt hsession hack)
  have hget' : ((t.session args.clientID).acknowledge args.ack).replies.get args.sequence =
      some reply := by
    unfold Session.acknowledge
    split
    · rw [GoMap.get_filter, if_pos (decide_eq_true hack), hget]
    · exact hget
  obtain ⟨sessions, hset⟩ := GoMap.exists_set (GoMap.orMake_ne_nil t.sessions) args.clientID
    ((t.session args.clientID).acknowledge args.ack)
  have hzero : args.sequence ≠ 0 := (Nat.zero_le _).trans_lt hack |>.ne'
  refine ⟨⟨sessions⟩, ?_⟩
  simp [doPut, hid, hzero, not_le.mpr hack, not_le.mpr hlt, hget', hset]

/-- What `Do` does with a request that a table has run with these replies:
the request is not stale, and the reply there is, is still there and is
returned. -/
structure Answers (t : Table) (args : PutArgs) (apply : σ → Option (σ × PutReply)) (s : σ)
    (runs : List PutReply) : Prop where
  fresh : ∀ t' s' reply, t.doPut args apply s = some (t', s', reply) →
    reply.err ≠ .errStaleRequest
  cached : ∀ reply ∈ runs, (t.session args.clientID).replies.get args.sequence = some reply ∧
    ∃ t', t.doPut args apply s = some (t', s, reply)

theorem Recorded.answers {ack : ℕ → ℕ} (h : t.Recorded args.clientID args.sequence notes)
    (hwithin : t.Within ack) (hid : args.clientID ≠ 0) (hargs : args.ack ≤ ack args.clientID)
    (hseq : ack args.clientID < args.sequence)
    (hnotes : ∀ reply ∈ notes, reply.err ≠ .errStaleRequest)
    (happly : ∀ s' reply, apply s = some (s', reply) → reply.err ≠ .errStaleRequest) :
    t.Answers args apply s notes where
  fresh t' s' reply hput := by
    have hreply := h.active hwithin hid hargs hseq hput
    cases ran_of_doPut hid hput with
    | kept hruns =>
        rw [hruns, List.append_nil] at hreply
        exact hnotes reply (hreply ▸ List.mem_singleton_self _)
    | run hruns happly' => exact happly _ _ happly'
  cached reply hreply := by
    rcases h.settled with rfl | ⟨reply', rfl, hsettled⟩
    · cases hreply
    · obtain rfl := List.mem_singleton.mp hreply
      have hsession := (hwithin args.clientID).trans_lt hseq
      have hget := hsettled.resolve_left (not_le.mpr hsession)
      exact ⟨hget, doPut_cached hid (hargs.trans_lt hseq) hsession hget⟩

end

end RaftShardedKv.Dedup.Table
