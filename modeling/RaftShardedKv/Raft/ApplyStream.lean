import RaftShardedKv.Raft.Delivery

/-!
The apply channel over the life of a process.

A process sends what its applier claimed, one message after the other,
while other goroutines install snapshots, merge entries and fold the log.
`Stream` says that what is still to be sent fits to what was sent last.
Here the messages sent are put together: from the index that `Make`
restored they lead on without a gap, and each carries what the cluster
has committed.
-/

namespace RaftShardedKv

open TermLog Consensus Transition

variable {n : ℕ} {C : Type} [Labgob C]

/-- What server `i` has put on its apply channel in incarnation `k`. -/
def System.sent (s : System n C) (i : Fin n) (k : ℕ) : List (ApplyMsg C) :=
  s.applied.filterMap fun x => if x.1 = i ∧ x.2.1 = k then some x.2.2 else none

/-- A command is the one committed at its index; a snapshot is one that a
service took of the log committed up to its index. -/
def System.Carries (s : System n C) : ApplyMsg C → Prop
  | .command command index =>
      1 ≤ index ∧ ∃ e, s.committed[index - 1]? = some e ∧ e.command = command
  | .snapshot m =>
      (⟨m.snapshotIndex, m.snapshot, s.committed.take m.snapshotIndex⟩ : Taken C) ∈ s.taken

/-- Each message follows on the one before, the first one on index `a`. -/
def System.GapFree (s : System n C) : ℕ → List (ApplyMsg C) → Prop
  | _, [] => True
  | a, m :: ms => (Next a m ∧ s.Carries m) ∧ s.GapFree m.index ms

/-! ### What a step does to the channels -/

/-- **What a step does to the apply channels**: nothing, or a server sends
a message, or a server starts again. -/
theorem Effect.channel {s s' : System n C} {a : Action n C} (h : Effect s a s') :
    Silent s s' ∨
      (∃ i m rest, (s.procs i).applying = m :: rest ∧
        s'.procs = Function.update s.procs i
          { s.procs i with applying := rest, consumed := m.index } ∧
        s'.applied = s.applied ++ [(i, (s.procs i).incarnation, m)]) ∨
      ∃ i, Remade s s' i := by
  cases h with
  | silent hsilent => exact Or.inl hsilent
  | start _ hsilent => exact Or.inl hsilent
  | snapshot hsilent => exact Or.inl hsilent
  | send happlying hprocs happlied => exact Or.inr (Or.inl ⟨_, _, _, happlying, hprocs, happlied⟩)
  | restart hmade => exact Or.inr (Or.inr ⟨_, hmade⟩)
  | crash hmade => exact Or.inr (Or.inr ⟨_, hmade⟩)

/-! ### One incarnation -/

section

omit [Labgob C]

theorem Delivers.concat {ms : List (ApplyMsg C)} {a b : ℕ} (h : Delivers a ms b)
    {m : ApplyMsg C} (hm : Next b m) : Delivers a (ms ++ [m]) m.index := by
  induction ms generalizing a with
  | nil =>
      obtain rfl : a = b := h
      exact ⟨hm, rfl⟩
  | cons m' ms ih => exact ⟨h.1, ih h.2⟩

theorem Next.lt {a : ℕ} {m : ApplyMsg C} (h : Next a m) : a < m.index := by
  cases m with
  | command command index => exact h ▸ Nat.lt_succ_self a
  | snapshot m => exact h

theorem Delivers.increasing {ms : List (ApplyMsg C)} {a b : ℕ} (h : Delivers a ms b) :
    (∀ m ∈ ms, a < m.index) ∧ ms.Pairwise fun m m' => m.index < m'.index := by
  induction ms generalizing a with
  | nil => simp
  | cons m ms ih =>
      obtain ⟨habove, hpairs⟩ := ih h.2
      refine ⟨?_, List.pairwise_cons.mpr ⟨habove, hpairs⟩⟩
      rintro m' (_ | ⟨_, hm'⟩)
      · exact h.1.lt
      · exact h.1.lt.trans (habove m' hm')

theorem Delivers.gapFree {s : System n C} {ms : List (ApplyMsg C)} {a b : ℕ}
    (h : Delivers a ms b) (hcarries : ∀ m ∈ ms, s.Carries m) : s.GapFree a ms := by
  induction ms generalizing a with
  | nil => trivial
  | cons m ms ih =>
      exact ⟨⟨h.1, hcarries m List.mem_cons_self⟩,
        ih h.2 fun m' hm' => hcarries m' (List.mem_cons_of_mem m hm')⟩

end

/-- Incarnation `k` of server `i` was made with base `a`: what it sent
leads on from there, and if it still runs, to the last message sent. -/
structure Life (s : System n C) (i : Fin n) (k a : ℕ) : Prop where
  past : k ≤ (s.procs i).incarnation
  sent : ∃ b, Delivers a (s.sent i k) b ∧
    ((s.procs i).incarnation = k → b = (s.procs i).consumed)

theorem Life.step {s s' : System n C} {i : Fin n} {k a : ℕ} {act : Action n C}
    (h : Life s i k a) (hr : (raftSys n C).Reachable s) (hs : s.step act = some s') :
    Life s' i k a := by
  obtain ⟨hpast, b, hsent, hlast⟩ := h
  rcases (Effect.of_step hs).channel with hsilent | ⟨j, m, rest, happlying, hprocs, happlied⟩ |
    ⟨j, happlied, hfresh, hother⟩
  · refine ⟨(hsilent.incarnation i).symm ▸ hpast, b, ?_, ?_⟩
    · rwa [System.sent, hsilent.applied]
    · rwa [hsilent.incarnation, hsilent.consumed]
  · rcases eq_or_ne j i with rfl | hj
    · have hinc : (s'.procs j).incarnation = (s.procs j).incarnation := by simp [hprocs]
      have hconsumed : (s'.procs j).consumed = m.index := by simp [hprocs]
      rw [← hinc] at hpast
      rcases eq_or_ne (s.procs j).incarnation k with hlife | hlife
      · have hgrow : s'.sent j k = s.sent j k ++ [m] := by
          simp [System.sent, happlied, List.filterMap_append, hlife]
        have hnext := (message_next hr happlying).1
        rw [← hlast hlife] at hnext
        exact ⟨hpast, m.index, hgrow ▸ hsent.concat hnext, fun _ => hconsumed.symm⟩
      · have hsame : s'.sent j k = s.sent j k := by
          simp [System.sent, happlied, List.filterMap_append, hlife]
        exact ⟨hpast, b, hsame ▸ hsent, fun heq => absurd (hinc.symm.trans heq) hlife⟩
    · have hsame : s'.sent i k = s.sent i k := by
        simp [System.sent, happlied, List.filterMap_append, hj]
      have hproc : s'.procs i = s.procs i := by
        rw [hprocs, Function.update_of_ne hj.symm]
      exact ⟨hproc ▸ hpast, b, hsame ▸ hsent, by rwa [hproc]⟩
  · have hsame : s'.sent i k = s.sent i k := by rw [System.sent, happlied]; rfl
    rcases eq_or_ne i j with rfl | hj
    · have hinc : (s'.procs i).incarnation = (s.procs i).incarnation + 1 := by rw [hfresh]; rfl
      exact ⟨by omega, b, hsame ▸ hsent, fun heq => by omega⟩
    · rw [← hother i hj] at hpast hlast
      exact ⟨hpast, b, hsame ▸ hsent, hlast⟩

/-- Nothing has been sent by an incarnation to come. -/
theorem sent_le_incarnation {s : System n C} (hs : (raftSys n C).Reachable s) :
    ∀ x ∈ s.applied, x.2.1 ≤ (s.procs x.1).incarnation := by
  refine hs.invariant (I := fun s => ∀ x ∈ s.applied, x.2.1 ≤ (s.procs x.1).incarnation) ?_ ?_
  · rintro s rfl x hx
    cases hx
  · intro s a s' hr ih hstep x hx
    rcases (Effect.of_step hstep).channel with hsilent | ⟨j, m, rest, -, hprocs, happlied⟩ |
      ⟨j, happlied, hfresh, hother⟩
    · rw [hsilent.applied] at hx
      rw [hsilent.incarnation]
      exact ih x hx
    · have hinc : ∀ i, (s'.procs i).incarnation = (s.procs i).incarnation := by
        intro i
        rw [hprocs]
        rcases eq_or_ne i j with rfl | hj
        · rw [Function.update_self]
        · rw [Function.update_of_ne hj]
      rw [hinc]
      rw [happlied] at hx
      rcases List.mem_append.mp hx with hold | hnew
      · exact ih x hold
      · rw [List.mem_singleton.mp hnew]
    · rw [happlied] at hx
      refine (ih x hx).trans ?_
      rcases eq_or_ne x.1 j with hj | hj
      · rw [hj, hfresh]
        exact Nat.le_succ _
      · rw [hother x.1 hj]

/-- Moment `j` of a run is the first of its incarnation of server `i`. -/
def Begins (r : (raftSys n C).Run) (i : Fin n) (j : ℕ) : Prop :=
  ∀ j' < j, ((r.state j').procs i).incarnation ≠ ((r.state j).procs i).incarnation

theorem Life.begins {r : (raftSys n C).Run} {i : Fin n} {j : ℕ} (h : Begins r i j) :
    Life (r.state j) i ((r.state j).procs i).incarnation
      ((r.state j).rf i).lastIncludedIndex := by
  cases j with
  | zero =>
      have hinit : r.state 0 = System.init n C := r.start
      rw [hinit]
      exact ⟨le_rfl, 0, rfl, fun _ => rfl⟩
  | succ j =>
      have hnew := h j (Nat.lt_succ_self j)
      rcases r.next j with heq | ⟨a, hstep⟩
      · exact absurd (by rw [heq]) hnew
      have hle := sent_le_incarnation (r.reachable j)
      rcases (Effect.of_step hstep).channel with hsilent | ⟨k, m, rest, -, hprocs, -⟩ |
        ⟨k, happlied, hfresh, hother⟩
      · exact absurd (hsilent.incarnation i).symm hnew
      · refine absurd ?_ hnew
        rw [hprocs]
        rcases eq_or_ne i k with rfl | hk
        · rw [Function.update_self]
        · rw [Function.update_of_ne hk]
      · rcases eq_or_ne i k with rfl | hk
        · have hnone : (r.state (j + 1)).sent i ((r.state (j + 1)).procs i).incarnation = [] := by
            rw [System.sent, happlied, List.filterMap_eq_nil_iff]
            intro x hx
            rw [if_neg]
            rintro ⟨rfl, heq⟩
            have hx := hle x hx
            rw [heq, hfresh] at hx
            exact absurd hx (Nat.not_succ_le_self _)
          refine ⟨le_rfl, ((r.state (j + 1)).rf i).lastIncludedIndex, ?_, fun _ => ?_⟩
          · rw [hnone]
            rfl
          · rw [hfresh]
            rfl
        · exact absurd (by rw [hother i hk]) hnew

theorem carries_of_sent {s : System n C} (hs : (raftSys n C).Reachable s) {i : Fin n} {k : ℕ} :
    ∀ m ∈ s.sent i k, s.Carries m := by
  intro m hm
  obtain ⟨x, hx, hsome⟩ := List.mem_filterMap.mp hm
  obtain ⟨A, hA, h⟩ := exists_rel hs
  have hstands := h.records.applied x hx
  split at hsome
  · cases hsome
    generalize x.2.2 = m at hstands
    cases m with
    | command command index => exact hstands
    | snapshot m =>
        obtain ⟨P, hP⟩ := hstands
        obtain ⟨hlen, hpre⟩ := h.records.taken _ hP
        have hP' : P = s.committed.take m.snapshotIndex := by
          have htake := List.prefix_iff_eq_take.mp hpre
          rwa [hlen] at htake
        show (⟨_, _, s.committed.take m.snapshotIndex⟩ : Taken C) ∈ s.taken
        rwa [← hP']
  · cases hsome

/-- **The apply channel has no gaps.** What an incarnation sends leads on
from the index its server restored, message by message; each message
carries what is committed; and no message goes back behind another. -/
theorem apply_stream (r : (raftSys n C).Run) {i : Fin n} {j k : ℕ} (hbegin : Begins r i j)
    (hjk : j ≤ k) :
    let sent := (r.state k).sent i ((r.state j).procs i).incarnation
    (r.state k).GapFree ((r.state j).rf i).lastIncludedIndex sent ∧
      sent.Pairwise fun m m' => m.index < m'.index := by
  have hlife : Life (r.state k) i ((r.state j).procs i).incarnation
      ((r.state j).rf i).lastIncludedIndex :=
    (r.star hjk).preserves (P := fun s => Life s i _ _) (r.reachable j)
      (fun _ _ _ hr h hs => h.step hr hs) (.begins hbegin)
  obtain ⟨b, hsent, -⟩ := hlife.sent
  exact ⟨hsent.gapFree (carries_of_sent (r.reachable k)), hsent.increasing.2⟩

/-- Server 0 has a command committed and delivered, folds it, starts again
and has a second command committed and delivered. -/
def foldAndRestart : List (Action 2 Bool) :=
  twoLeaders.take 9 ++ [.snapshot 0 1 [7], .restart 0, .startElection 0, .deliver 0, .deliver 0,
    .start 0 false, .replicate 0 1, .deliver 0, .deliver 0, .claim 0, .send 0]

def foldAndRestartRun : (raftSys 2 Bool).Run :=
  Sys.Run.play (System.init 2 Bool) System.step foldAndRestart

theorem apply_stream_foldAndRestart :
    ((foldAndRestartRun.state 11).rf 0).lastIncludedIndex = 1 ∧
      (foldAndRestartRun.state 20).sent 0 1 = [.command (some false) 2] ∧
      (foldAndRestartRun.state 20).GapFree 1 ((foldAndRestartRun.state 20).sent 0 1) := by
  have hbase : ((foldAndRestartRun.state 11).rf 0).lastIncludedIndex = 1 := by decide +kernel
  have hlife : ((foldAndRestartRun.state 11).procs 0).incarnation = 1 := by decide +kernel
  have hbegin : Begins foldAndRestartRun 0 11 := by
    rw [Begins, hlife]
    decide +kernel
  have hstream := apply_stream foldAndRestartRun hbegin (show 11 ≤ 20 by decide)
  rw [hlife, hbase] at hstream
  exact ⟨hbase, by decide +kernel, hstream.1⟩

end RaftShardedKv
