import RaftShardedKv.Kv.Dedup
import RaftShardedKv.Lib.Checking

/-!
What the tests hold the services to: the model of `models1/kv.go`, over
the log that `kvtest1/porcupine.go` keeps of the calls of all clerks.

The model has one key only, since the log is checked key by key, and it
does not tell a key that is not there from one with no value and version
0. So it has no place for `ErrNoKey` as the answer to a `Put`: the tests
name a version other than 0 only for a key they know to be there.
-/

namespace RaftShardedKv.Oracle

open Linearizability
open scoped List

/-- `Op` is 0 for a `Get` and 1 for a `Put`. -/
structure KvInput (V : Type) where
  op : UInt8
  key : GoString
  value : GoString
  version : V
  deriving DecidableEq, Repr

structure KvOutput (V : Type) where
  value : GoString
  version : V
  err : Err
  deriving DecidableEq, Repr

structure KvState (V : Type) where
  value : GoString
  version : V
  deriving DecidableEq, Repr

section

variable {V ι : Type} [Zero V] [One V] [Add V] [DecidableEq V]

/-- `Init` and `Step` of `KvModel`. -/
def kvModel : Model (KvState V) (KvInput V) (KvOutput V) where
  init := ⟨[], 0⟩
  step st inp out :=
    if inp.op = 0 then (out.value = st.value, st)
    else if inp.op = 1 then
      if st.version = inp.version then
        (out.err = .ok || out.err = .errMaybe, ⟨inp.value, st.version + 1⟩)
      else (out.err = .errVersion || out.err = .errMaybe, st)
    else (false, st)

/-- `Partition` of `KvModel`. -/
def partition (history : List (Operation ι (KvInput V) (KvOutput V))) :
    List (List (Operation ι (KvInput V) (KvOutput V))) :=
  let keys := (history.map fun v => v.input.key).dedup.mergeSort fun a b => decide (a ≤ b)
  keys.map fun k => history.filter fun v => v.input.key = k

/-- `checkPorcupine` does not find the log illegal. -/
def Legal (history : List (Operation ι (KvInput V) (KvOutput V))) : Prop :=
  ∀ part ∈ partition history, kvModel.Ok part

/-! ### What `Get` and `Put` of the tests put in the log -/

def getInput (key : GoString) : KvInput V := ⟨0, key, [], 0⟩

def putInput (key value : GoString) (version : V) : KvInput V := ⟨1, key, value, version⟩

def putOutput (err : Err) : KvOutput V := ⟨[], 0, err⟩

end

/-! ### Versions that a client knows of -/

section

variable {V ι : Type} [One V] [Add V] [LE V]

/-- A call and its return show that the key has come to version `v`. -/
def ShownBy (key : GoString) (v : V) :
    Event ι (KvInput V) (KvOutput V) → Event ι (KvInput V) (KvOutput V) → Prop
  | .invoke i inp, .ret j out => i = j ∧ inp.key = key ∧
      (inp.op = 0 ∧ out.err = .ok ∧ v ≤ out.version ∨
        inp.op = 1 ∧ (out.err = .ok ∨ out.err = .errVersion ∨ out.err = .errMaybe) ∧
          v ≤ inp.version + 1)
  | _, _ => False

/-- Some call that has returned shows it. -/
def Shows (h : List (Event ι (KvInput V) (KvOutput V))) (key : GoString) (v : V) : Prop :=
  ∃ e ∈ h, ∃ e' ∈ h, ShownBy key v e e'

/-- A `Put` names version 0, or one that a call has shown before. -/
def Informed [Zero V] (h : List (Event ι (KvInput V) (KvOutput V))) : Prop :=
  ∀ k i inp, h[k]? = some (.invoke i inp) → inp.op = 1 → inp.version ≠ 0 →
    Shows (h.take k) inp.key inp.version

theorem Shows.exists_call {h : List (Event ι (KvInput V) (KvOutput V))} {key : GoString} {v : V}
    (hs : Shows h key v) : ∃ i inp out, .invoke i inp ∈ h ∧ .ret i out ∈ h ∧ inp.key = key ∧
      (inp.op = 0 ∧ out.err = .ok ∧ v ≤ out.version ∨
        inp.op = 1 ∧ (out.err = .ok ∨ out.err = .errVersion ∨ out.err = .errMaybe) ∧
          v ≤ inp.version + 1) := by
  obtain ⟨e, he, e', he', hby⟩ := hs
  cases e with
  | ret i out => cases hby
  | invoke i inp =>
      cases e' with
      | invoke j inp' => cases hby
      | ret j out =>
          obtain ⟨rfl, hkey, hshow⟩ := hby
          exact ⟨i, inp, out, he, he', hkey, hshow⟩

theorem Informed.mono [Zero V] {h h' : List (Event ι (KvInput V) (KvOutput V))} (hi : Informed h')
    (hh : h <+: h') : Informed h := by
  intro k i inp hk hop hversion
  have hlt := (List.getElem?_eq_some_iff.mp hk).1
  have hshows := hi k i inp ((Pool.getElem?_eq hh hlt).trans hk) hop hversion
  obtain ⟨rest, rfl⟩ := hh
  rwa [List.take_append_of_le_length hlt.le] at hshows

end

section decidable

variable {V ι : Type} [One V] [Add V] [LE V] [DecidableEq ι] [DecidableLE V]

instance decidableShownBy (key : GoString) (v : V) (e e' : Event ι (KvInput V) (KvOutput V)) :
    Decidable (ShownBy key v e e') :=
  match e, e' with
  | .invoke i inp, .ret j out => inferInstanceAs (Decidable (i = j ∧ inp.key = key ∧
      (inp.op = 0 ∧ out.err = .ok ∧ v ≤ out.version ∨
        inp.op = 1 ∧ (out.err = .ok ∨ out.err = .errVersion ∨ out.err = .errMaybe) ∧
          v ≤ inp.version + 1)))
  | .invoke .., .invoke .. => .isFalse id
  | .ret .., _ => .isFalse id

instance decidableShows (h : List (Event ι (KvInput V) (KvOutput V))) (key : GoString) (v : V) :
    Decidable (Shows h key v) :=
  inferInstanceAs (Decidable (∃ e ∈ h, ∃ e' ∈ h, ShownBy key v e e'))

end decidable

/-! ### Versioned maps -/

/-- The object is a map from keys to values with versions, and what is
told of it is true. -/
structure VersionedMap {V σ Op Res : Type} [Zero V] [One V] [Add V] (S : Spec σ Op Res)
    (input : Op → KvInput V) (told : Res → KvOutput V → Prop)
    (cell : σ → GoString → Option (KvState V)) : Prop where
  tells : ∀ r, ∃ out, told r out
  init : ∀ key, cell S.init key = none
  other : ∀ s op key, (input op).key ≠ key → cell (S.apply s op).1 key = cell s key
  get : ∀ s op out, (input op).op = 0 → told (S.apply s op).2 out →
    cell (S.apply s op).1 (input op).key = cell s (input op).key ∧
      out.value = ((cell s (input op).key).elim [] KvState.value) ∧
        (out.err = .ok → cell s (input op).key ≠ none)
  put : ∀ s op out, (input op).op ≠ 0 → told (S.apply s op).2 out → (input op).op = 1 ∧
    match cell s (input op).key with
    | none =>
        (input op).version = 0 ∧ (out.err = .ok ∨ out.err = .errMaybe) ∧
          cell (S.apply s op).1 (input op).key = some ⟨(input op).value, 0 + 1⟩ ∨
        (input op).version ≠ 0 ∧ out.err = .errNoKey
    | some st =>
        st.version = (input op).version ∧ (out.err = .ok ∨ out.err = .errMaybe) ∧
          cell (S.apply s op).1 (input op).key = some ⟨(input op).value, st.version + 1⟩ ∨
        st.version ≠ (input op).version ∧ (out.err = .errVersion ∨ out.err = .errMaybe) ∧
          cell (S.apply s op).1 (input op).key = some st

section

variable {V σ ι Op Res : Type} [Zero V] [One V] [Add V] [DecidableEq V] {S : Spec σ Op Res}
  {input : Op → KvInput V} {told : Res → KvOutput V → Prop}
  {cell : σ → GoString → Option (KvState V)}

/-- A `Put` names version 0 or a key that is there. -/
def Fine (input : Op → KvInput V) (cell : σ → GoString → Option (KvState V)) (s : σ) (op : Op) :
    Prop :=
  (input op).op = 1 → (input op).version ≠ 0 → cell s (input op).key ≠ none

theorem VersionedMap.follows (hS : VersionedMap S input told cell) (key : GoString) :
    Follows S kvModel input told (fun inp => inp.key = key) (Fine input cell) fun s m =>
      m = (cell s key).getD ⟨[], 0⟩ := by
  refine ⟨by rw [hS.init]; rfl, fun {s m op} hm hkeep => ?_,
    fun {s m op out} hm hkeep hfine htold => ?_⟩
  · rw [hS.other s op key (by simpa using hkeep)]
    exact hm
  · obtain rfl : (input op).key = key := by simpa using hkeep
    subst hm
    by_cases hop : (input op).op = 0
    · obtain ⟨hcell, hvalue, -⟩ := hS.get s op out hop htold
      simp only [kvModel, hop, if_pos, hcell, hvalue, and_true]
      cases cell s (input op).key <;> simp
    · obtain ⟨hone, hput⟩ := hS.put s op out hop htold
      have hpresent := hfine hone
      cases hc : cell s (input op).key with
      | none =>
          rw [hc] at hput
          rcases hput with ⟨hzero, herr, hcell⟩ | ⟨hne, -⟩
          · simp [kvModel, hone, hzero, herr, hcell]
          · exact absurd hc (hpresent hne)
      | some st =>
          rw [hc] at hput
          rcases hput with ⟨hversion, herr, hcell⟩ | ⟨hversion, herr, hcell⟩
          · simp [kvModel, hone, hversion, herr, hcell]
          · simp [kvModel, hone, hversion, herr, hcell]

omit [DecidableEq V] in
theorem VersionedMap.stays (hS : VersionedMap S input told cell) {s : σ} {key : GoString}
    (hs : cell s key ≠ none) (op : Op) : cell (S.apply s op).1 key ≠ none := by
  by_cases hkey : (input op).key = key
  · subst hkey
    obtain ⟨out, htold⟩ := hS.tells (S.apply s op).2
    by_cases hop : (input op).op = 0
    · rwa [(hS.get s op out hop htold).1]
    · obtain ⟨st, hst⟩ := Option.ne_none_iff_exists'.mp hs
      have hput := (hS.put s op out hop htold).2
      rw [hst] at hput
      rcases hput with ⟨-, -, hcell⟩ | ⟨-, -, hcell⟩ <;> simp [hcell]
  · rwa [hS.other s op key hkey]

omit [DecidableEq V] in
theorem VersionedMap.stays_run (hS : VersionedMap S input told cell) {s : σ} {key : GoString}
    (hs : cell s key ≠ none) (l : List (ι × Op × Res)) : cell (S.run s l) key ≠ none := by
  induction l generalizing s with
  | nil => exact hs
  | cons x l ih => exact ih (hS.stays hs x.2.1)

omit [DecidableEq V] in
theorem VersionedMap.shown (hS : VersionedMap S input told cell) {s : σ} {op : Op}
    {out : KvOutput V} (htold : told (S.apply s op).2 out)
    (hshow : (input op).op = 0 ∧ out.err = .ok ∨
      (input op).op = 1 ∧ (out.err = .ok ∨ out.err = .errVersion ∨ out.err = .errMaybe)) :
    cell (S.apply s op).1 (input op).key ≠ none := by
  rcases hshow with ⟨hop, herr⟩ | ⟨hop, herr⟩
  · obtain ⟨hcell, -, hfound⟩ := hS.get s op out hop htold
    rw [hcell]
    exact hfound herr
  · have hput := (hS.put s op out (by simp [hop]) htold).2
    cases hc : cell s (input op).key with
    | none =>
        rw [hc] at hput
        rcases hput with ⟨-, -, hcell⟩ | ⟨-, hno⟩
        · simp [hcell]
        · simp [hno] at herr
    | some st =>
        rw [hc] at hput
        rcases hput with ⟨-, -, hcell⟩ | ⟨-, -, hcell⟩ <;> simp [hcell]

variable [DecidableEq ι] [LE V] {h : List (Event ι Op Res)}
  {h' : List (Event ι (KvInput V) (KvOutput V))}

omit [DecidableEq V] in
/-- What a client has been shown before it calls `Put` has taken effect
before the `Put` does. -/
theorem VersionedMap.fine (hS : VersionedMap S input told cell)
    (hh : List.Forall₂ (Event.Told input told) h h') (hw : WellFormed h) (hi : Informed h')
    {l₁ l₂ : List (ι × Op × Res)} {x : ι × Op × Res} (hl : Linearization S h (l₁ ++ x :: l₂)) :
    Fine input cell (S.run S.init l₁) x.2.1 := by
  intro hop hversion
  obtain ⟨k, hk⟩ := List.mem_iff_getElem?.mp (hl.invoked x (by simp))
  have hk' : h'[k]? = some (.invoke x.1 (input x.2.1)) := (told_invoke_iff hh).mpr ⟨_, hk, rfl⟩
  obtain ⟨i, inp, out, hinvoke, hret, hkey, hshow⟩ := (hi _ _ _ hk' hop hversion).exists_call
  -- the call that shows it, in the history and in the order
  obtain ⟨j, hj⟩ := List.mem_iff_getElem?.mp hinvoke
  obtain ⟨m, hm⟩ := List.mem_iff_getElem?.mp hret
  rw [List.getElem?_take] at hj hm
  split at hj
  · split at hm
    · rename_i hmk
      obtain ⟨op, hop', rfl⟩ := (told_invoke_iff hh).mp hj
      obtain ⟨r, hr, htold⟩ := told_ret hh hm
      obtain ⟨op', hmem⟩ := hl.earlier (pair_sublist_of_lt hr hk hmk)
      have hinvoked := hl.invoked (i, op', r) (List.mem_append_left _ hmem)
      obtain rfl := hw.invoke_unique (List.mem_of_getElem? hop') hinvoked
      obtain ⟨a, b, rfl⟩ := List.append_of_mem hmem
      have hlegal := hl.legal
      rw [List.append_assoc, List.cons_append] at hlegal
      have hresult : r = (S.apply (S.run S.init a) op).2 := hlegal.result
      rw [Spec.run_append, ← hkey]
      refine hS.stays_run (hS.shown (hresult ▸ htold) ?_) b
      exact hshow.imp (fun hget => ⟨hget.1, hget.2.1⟩) fun hput => ⟨hput.1, hput.2.1⟩
    · cases hm
  · cases hj

/-- **The tests accept a versioned map.** What is told of a linearizable
history in which every call has returned is legal, if the clients name
versions that they have been shown. -/
theorem VersionedMap.legal (hS : VersionedMap S input told cell)
    (hh : List.Forall₂ (Event.Told input told) h h') (hw : WellFormed h) (hc : Complete h)
    (hl : Linearizable S h) (hi : Informed h') : Legal (operations h') := by
  intro part hpart
  obtain ⟨key, -, rfl⟩ := List.mem_map.mp hpart
  obtain ⟨l, hl⟩ := hl
  refine (hS.follows key).ok hh hw hc hl fun l₁ x l₂ heq => ?_
  rw [heq] at hl
  exact hS.fine hh hw hi hl

end

end RaftShardedKv.Oracle
