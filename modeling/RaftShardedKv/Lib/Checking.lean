import RaftShardedKv.Lib.Linearizability

/-!
What a checker of linearizability is given, and what it looks for.

A checker sees the calls that have returned, each with the times of its
call and of its return, and it knows the object by a model that judges
an output: it may accept several of them. It says yes if it finds an
order of the calls that no two times contradict and that the model
accepts.

A trace whose calls have all returned has such an order, if the model
follows the object; also where what was reported tells less than the
object did, and where only some of the calls are looked at.
-/

namespace RaftShardedKv.Linearizability

open scoped List

/-- A call that has returned. -/
structure Operation (ι In Out : Type*) where
  id : ι
  input : In
  output : Out
  call : ℕ
  ret : ℕ
  deriving DecidableEq, Repr

structure Model (τ In Out : Type*) where
  init : τ
  step : τ → In → Out → Bool × τ

variable {σ τ ι Op Res In Out : Type*}

/-- The outputs are accepted one after the other. -/
def Model.Accepts (M : Model τ In Out) : τ → List (Operation ι In Out) → Prop
  | _, [] => True
  | s, o :: l => (M.step s o.input o.output).1 = true ∧ Accepts M (M.step s o.input o.output).2 l

def Model.Ok (M : Model τ In Out) (ops : List (Operation ι In Out)) : Prop :=
  ∃ l, l ~ ops ∧ (l.Pairwise fun a b => ¬ b.ret < a.call) ∧ M.Accepts M.init l

/-! ### The log of the calls -/

/-- Who made a call notes when, and adds the call to the log when it
returns. -/
structure OpLog (ι Op Res : Type*) where
  now : ℕ
  started : ι → Option (Op × ℕ)
  operations : List (Operation ι Op Res)

def OpLog.empty : OpLog ι Op Res := ⟨0, fun _ => none, []⟩

section

variable [DecidableEq ι]

def OpLog.record (log : OpLog ι Op Res) : Event ι Op Res → OpLog ι Op Res
  | .invoke i op =>
      { log with now := log.now + 1, started := Function.update log.started i (some (op, log.now)) }
  | .ret i r =>
      match log.started i with
      | none => { log with now := log.now + 1 }
      | some (op, call) =>
          { log with
            now := log.now + 1
            operations := log.operations ++ [⟨i, op, r, call, log.now⟩] }

def opLog (h : List (Event ι Op Res)) : OpLog ι Op Res := h.foldl OpLog.record .empty

def operations (h : List (Event ι Op Res)) : List (Operation ι Op Res) := (opLog h).operations

theorem opLog_concat (h : List (Event ι Op Res)) (e : Event ι Op Res) :
    opLog (h ++ [e]) = (opLog h).record e := by
  simp [opLog]

end

/-- A call is made once, and returns once after that. -/
inductive WellFormed : List (Event ι Op Res) → Prop
  | nil : WellFormed []
  | invoke {h} (hw : WellFormed h) (i : ι) (op : Op) (hfresh : ∀ op', .invoke i op' ∉ h) :
      WellFormed (h ++ [.invoke i op])
  | ret {h} (hw : WellFormed h) (i : ι) (op : Op) (r : Res) (hinvoked : .invoke i op ∈ h)
      (hfresh : ∀ r', .ret i r' ∉ h) : WellFormed (h ++ [.ret i r])

theorem Trace.wellFormed {S : Spec σ Op Res} {t : List (Event ι Op Res ⊕ (ι × Op × Res))}
    (h : Trace S t) : WellFormed (history t) := by
  induction h with
  | nil => exact .nil
  | invoke h i op hfresh ih =>
      rw [history_event]
      exact ih.invoke i op hfresh
  | effect h i op hinvoked honce ih => rwa [history_effect]
  | ret h i op r heffect hfresh ih =>
      rw [history_event]
      exact ih.ret i op r (h.invoked _ heffect) hfresh

theorem WellFormed.invoked {h : List (Event ι Op Res)} (hw : WellFormed h) {i : ι} {r : Res}
    (hr : .ret i r ∈ h) : ∃ op, .invoke i op ∈ h := by
  induction hw with
  | nil => cases hr
  | invoke hw j op hfresh ih =>
      obtain ⟨op', hop⟩ := ih (by simpa using hr)
      exact ⟨op', List.mem_append_left _ hop⟩
  | ret hw j op r' hinvoked hfresh ih =>
      rcases List.mem_append.mp hr with hr | hr
      · obtain ⟨op', hop⟩ := ih hr
        exact ⟨op', List.mem_append_left _ hop⟩
      · cases List.mem_singleton.mp hr
        exact ⟨op, List.mem_append_left _ hinvoked⟩

/-- The log of a history. -/
structure Logs (h : List (Event ι Op Res)) (log : OpLog ι Op Res) : Prop where
  now : log.now = h.length
  started : ∀ i op k, log.started i = some (op, k) ↔ h[k]? = some (.invoke i op)
  mem : ∀ o, o ∈ log.operations ↔
    h[o.call]? = some (.invoke o.id o.input) ∧ h[o.ret]? = some (.ret o.id o.output)
  nodup : (log.operations.map Operation.id).Nodup

theorem getElem?_concat_iff {α : Type*} {l : List α} {x y : α} {k : ℕ} :
    (l ++ [x])[k]? = some y ↔ l[k]? = some y ∨ k = l.length ∧ x = y := by
  constructor
  · intro hk
    rcases Pool.concat_cases hk with hk | ⟨heq, hx⟩
    · exact Or.inl hk
    · exact Or.inr ⟨heq, hx.symm⟩
  · rintro (hk | ⟨rfl, rfl⟩)
    · exact Pool.append hk _
    · exact List.getElem?_concat_length

section

variable [DecidableEq ι] {h : List (Event ι Op Res)}

theorem WellFormed.logs (hw : WellFormed h) : Logs h (opLog h) := by
  induction hw with
  | nil => exact ⟨rfl, by simp [opLog, OpLog.empty], by simp [opLog, OpLog.empty], .nil⟩
  | @invoke h hw i op hfresh ih =>
      rw [opLog_concat]
      refine ⟨?_, fun j op' k => ?_, fun o => ?_, ih.nodup⟩
      · simp [OpLog.record, ih.now]
      · simp only [OpLog.record, Function.update_apply, getElem?_concat_iff, ← ih.started]
        split
        · rename_i heq
          subst heq
          have hnone : (opLog h).started j = none := by
            by_contra hsome
            obtain ⟨⟨op₀, k₀⟩, hstarted⟩ := Option.ne_none_iff_exists'.mp hsome
            exact hfresh op₀ (List.mem_of_getElem? ((ih.started j op₀ k₀).mp hstarted))
          simp [hnone, ih.now, and_comm, eq_comm]
        · rename_i hne
          simp [Ne.symm hne]
      · simp only [OpLog.record, ih.mem, getElem?_concat_iff]
        constructor
        · rintro ⟨hcall, hret⟩
          exact ⟨Or.inl hcall, Or.inl hret⟩
        · rintro ⟨hcall | ⟨-, hnew⟩, hret | ⟨-, hret⟩⟩
          · exact ⟨hcall, hret⟩
          · cases hret
          · obtain ⟨op', hop⟩ := hw.invoked (List.mem_of_getElem? hret)
            rw [← (Event.invoke.inj hnew).1] at hop
            exact absurd hop (hfresh op')
          · cases hret
  | @ret h hw i op r hinvoked hfresh ih =>
      obtain ⟨k, hk⟩ := List.mem_iff_getElem?.mp hinvoked
      have hstarted := (ih.started i op k).mpr hk
      rw [opLog_concat]
      simp only [OpLog.record, hstarted]
      refine ⟨?_, fun j op' k' => ?_, fun o => ?_, ?_⟩
      · simp [ih.now]
      · simp [getElem?_concat_iff, ih.started]
      · simp only [List.mem_append, List.mem_singleton, ih.mem, getElem?_concat_iff, ih.now]
        constructor
        · rintro (⟨hcall, hret⟩ | rfl)
          · exact ⟨Or.inl hcall, Or.inl hret⟩
          · exact ⟨Or.inl hk, Or.inr ⟨rfl, rfl⟩⟩
        · rintro ⟨hcall | ⟨-, hcall⟩, hret | ⟨hat, hret⟩⟩
          · exact Or.inl ⟨hcall, hret⟩
          · obtain ⟨hid, hout⟩ := Event.ret.inj hret
            have hsame := hstarted.symm.trans (hid ▸ (ih.started _ _ _).mpr hcall)
            obtain ⟨hop, hcallAt⟩ := Prod.mk.inj (Option.some.inj hsame)
            cases o
            simp_all
          · cases hcall
          · cases hcall
      · rw [List.map_append, List.nodup_append]
        refine ⟨ih.nodup, by simp, ?_⟩
        intro j hj j' hj' heq
        obtain ⟨o, ho, rfl⟩ := List.mem_map.mp hj
        rw [List.map_singleton, List.mem_singleton] at hj'
        subst hj'
        exact hfresh o.output (heq ▸ List.mem_of_getElem? ((ih.mem o).mp ho).2)

theorem WellFormed.invoke_unique (hw : WellFormed h) {i : ι} {op op' : Op}
    (hop : .invoke i op ∈ h) (hop' : .invoke i op' ∈ h) : op = op' := by
  obtain ⟨k, hk⟩ := List.mem_iff_getElem?.mp hop
  obtain ⟨k', hk'⟩ := List.mem_iff_getElem?.mp hop'
  have hsame := ((hw.logs.started i op k).mpr hk).symm.trans ((hw.logs.started i op' k').mpr hk')
  exact (Prod.mk.inj (Option.some.inj hsame)).1

theorem WellFormed.mem_operations (hw : WellFormed h) (o : Operation ι Op Res) :
    o ∈ operations h ↔
      h[o.call]? = some (.invoke o.id o.input) ∧ h[o.ret]? = some (.ret o.id o.output) :=
  hw.logs.mem o

end

/-! ### From a linearization to an order of the log -/

theorem pair_sublist_of_lt {α : Type*} {l : List α} {x y : α} {j k : ℕ} (hx : l[j]? = some x)
    (hy : l[k]? = some y) (hlt : j < k) : [x, y] <+ l := by
  have hfirst : x ∈ l.take k := List.mem_of_getElem? ((List.getElem?_take_of_lt hlt).trans hx)
  have hlast : y ∈ l.drop k := by
    refine List.mem_of_getElem? (i := 0) ?_
    rw [List.getElem?_drop, Nat.add_zero, hy]
  rw [← List.take_append_drop k l]
  exact (List.singleton_sublist.mpr hfirst).append (List.singleton_sublist.mpr hlast)

theorem forall₂_getElem? {α β : Type*} {R : α → β → Prop} {l : List α} {l' : List β}
    (h : List.Forall₂ R l l') (k : ℕ) : Option.Rel R l[k]? l'[k]? := by
  induction h generalizing k with
  | nil => exact .none
  | cons hx h ih =>
      cases k with
      | zero => exact .some hx
      | succ k => exact ih k

theorem not_pair_sublist_swap {α : Type*} {l : List α} (hl : l.Nodup) {x y : α}
    (hxy : [x, y] <+ l) : ¬ [y, x] <+ l := by
  intro hyx
  induction l with
  | nil => cases hxy
  | cons z l ih =>
      rw [List.nodup_cons] at hl
      cases hxy with
      | cons _ hxy =>
          cases hyx with
          | cons _ hyx => exact ih hl.2 hxy hyx
          | cons_cons _ hyx => exact hl.1 (hxy.subset (by simp))
      | cons_cons _ hxy =>
          cases hyx with
          | cons _ hyx => exact hl.1 (hyx.subset (by simp))
          | cons_cons _ hyx => exact hl.1 (hyx.subset (by simp))

def Complete (h : List (Event ι Op Res)) : Prop := ∀ i op, .invoke i op ∈ h → ∃ r, .ret i r ∈ h

def Operation.entry (o : Operation ι Op Res) : ι × Op × Res := (o.id, o.input, o.output)

section

variable [DecidableEq ι] {S : Spec σ Op Res} {h : List (Event ι Op Res)} {l : List (ι × Op × Res)}

theorem Linearization.exists_operation (hl : Linearization S h l) (hw : WellFormed h)
    (hc : Complete h) {x : ι × Op × Res} (hx : x ∈ l) : ∃ o ∈ operations h, o.entry = x := by
  have hinvoked := hl.invoked x hx
  obtain ⟨r, hr⟩ := hc x.1 x.2.1 hinvoked
  obtain ⟨op, hop⟩ := hl.returned x.1 r hr
  have hentry : (x.1, op, r) = x := List.inj_on_of_nodup_map hl.nodup hop hx rfl
  rw [← hentry] at hinvoked
  obtain ⟨k, hk⟩ := List.mem_iff_getElem?.mp hinvoked
  obtain ⟨j, hj⟩ := List.mem_iff_getElem?.mp hr
  exact ⟨⟨x.1, op, r, k, j⟩, (hw.mem_operations _).mpr ⟨hk, hj⟩, hentry⟩

theorem Linearization.entry_mem (hl : Linearization S h l) (hw : WellFormed h)
    {o : Operation ι Op Res}
    (ho : o ∈ operations h) : o.entry ∈ l := by
  obtain ⟨hcall, hret⟩ := (hw.mem_operations o).mp ho
  obtain ⟨op, hop⟩ := hl.returned o.id o.output (List.mem_of_getElem? hret)
  rw [Operation.entry, hw.invoke_unique (List.mem_of_getElem? hcall) (hl.invoked _ hop)]
  exact hop

theorem Linearization.exists_order (hl : Linearization S h l) (hw : WellFormed h)
    (hc : Complete h) : ∃ ops : List (Operation ι Op Res), ops ~ operations h ∧
      (ops.Pairwise fun a b => ¬ b.ret < a.call) ∧ ops.map Operation.entry = l := by
  have hex : ∀ x : ι × Op × Res, ∃ o : Operation ι Op Res, x ∈ l →
      o ∈ operations h ∧ o.entry = x := by
    intro x
    by_cases hx : x ∈ l
    · obtain ⟨o, ho, hentry⟩ := hl.exists_operation hw hc hx
      exact ⟨o, fun _ => ⟨ho, hentry⟩⟩
    · exact ⟨⟨x.1, x.2.1, x.2.2, 0, 0⟩, fun hmem => absurd hmem hx⟩
  choose f hf using hex
  have hentries : (l.map f).map Operation.entry = l := by
    rw [List.map_map]
    exact (List.map_congr_left fun x hx => (hf x hx).2).trans (List.map_id l)
  have hunique := List.inj_on_of_nodup_map hw.logs.nodup
  refine ⟨l.map f, ?_, ?_, hentries⟩
  · have hnodup : ((l.map f).map Operation.entry).Nodup := by
      rw [hentries]
      exact .of_map _ hl.nodup
    refine (List.perm_ext_iff_of_nodup (.of_map _ hnodup) (.of_map _ hw.logs.nodup)).mpr fun o => ?_
    constructor
    · intro ho
      obtain ⟨x, hx, rfl⟩ := List.mem_map.mp ho
      exact (hf x hx).1
    · intro ho
      have hmem := hl.entry_mem hw ho
      refine List.mem_map.mpr ⟨o.entry, hmem, ?_⟩
      exact hunique (hf _ hmem).1 ho (congrArg Prod.fst (hf _ hmem).2)
  · rw [List.pairwise_map, List.pairwise_iff_forall_sublist]
    intro x y hxy hlt
    have hx : x ∈ l := hxy.subset (by simp)
    have hy : y ∈ l := hxy.subset (by simp)
    have hcall := ((hw.mem_operations _).mp (hf x hx).1).1
    have hret := ((hw.mem_operations _).mp (hf y hy).1).2
    have hids : ∀ z ∈ l, z.1 = (f z).id := fun z hz => congrArg Prod.fst (hf z hz).2.symm
    refine not_pair_sublist_swap (.of_map _ hl.nodup) hxy ?_
    exact hl.order _ _ _ _ (pair_sublist_of_lt hret hcall hlt) y hy x hx (hids y hy) (hids x hx)

end

theorem Spec.run_append (S : Spec σ Op Res) (s : σ) (l₁ l₂ : List (ι × Op × Res)) :
    S.run s (l₁ ++ l₂) = S.run (S.run s l₁) l₂ :=
  List.foldl_append

theorem Spec.Legal.result {S : Spec σ Op Res} {s : σ} {l₁ l₂ : List (ι × Op × Res)}
    {x : ι × Op × Res} (h : S.Legal s (l₁ ++ x :: l₂)) :
    x.2.2 = (S.apply (S.run s l₁) x.2.1).2 := by
  induction l₁ generalizing s with
  | nil => exact h.1
  | cons y l₁ ih => exact ih h.2

theorem Linearization.earlier {S : Spec σ Op Res} {h : List (Event ι Op Res)}
    {l₁ l₂ : List (ι × Op × Res)} {x : ι × Op × Res} (hl : Linearization S h (l₁ ++ x :: l₂))
    {i : ι} {r : Res} {op : Op} (hr : [.ret i r, .invoke x.1 op] <+ h) :
    ∃ op', (i, op', r) ∈ l₁ := by
  obtain ⟨op', hop⟩ := hl.returned i r (hr.subset (by simp))
  have hsub := hl.order i r x.1 op hr _ hop x (by simp) rfl rfl
  refine ⟨op', ?_⟩
  rcases List.mem_append.mp hop with hmem | hmem
  · exact hmem
  · exfalso
    have hall : (l₁ ++ x :: l₂).Nodup := .of_map _ hl.nodup
    rcases List.mem_cons.mp hmem with heq | hlater
    · rw [heq] at hsub
      have hne := List.pairwise_iff_forall_sublist.mp hall hsub
      exact hne rfl
    · refine not_pair_sublist_swap hall hsub ?_
      exact ((List.singleton_sublist.mpr hlater).cons_cons x).trans (List.sublist_append_right _ _)

/-! ### What is told of a history -/

/-- An event in the words of the model; the output tells of the result
what `told` says. -/
inductive Event.Told (input : Op → In) (told : Res → Out → Prop) :
    Event ι Op Res → Event ι In Out → Prop
  | invoke (i : ι) (op : Op) : Event.Told input told (.invoke i op) (.invoke i (input op))
  | ret (i : ι) {r : Res} {out : Out} (htold : told r out) :
      Event.Told input told (.ret i r) (.ret i out)

/-- An event in other words. -/
def Event.map (input : Op → In) (output : Res → Out) : Event ι Op Res → Event ι In Out
  | .invoke i op => .invoke i (input op)
  | .ret i r => .ret i (output r)

structure Operation.Told (input : Op → In) (told : Res → Out → Prop) (o : Operation ι Op Res)
    (o' : Operation ι In Out) : Prop where
  id : o'.id = o.id
  input : o'.input = input o.input
  output : told o.output o'.output
  call : o'.call = o.call
  ret : o'.ret = o.ret

section

variable {input : Op → In} {told : Res → Out → Prop}

section

variable {h : List (Event ι Op Res)} {h' : List (Event ι In Out)}
  (hh : List.Forall₂ (Event.Told input told) h h')

include hh

theorem told_invoke_iff {k : ℕ} {i : ι} {inp : In} :
    h'[k]? = some (.invoke i inp) ↔ ∃ op, h[k]? = some (.invoke i op) ∧ inp = input op := by
  have hrel := forall₂_getElem? hh k
  generalize h[k]? = e at hrel ⊢
  generalize h'[k]? = e' at hrel ⊢
  cases hrel with
  | none => simp
  | some htold =>
      cases htold with
      | invoke j op =>
          constructor
          · intro heq
            cases heq
            exact ⟨op, rfl, rfl⟩
          · rintro ⟨op', heq, rfl⟩
            cases heq
            rfl
      | ret j htold => simp

theorem told_ret {k : ℕ} {i : ι} {out : Out} (hk : h'[k]? = some (.ret i out)) :
    ∃ r, h[k]? = some (.ret i r) ∧ told r out := by
  have hrel := forall₂_getElem? hh k
  rw [hk] at hrel
  generalize h[k]? = e at hrel ⊢
  cases hrel with
  | some htold =>
      cases htold with
      | ret j htold => exact ⟨_, rfl, htold⟩

theorem Complete.of_told (hc : Complete h') : Complete h := by
  intro i op hop
  obtain ⟨k, hk⟩ := List.mem_iff_getElem?.mp hop
  obtain ⟨out, hout⟩ := hc i (input op)
    (List.mem_of_getElem? ((told_invoke_iff hh).mpr ⟨op, hk, rfl⟩))
  obtain ⟨j, hj⟩ := List.mem_iff_getElem?.mp hout
  obtain ⟨r, hr, -⟩ := told_ret hh hj
  exact ⟨r, List.mem_of_getElem? hr⟩

end

theorem times_told {ops : List (Operation ι Op Res)} {ops' : List (Operation ι In Out)}
    (hops : List.Forall₂ (Operation.Told input told) ops ops') :
    ops'.map (fun o => (o.call, o.ret)) = ops.map fun o => (o.call, o.ret) := by
  induction hops with
  | nil => rfl
  | cons ho hops ih => rw [List.map_cons, List.map_cons, ih, ho.call, ho.ret]

theorem operations_told [DecidableEq ι] {h : List (Event ι Op Res)} {h' : List (Event ι In Out)}
    (hh : List.Forall₂ (Event.Told input told) h h') :
    List.Forall₂ (Operation.Told input told) (operations h) (operations h') := by
  have hlogs : ∀ {log : OpLog ι Op Res} {log' : OpLog ι In Out}, log'.now = log.now →
      (∀ i, log'.started i = (log.started i).map fun x => (input x.1, x.2)) →
      List.Forall₂ (Operation.Told input told) log.operations log'.operations →
      List.Forall₂ (Operation.Told input told) (h.foldl OpLog.record log).operations
        (h'.foldl OpLog.record log').operations := by
    induction hh with
    | nil => exact fun _ _ hops => hops
    | cons he hh ih =>
        intro log log' hnow hstarted hops
        rw [List.foldl_cons, List.foldl_cons]
        cases he with
        | invoke i op =>
            refine ih (congrArg (· + 1) hnow) (fun j => ?_) hops
            simp only [OpLog.record, Function.update_apply, hnow]
            split
            · rfl
            · exact hstarted j
        | ret i htold =>
            have hi := hstarted i
            cases hlog : log.started i with
            | none =>
                simp only [OpLog.record, hlog, hi, Option.map_none]
                exact ih (congrArg (· + 1) hnow) hstarted hops
            | some x =>
                simp only [OpLog.record, hlog, hi, Option.map_some]
                refine ih (congrArg (· + 1) hnow) hstarted ?_
                exact List.rel_append hops (.cons ⟨rfl, rfl, htold, rfl, hnow⟩ .nil)
  exact hlogs rfl (fun _ => rfl) .nil

end

/-! ### A model that follows the object -/

/-- The model keeps up with the object on the inputs it is shown, where
the object is in a state in which the operation is fine. -/
structure Follows (S : Spec σ Op Res) (M : Model τ In Out) (input : Op → In)
    (told : Res → Out → Prop) (keep : In → Bool) (fine : σ → Op → Prop) (R : σ → τ → Prop) :
    Prop where
  init : R S.init M.init
  skip : ∀ {s m op}, R s m → keep (input op) = false → R (S.apply s op).1 m
  step : ∀ {s m op out}, R s m → keep (input op) = true → fine s op → told (S.apply s op).2 out →
    (M.step m (input op) out).1 = true ∧ R (S.apply s op).1 (M.step m (input op) out).2

section

variable {S : Spec σ Op Res} {M : Model τ In Out} {input : Op → In} {told : Res → Out → Prop}
  {keep : In → Bool} {fine : σ → Op → Prop} {R : σ → τ → Prop}

theorem Follows.accepts (hf : Follows S M input told keep fine R) {s : σ} {m : τ} (hs : R s m)
    {ops : List (Operation ι Op Res)} {ops' : List (Operation ι In Out)}
    (hops : List.Forall₂ (Operation.Told input told) ops ops')
    (hlegal : S.Legal s (ops.map Operation.entry))
    (hfine : ∀ l₁ o l₂, ops = l₁ ++ o :: l₂ →
      fine (S.run s (l₁.map Operation.entry)) o.input) :
    M.Accepts m (ops'.filter fun o => keep o.input) := by
  induction hops generalizing s m with
  | nil => trivial
  | @cons o o' ops ops' ho hops ih =>
      have hrest : ∀ l₁ o₁ l₂, ops = l₁ ++ o₁ :: l₂ →
          fine (S.run (S.apply s o.input).1 (l₁.map Operation.entry)) o₁.input :=
        fun l₁ o₁ l₂ heq => hfine (o :: l₁) o₁ l₂ (by rw [heq, List.cons_append])
      have htold : told (S.apply s o.input).2 o'.output := hlegal.1 ▸ ho.output
      cases hkeep : keep o'.input with
      | false =>
          rw [List.filter_cons_of_neg (by simp [hkeep])]
          exact ih (hf.skip hs (ho.input ▸ hkeep)) hlegal.2 hrest
      | true =>
          rw [List.filter_cons_of_pos (by simp [hkeep])]
          have hstep := hf.step hs (ho.input ▸ hkeep) (hfine [] o ops rfl) htold
          rw [← ho.input] at hstep
          exact ⟨hstep.1, ih hstep.2 hlegal.2 hrest⟩

variable [DecidableEq ι]

/-- **What a checker says.** It accepts what is told of a history that is
linearizable and in which every call has returned. -/
theorem Follows.ok (hf : Follows S M input told keep fine R) {h : List (Event ι Op Res)}
    {h' : List (Event ι In Out)} (hh : List.Forall₂ (Event.Told input told) h h')
    (hw : WellFormed h) (hc : Complete h) {l : List (ι × Op × Res)} (hl : Linearization S h l)
    (hfine : ∀ l₁ x l₂, l = l₁ ++ x :: l₂ → fine (S.run S.init l₁) x.2.1) :
    M.Ok ((operations h').filter fun o => keep o.input) := by
  obtain ⟨ops, hperm, horder, rfl⟩ := hl.exists_order hw hc
  obtain ⟨ops', hops, hperm'⟩ := List.perm_comp_forall₂ hperm (operations_told hh)
  refine ⟨ops'.filter fun o => keep o.input, hperm'.filter _, ?_, ?_⟩
  · refine List.Pairwise.filter _ ?_
    have htimes : (ops'.map fun o => (o.call, o.ret)).Pairwise fun a b => ¬ b.2 < a.1 := by
      rw [times_told hops]
      exact List.pairwise_map.mpr horder
    exact List.pairwise_map.mp htimes
  · refine hf.accepts hf.init hops hl.legal fun l₁ o l₂ heq => ?_
    exact hfine _ o.entry (l₂.map Operation.entry) (by rw [heq]; simp)

end

end RaftShardedKv.Linearizability
