import RaftShardedKv.Lib.JsonText
import RaftShardedKv.Mr.Job

/-!
The way of the pairs from the map tasks to the reduce tasks, through files of
JSON.

The reduce task of a pair is chosen by the key that the map function emits, and
the pairs are grouped by the key that is read back. The two are the same, and
nothing is lost, exactly if all that is emitted is UTF-8.
-/

namespace RaftShardedKv.Mr

open JsonText

/-! ### Records -/

/-- `{"Key":` -/
def keyText : GoString := [123, 34, 75, 101, 121, 34, 58]

/-- `,"Value":` -/
def valueText : GoString := [44, 34, 86, 97, 108, 117, 101, 34, 58]

/-- The closing brace, and the line feed that `Encode` adds. -/
def endText : GoString := [125, 10]

/-- `Encode` -/
def encodeKeyValue (kv : KeyValue) : GoString :=
  keyText ++ (quote kv.key ++ (valueText ++ (quote kv.value ++ endText)))

def expect (token text : GoString) : Option GoString :=
  if token.isPrefixOf text then some (text.drop token.length) else none

/-- `Decode`, on texts as `Encode` writes them. -/
def decodeKeyValue (text : GoString) : Option (KeyValue × GoString) := do
  let text ← expect keyText text
  let (key, text) ← unquote text
  let text ← expect valueText text
  let (value, text) ← unquote text
  let text ← expect endText text
  some (⟨key, value⟩, text)

/-- The loop of `Decode` up to the end of the file. -/
def decodeFrom : ℕ → GoString → Option (List KeyValue)
  | _, [] => some []
  | 0, _ :: _ => none
  | fuel + 1, b :: text => do
      let (kv, rest) ← decodeKeyValue (b :: text)
      let kva ← decodeFrom fuel rest
      some (kv :: kva)

def decodeFile (text : GoString) : Option (List KeyValue) := decodeFrom text.length text

def KeyValue.coerce (kv : KeyValue) : KeyValue := ⟨JsonText.coerce kv.key, JsonText.coerce kv.value⟩

theorem expect_append (token text : GoString) : expect token (token ++ text) = some text := by
  simp [expect]

theorem decodeKeyValue_encode (kv : KeyValue) (rest : GoString) :
    decodeKeyValue (encodeKeyValue kv ++ rest) = some (kv.coerce, rest) := by
  simp only [decodeKeyValue, encodeKeyValue, List.append_assoc, expect_append, unquote_quote,
    Option.bind_eq_bind, Option.bind_some]
  rfl

theorem decodeFrom_encode {fuel : ℕ} {kva : List KeyValue} (hfuel : kva.length ≤ fuel) :
    decodeFrom fuel (kva.flatMap encodeKeyValue) = some (kva.map KeyValue.coerce) := by
  induction kva generalizing fuel with
  | nil => cases fuel <;> rfl
  | cons kv kva ih =>
      obtain ⟨fuel, rfl⟩ := Nat.exists_eq_succ_of_ne_zero (Nat.ne_zero_of_lt hfuel)
      have hdecode := decodeKeyValue_encode kv (kva.flatMap encodeKeyValue)
      rw [List.flatMap_cons]
      -- the loop looks whether the file has ended
      have hcons : ∃ text, encodeKeyValue kv ++ kva.flatMap encodeKeyValue = 123 :: text := ⟨_, rfl⟩
      obtain ⟨text, htext⟩ := hcons
      rw [htext] at hdecode ⊢
      simp [decodeFrom, hdecode, ih (Nat.le_of_succ_le_succ hfuel)]

theorem decodeFile_encode (kva : List KeyValue) :
    decodeFile (kva.flatMap encodeKeyValue) = some (kva.map KeyValue.coerce) := by
  refine decodeFrom_encode ?_
  induction kva with
  | nil => exact le_rfl
  | cons kv kva ih =>
      have hpos : 0 < (encodeKeyValue kv).length :=
        List.length_pos_iff.mpr (by simp [encodeKeyValue, keyText])
      rw [List.flatMap_cons, List.length_append, List.length_cons]
      omega

theorem utf8_iff (text : GoString) : Utf8 text ↔ Valid text := by
  constructor
  · rintro ⟨s, rfl⟩
    obtain ⟨cs, rfl⟩ : ∃ cs, s = String.ofList cs := ⟨s.toList, by simp⟩
    exact ⟨cs, by simp [List.utf8Encode]⟩
  · rintro ⟨cs, rfl⟩
    exact ⟨String.ofList cs, by simp [List.utf8Encode]⟩

theorem KeyValue.coerce_eq_iff (kv : KeyValue) : kv.coerce = kv ↔ Utf8 kv.key ∧ Utf8 kv.value := by
  rw [utf8_iff, utf8_iff, ← JsonText.coerce_eq_iff, ← JsonText.coerce_eq_iff]
  cases kv
  exact Eq.to_iff (KeyValue.mk.injEq ..)

theorem KeyValue.utf8_coerce (kv : KeyValue) : Utf8 kv.coerce.key ∧ Utf8 kv.coerce.value :=
  ⟨(utf8_iff _).mpr (valid_coerce _), (utf8_iff _).mpr (valid_coerce _)⟩

theorem map_coerce {kva : List KeyValue} (h : ∀ kv ∈ kva, Utf8 kv.key ∧ Utf8 kv.value) :
    kva.map KeyValue.coerce = kva :=
  (List.map_congr_left fun kv hkv => (KeyValue.coerce_eq_iff kv).mpr (h kv hkv)).trans
    (List.map_id kva)

/-- The JSON of the Go library is one that a job may have. -/
def goJson : Json where
  encode := encodeKeyValue
  decode := decodeFile
  decode_encode kva h := by rw [decodeFile_encode, map_coerce h]

/-! ### Files -/

def Files.write (files : Files) (paths : Paths) (written : List (GoString × GoString)) : Files :=
  written.foldl (fun files file => Function.update files (paths.leads file.1) (some file.2)) files

/-- `doMapTask` for each list of emitted pairs, with its index as the task. -/
def doMapTasks (paths : Paths) (nReduce : ℕ) (emitted : List (List KeyValue)) (files : Files) :
    Files :=
  files.write paths
    (emitted.zipIdx.flatMap fun task => mapFiles encodeKeyValue task.2 nReduce task.1)

/-- The first loop of `doReduceTask`; `none` if a file cannot be opened or decoded. -/
def readIntermediate (paths : Paths) (files : Files) (nMap reduceID : ℕ) :
    Option (List KeyValue) :=
  ((List.range nMap).mapM fun mapID =>
    (files (paths.leads (intermediateName mapID reduceID))).bind decodeFile).map List.flatten

/-- The calls of `reducef`: the keys and values of the runs in the sorted pairs. -/
def reduceCalls (byKey : ByKey) (intermediate : List KeyValue) : List (GoString × List GoString) :=
  Grouping.runs KeyValue.key KeyValue.value (byKey.sort intermediate)

theorem write_eq {paths : Paths} {files : Files} {written : List (GoString × GoString)}
    {path content : GoString} (hmem : (path, content) ∈ written)
    (hsame : ∀ p ∈ written, paths.leads p.1 = paths.leads path → p.2 = content) :
    files.write paths written (paths.leads path) = some content := by
  induction written using List.reverseRecOn with
  | nil => cases hmem
  | append_singleton written file ih =>
      rw [Files.write, List.foldl_append, List.foldl_cons, List.foldl_nil]
      rcases eq_or_ne (paths.leads path) (paths.leads file.1) with heq | hne
      · rw [heq, Function.update_self]
        exact congrArg some (hsame _ (List.mem_append_right _ List.mem_cons_self) heq.symm)
      · rw [Function.update_of_ne hne]
        refine ih ?_ fun p h => hsame p (List.mem_append_left _ h)
        rcases List.mem_append.mp hmem with h | h
        · exact h
        · exact absurd (congrArg (fun p => paths.leads p.1) (List.mem_singleton.mp h)) hne

theorem doMapTasks_intermediate {paths : Paths} {nReduce : ℕ} {emitted : List (List KeyValue)}
    {files : Files} {mapID reduceID : ℕ} {kva : List KeyValue} (hkva : emitted[mapID]? = some kva)
    (hr : reduceID < nReduce) :
    doMapTasks paths nReduce emitted files (paths.leads (intermediateName mapID reduceID)) =
      some ((bucket nReduce kva reduceID).flatMap encodeKeyValue) := by
  refine write_eq ?_ fun p hp hleads => ?_
  · simp only [List.mem_flatMap, Prod.exists, List.mem_zipIdx_iff_getElem?, mem_mapFiles]
    exact ⟨kva, mapID, hkva, reduceID, hr, rfl⟩
  · simp only [List.mem_flatMap, Prod.exists, List.mem_zipIdx_iff_getElem?, mem_mapFiles] at hp
    obtain ⟨kva', m, hm, j, -, rfl⟩ := hp
    have hname : FinalName.intermediate m j = .intermediate mapID reduceID :=
      paths.final_injective hleads
    cases hname
    rw [Option.some.inj (hkva.symm.trans hm)]

theorem mapM_eq_some {α β : Type} {f : α → Option β} {g : α → β} {l : List α}
    (h : ∀ a ∈ l, f a = some (g a)) : l.mapM f = some (l.map g) := by
  induction l with
  | nil => rfl
  | cons a l ih =>
      rw [List.mapM_cons, h a List.mem_cons_self, ih fun a ha => h a (List.mem_cons_of_mem _ ha)]
      rfl

theorem readIntermediate_eq (paths : Paths) {nReduce : ℕ} (emitted : List (List KeyValue))
    (files : Files)
    {reduceID : ℕ} (hr : reduceID < nReduce) :
    readIntermediate paths (doMapTasks paths nReduce emitted files) emitted.length reduceID =
      some ((bucket nReduce emitted.flatten reduceID).map KeyValue.coerce) := by
  have hread : ((List.range emitted.length).mapM fun mapID =>
      (doMapTasks paths nReduce emitted files
        (paths.leads (intermediateName mapID reduceID))).bind decodeFile) =
        some (emitted.map fun kva => (bucket nReduce kva reduceID).map KeyValue.coerce) := by
    rw [mapM_eq_some (g := fun mapID =>
      (bucket nReduce (emitted[mapID]?.getD []) reduceID).map KeyValue.coerce)]
    · refine congrArg some (List.ext_getElem (by simp) fun m hm hm' => ?_)
      simp [List.getElem?_eq_getElem (by simpa using hm')]
    · intro m hm
      have hget := List.getElem?_eq_getElem (List.mem_range.mp hm)
      rw [doMapTasks_intermediate hget hr, Option.bind_some, decodeFile_encode, hget,
        Option.getD_some]
  rw [readIntermediate, hread, Option.map_some]
  simp [bucket, List.filter_flatten, List.map_flatten, Function.comp_def]

/-! ### Nothing lost, added or merged -/

/-- The pairs that the reduce tasks read are those that were emitted; those of one key are all
read by one task; and the calls of `reducef` are one for each emitted key, with all of its
values. -/
structure Kept (byKey : ByKey) (nReduce : ℕ) (emitted : List KeyValue) (read : ℕ → List KeyValue) :
    Prop where
  pairs : ∑ r ∈ Finset.range nReduce, (read r : Multiset KeyValue) = emitted
  task : ∀ r < nReduce, ∀ r' < nReduce, ∀ kv ∈ read r, ∀ kv' ∈ read r', kv.key = kv'.key → r = r'
  calls : ∑ r ∈ Finset.range nReduce, ((reduceCalls byKey (read r)).map
      fun call => (call.1, (call.2 : Multiset GoString)) :
        Multiset (GoString × Multiset GoString)) =
    ∑ key ∈ (emitted.map KeyValue.key).toFinset,
      {(key, (((emitted.filter fun kv => kv.key = key).map KeyValue.value : List GoString) :
        Multiset GoString))}

theorem sum_bucket {nReduce : ℕ} (hpos : 1 ≤ nReduce) (kva : List KeyValue) :
    ∑ r ∈ Finset.range nReduce, (bucket nReduce kva r : Multiset KeyValue) = kva := by
  induction kva with
  | nil => simp [bucket]
  | cons kv kva ih =>
      have hone : ∀ r, (bucket nReduce (kv :: kva) r : Multiset KeyValue) =
          (if ihash kv.key % nReduce = r then {kv} else 0) + bucket nReduce kva r := by
        intro r
        by_cases hr : ihash kv.key % nReduce = r <;> simp [bucket, hr]
      simp only [hone, Finset.sum_add_distrib, ih, Finset.sum_ite_eq, Finset.mem_range,
        Nat.mod_lt _ hpos, if_true]
      rfl

theorem kept_bucket (byKey : ByKey) {nReduce : ℕ} (hpos : 1 ≤ nReduce) (kva : List KeyValue) :
    Kept byKey nReduce kva (bucket nReduce kva) where
  pairs := sum_bucket hpos kva
  task r _ r' _ kv hkv kv' hkv' hkey := by
    have hr : ihash kv.key % nReduce = r := by simpa using (List.mem_filter.mp hkv).2
    have hr' : ihash kv'.key % nReduce = r' := by simpa using (List.mem_filter.mp hkv').2
    rw [← hr, ← hr', hkey]
  calls := by
    -- the calls are what the groups are reduced to, by the function that keeps the values
    let f : GoString → List GoString → Multiset GoString := fun _ values => values
    have hf : ∀ key {values values' : List GoString}, values.Perm values' →
        f key values = f key values' := fun _ _ _ h => Multiset.coe_eq_coe.mpr h
    have hcalls : ∀ r, ((reduceCalls byKey (bucket nReduce kva r)).map
        fun call => (call.1, (call.2 : Multiset GoString)) : Multiset _) =
          Grouping.reduced KeyValue.key KeyValue.value f (bucket nReduce kva r) := by
      intro r
      rw [Grouping.reduced_perm hf (byKey.perm _).symm,
        Grouping.reduced_eq_runs _ _ (byKey.sorted _)]
      rfl
    simp only [hcalls]
    exact Grouping.sum_reduced (fun key => ihash key % nReduce) (fun key => Nat.mod_lt _ hpos) kva

/-- Every reduce task reads its files to the end, and all pairs and groups are kept exactly if all
that was emitted is UTF-8. -/
theorem intermediate_exact_iff (byKey : ByKey) (paths : Paths) {nReduce : ℕ} (hpos : 1 ≤ nReduce)
    (emitted : List (List KeyValue)) (files : Files) :
    ∃ read : ℕ → List KeyValue,
      (∀ r < nReduce, readIntermediate paths (doMapTasks paths nReduce emitted files)
        emitted.length r = some (read r)) ∧
      (Kept byKey nReduce emitted.flatten read ↔
        ∀ kva ∈ emitted, ∀ kv ∈ kva, Utf8 kv.key ∧ Utf8 kv.value) := by
  refine ⟨fun r => (bucket nReduce emitted.flatten r).map KeyValue.coerce,
    fun r hr => readIntermediate_eq paths emitted files hr, fun hkept kva hkva kv hkv => ?_,
    fun hutf => ?_⟩
  · have hmem : kv ∈ (emitted.flatten : Multiset KeyValue) := List.mem_flatten.mpr ⟨kva, hkva, hkv⟩
    rw [← hkept.pairs, Multiset.mem_sum] at hmem
    obtain ⟨r, -, hread⟩ := hmem
    obtain ⟨kv', -, rfl⟩ := List.mem_map.mp hread
    exact kv'.utf8_coerce
  · have hall : ∀ r, (bucket nReduce emitted.flatten r).map KeyValue.coerce =
        bucket nReduce emitted.flatten r := by
      intro r
      refine map_coerce fun kv hkv => ?_
      obtain ⟨kva, hkva, hkv⟩ := List.mem_flatten.mp (List.mem_of_mem_filter hkv)
      exact hutf kva hkva kv hkv
    simp only [hall]
    exact kept_bucket byKey hpos _

/-- Two map tasks that emit a quote and an accent, and nothing. -/
def sampleEmitted : List (List KeyValue) := [[⟨[34], [49]⟩, ⟨[195, 169], [50]⟩], []]

/-- The working directory is `/`. -/
def samplePaths : Paths := .plain []

theorem intermediate_exact_iff_sampleEmitted : ∃ read : ℕ → List KeyValue,
    (∀ r < 2,
      readIntermediate samplePaths (doMapTasks samplePaths 2 sampleEmitted fun _ => none) 2 r =
        some (read r)) ∧ Kept sampleByKey 2 sampleEmitted.flatten read := by
  obtain ⟨read, hread, hkept⟩ := intermediate_exact_iff sampleByKey samplePaths
    (show 1 ≤ 2 by decide) sampleEmitted fun _ => none
  refine ⟨read, hread, hkept.mpr fun kva hkva kv hkv => ?_⟩
  have hall : ∀ kva ∈ sampleEmitted, ∀ kv ∈ kva, kv.coerce = kv := by decide +kernel
  exact kv.coerce_eq_iff.mp (hall kva hkva kv hkv)

def sampleInvalid : List (List KeyValue) := [[⟨[255], [49]⟩, ⟨[254], [50]⟩]]

/-- Two reduce tasks read one key, which was never emitted; a single one makes one call for the
two keys that were. Neither keeps what was emitted. -/
theorem keys_merged :
    (∃ read : ℕ → List KeyValue,
      (∀ r < 2, readIntermediate samplePaths (doMapTasks samplePaths 2 sampleInvalid fun _ => none)
        1 r = some (read r)) ∧
      read 0 = [⟨[239, 191, 189], [49]⟩] ∧ read 1 = [⟨[239, 191, 189], [50]⟩] ∧
      ¬ Kept sampleByKey 2 sampleInvalid.flatten read) ∧
    ∃ read : ℕ → List KeyValue,
      readIntermediate samplePaths (doMapTasks samplePaths 1 sampleInvalid fun _ => none) 1 0 =
        some (read 0) ∧
      reduceCalls sampleByKey (read 0) = [([239, 191, 189], [[49], [50]])] ∧
      ¬ Kept sampleByKey 1 sampleInvalid.flatten read := by
  have hread : ∀ nReduce, ∀ r < nReduce, readIntermediate samplePaths
      (doMapTasks samplePaths nReduce sampleInvalid fun _ => none) 1 r =
        some ((bucket nReduce sampleInvalid.flatten r).map KeyValue.coerce) :=
    fun nReduce r hr => readIntermediate_eq samplePaths sampleInvalid _ hr
  refine ⟨⟨_, hread 2, by decide +kernel, by decide +kernel, fun h => ?_⟩,
    ⟨fun r => (bucket 1 sampleInvalid.flatten r).map KeyValue.coerce, hread 1 0 (by decide),
      by decide +kernel, fun h => ?_⟩⟩
  · -- both tasks read the one key
    exact absurd (h.task 0 (by decide) 1 (by decide) ⟨[239, 191, 189], [49]⟩ (by decide +kernel)
      ⟨[239, 191, 189], [50]⟩ (by decide +kernel) rfl) (by decide)
  · -- the key that was emitted is not read
    have hmem : (⟨[255], [49]⟩ : KeyValue) ∈ (sampleInvalid.flatten : Multiset KeyValue) :=
      List.mem_cons_self
    rw [← h.pairs, Multiset.mem_sum] at hmem
    obtain ⟨r, -, hmem⟩ := hmem
    obtain ⟨kv, -, hkv⟩ := List.mem_map.mp hmem
    have hutf := kv.utf8_coerce
    rw [hkv] at hutf
    exact absurd ((utf8_iff _).mp hutf.1) (by rw [← JsonText.coerce_eq_iff]; decide +kernel)

end RaftShardedKv.Mr
