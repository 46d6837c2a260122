import RaftShardedKv.Lib.Grouping
import RaftShardedKv.Mr.Paths

/-!
A MapReduce job: what a map task and a reduce task compute, from
`mr/worker.go`, and the sequential program, from `main/mrsequential.go`.

The two plugin functions are parameters. So are the JSON encoding, of which
only the round trip is used, and `sort.Sort`, which brings the pairs into the
order of their keys but may leave those of one key in any order.
-/

namespace RaftShardedKv.Mr

instance uint8LinearOrder : LinearOrder UInt8 where
  le_refl := UInt8.le_refl
  le_trans _ _ _ := UInt8.le_trans
  le_antisymm _ _ := UInt8.le_antisymm
  le_total := UInt8.le_total
  lt_iff_le_not_ge a b := by
    rw [UInt8.not_le]
    exact ⟨fun h => ⟨UInt8.le_of_lt h, h⟩, And.right⟩
  toDecidableLE := inferInstance

/-- Valid UTF-8: the encoding of some text. -/
def Utf8 (s : GoString) : Prop := ∃ text : String, text.toUTF8.data.toList = s

structure KeyValue where
  key : GoString
  value : GoString
  deriving DecidableEq, Repr

/-! ### The job -/

structure Json where
  encode : KeyValue → GoString
  decode : GoString → Option (List KeyValue)
  decode_encode : ∀ kva : List KeyValue, (∀ kv ∈ kva, Utf8 kv.key ∧ Utf8 kv.value) →
    decode (kva.flatMap encode) = some kva

/-- `sort.Sort(ByKey(kva))` -/
structure ByKey where
  sort : List KeyValue → List KeyValue
  perm : ∀ kva, (sort kva).Perm kva
  sorted : ∀ kva, (sort kva).Pairwise fun a b => a.key ≤ b.key

def sampleByKey : ByKey where
  sort := List.insertionSort fun a b => a.key ≤ b.key
  perm := List.perm_insertionSort _
  sorted kva :=
    have : Std.Total fun a b : KeyValue => a.key ≤ b.key := ⟨fun a b => le_total a.key b.key⟩
    have : IsTrans KeyValue fun a b => a.key ≤ b.key := ⟨fun _ _ _ => le_trans⟩
    List.pairwise_insertionSort _ kva

structure Job where
  paths : Paths
  /-- The paths of the inputs. -/
  files : List GoString
  nReduce : ℕ
  nReduce_pos : 1 ≤ nReduce
  mapf : GoString → GoString → List KeyValue
  mapf_utf8 : ∀ name content, ∀ kv ∈ mapf name content, Utf8 kv.key ∧ Utf8 kv.value
  reducef : GoString → List GoString → GoString
  reducef_perm : ∀ key {values values' : List GoString}, values.Perm values' →
    reducef key values = reducef key values'
  json : Json
  byKey : ByKey

/-! ### Map -/

def ihash (key : GoString) : ℕ := (fnv32a key &&& 0x7fffffff).toNat

/-- The pairs of a map task by the number of their reduce task. -/
def buckets (nReduce : ℕ) (kva : List KeyValue) : List (List KeyValue) :=
  kva.foldl (fun buckets kv => buckets.modify (ihash kv.key % nReduce) (· ++ [kv]))
    (List.replicate nReduce [])

/-- The pairs for one reduce task. -/
def bucket (nReduce : ℕ) (kva : List KeyValue) (reduceID : ℕ) : List KeyValue :=
  kva.filter fun kv => ihash kv.key % nReduce = reduceID

theorem buckets_getElem? (nReduce : ℕ) (kva : List KeyValue) (j : ℕ) :
    (buckets nReduce kva)[j]? = if j < nReduce then some (bucket nReduce kva j) else none := by
  have hfold : ∀ buckets : List (List KeyValue), (kva.foldl (fun buckets kv =>
      buckets.modify (ihash kv.key % nReduce) (· ++ [kv])) buckets)[j]? =
        buckets[j]?.map (· ++ bucket nReduce kva j) := by
    induction kva with
    | nil => simp [bucket]
    | cons kv kva ih =>
        intro buckets
        rw [List.foldl_cons, ih, List.getElem?_modify]
        by_cases hj : ihash kv.key % nReduce = j
        · cases buckets[j]? <;> simp [bucket, hj]
        · cases buckets[j]? <;> simp [bucket, hj]
  rw [buckets, hfold, List.getElem?_replicate]
  split <;> simp

/-- The files of a map task, in the order in which they are written. -/
def mapFiles (encode : KeyValue → GoString) (taskID nReduce : ℕ) (kva : List KeyValue) :
    List (GoString × GoString) :=
  (buckets nReduce kva).mapIdx fun reduceID bucket =>
    (intermediateName taskID reduceID, bucket.flatMap encode)

theorem mem_mapFiles {encode : KeyValue → GoString} {taskID nReduce : ℕ} {kva : List KeyValue}
    {file : GoString × GoString} : file ∈ mapFiles encode taskID nReduce kva ↔ ∃ j < nReduce,
      file = (intermediateName taskID j, (bucket nReduce kva j).flatMap encode) := by
  simp only [mapFiles, List.mem_iff_getElem?, List.getElem?_mapIdx, buckets_getElem?]
  constructor
  · rintro ⟨j, hj⟩
    by_cases hlt : j < nReduce
    · simp only [if_pos hlt, Option.map_some, Option.some.injEq] at hj
      exact ⟨j, hlt, hj.symm⟩
    · simp [if_neg hlt] at hj
  · rintro ⟨j, hlt, rfl⟩
    exact ⟨j, by simp [if_pos hlt]⟩

namespace Job

variable (job : Job)

/-- The file that a path leads to. -/
def lead (path : GoString) : File := job.paths.leads path

/-- What `doMapTask` writes, in this order. -/
def mapPlan (taskID nReduce : ℕ) (kva : List KeyValue) : List (GoString × GoString) :=
  mapFiles job.json.encode taskID nReduce kva

/-! ### Reduce -/

/-- The loop over the sorted pairs: one record for each run of equal keys. -/
def reduceRecords (intermediate : List KeyValue) : List (GoString × GoString) :=
  (Grouping.runs KeyValue.key KeyValue.value (job.byKey.sort intermediate)).map
    fun run => (run.1, job.reducef run.1 run.2)

/-- `"%v %v\n"` for each record. -/
def print (records : List (GoString × GoString)) : GoString :=
  records.flatMap fun record => record.1 ++ [32] ++ record.2 ++ [10]

/-- What `doReduceTask` writes. -/
def reducePlan (taskID : ℕ) (intermediate : List KeyValue) : List (GoString × GoString) :=
  [(outName taskID, print (job.reduceRecords intermediate))]

/-! ### The sequential program -/

/-- What all map calls emit, if all files can be read. -/
def emitted (files : Files) : Option (List KeyValue) :=
  (job.files.mapM fun name => (files (job.lead name)).map (job.mapf name)).map List.flatten

/-- The records that `mrsequential` writes. -/
def sequential (files : Files) : Option (List (GoString × GoString)) :=
  (job.emitted files).map job.reduceRecords

end Job

end RaftShardedKv.Mr
