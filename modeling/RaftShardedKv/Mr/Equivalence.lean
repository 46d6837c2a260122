import RaftShardedKv.Mr.Intermediate
import RaftShardedKv.Mr.System

/-!
A job that is done has written what the sequential program writes.

Every file with a final name has one right content (`target`), which the
inputs determine: whoever executes a task, and however often, renames files
with this content only. So a task whose files are in place has them in place
for good, a report that arrives late is as true as one that arrives in time,
and what a reducer finds does not depend on who wrote it.
-/

namespace RaftShardedKv.Mr

open RaftShardedKv.Transition

/-! ### The right content of a file -/

namespace Job

variable (job : Job) (inputs : Files)

def emittedFor (name : GoString) : Option (List KeyValue) :=
  (inputs (job.lead name)).map (job.mapf name)

/-- What a file with a final name has to hold. -/
def target : FinalName → Option GoString
  | .intermediate mapID reduceID =>
      if reduceID < job.nReduce then
        (job.files[mapID]?.bind (job.emittedFor inputs)).map fun kva =>
          (bucket job.nReduce kva reduceID).flatMap job.json.encode
      else none
  | .out reduceID =>
      if reduceID < job.nReduce then
        (job.emitted inputs).map fun kva =>
          print (job.reduceRecords (bucket job.nReduce kva reduceID))
      else none

/-- The files of a task. -/
def outputs (args : ReportTaskArgs) : List FinalName :=
  match args.taskType with
  | .mapTask => (List.range job.nReduce).map (.intermediate args.taskID)
  | .reduceTask => [.out args.taskID]
  | _ => []

/-- The job writes under this name. -/
def isFinal : FinalName → Bool
  | .intermediate mapID reduceID => mapID < job.files.length ∧ reduceID < job.nReduce
  | .out reduceID => reduceID < job.nReduce

/-- No input leads to a file that the job writes. An input that exists may lead to that of a
temporary name, as `os.CreateTemp` then takes another one. -/
def Apart : Prop :=
  ∀ input ∈ job.files, ∀ name, job.isFinal name = true → job.lead input ≠ job.lead name.path ∧
    (inputs (job.lead input) = none →
      ∀ random, job.lead input ≠ job.lead (tempName name.path random))

variable {job inputs}

theorem isFinal_of_target {name : FinalName} {content : GoString}
    (h : job.target inputs name = some content) : job.isFinal name = true := by
  cases name with
  | intermediate mapID reduceID =>
      rw [target] at h
      split at h
      · obtain ⟨kva, hkva, -⟩ := Option.map_eq_some_iff.mp h
        obtain ⟨input, hinput, -⟩ := Option.bind_eq_some_iff.mp hkva
        have hlt := (List.getElem?_eq_some_iff.mp hinput).1
        simp [isFinal, *]
      · cases h
  | out reduceID =>
      rw [target] at h
      split at h
      · simp [isFinal, *]
      · cases h

end Job

section

variable (job : Job) (inputs : Files)

def Placed (files : Files) (name : FinalName) : Prop :=
  ∃ content, job.target inputs name = some content ∧ files (job.lead name.path) = some content

def Finished (files : Files) (args : ReportTaskArgs) : Prop :=
  ∀ name ∈ job.outputs args, Placed job inputs files name

/-! ### The invariant of a worker -/

/-- The plan is right, and it has all that is missing of the task. -/
structure Saves (files : Files) (task : RequestTaskReply) (plan : List (GoString × GoString)) :
    Prop where
  planned : ∀ p ∈ plan, ∃ name : FinalName, p.1 = name.path ∧ job.target inputs name = some p.2
  placed : ∀ name ∈ job.outputs ⟨task.taskType, task.taskID⟩,
    Placed job inputs files name ∨ name.path ∈ plan.map Prod.fst

/-- The temporary file of a worker. -/
def Pc.temp : Pc → Option File
  | .writing _ tmpFile _ _ _ => some (job.lead tmpFile)
  | _ => none

def PcOk (files : Files) : Pc → Prop
  | .idle => True
  | .replied reply => Offered job (Finished job inputs files) reply
  | .mapping task => task.taskType = .mapTask ∧ Offered job (Finished job inputs files) task
  | .reading task mapID intermediate =>
      task.taskType = .reduceTask ∧ Offered job (Finished job inputs files) task ∧
        ∃ kvas, (job.files.take mapID).mapM (job.emittedFor inputs) = some kvas ∧
          intermediate = bucket job.nReduce kvas.flatten task.taskID
  | .saving task plan => Saves job inputs files task plan
  | .writing task tmpFile todo finalName plan =>
      ∃ (name : FinalName) (random : ℕ) (written : GoString),
        finalName = name.path ∧ tmpFile = tempName name.path random ∧
        (∀ input ∈ job.files, job.lead input ≠ job.lead tmpFile) ∧
        files (job.lead tmpFile) = some written ∧
        Saves job inputs files task ((finalName, written ++ todo) :: plan)
  | .stopped => True

/-- What changes: the temporary file, and files that are right then. -/
def Touches (tmpFile : File) (files files' : Files) : Prop :=
  ∀ file, file ≠ tmpFile → files' file = files file ∨
    ∃ name, job.lead name.path = file ∧ Placed job inputs files' name

end

section

variable {job : Job} {inputs : Files} {files files' : Files}

theorem Placed.of_lead {name name' : FinalName} (h : Placed job inputs files name)
    (hlead : job.lead name.path = job.lead name'.path) : Placed job inputs files name' :=
  job.paths.final_injective hlead ▸ h

theorem Placed.touches {name : FinalName} (h : Placed job inputs files name) {final : FinalName}
    {random : ℕ} (ht : Touches job inputs (job.lead (tempName final.path random)) files files') :
    Placed job inputs files' name := by
  rcases ht (job.lead name.path) (job.paths.temp_ne name final random).symm with
    heq | ⟨name', hlead, hplaced⟩
  · obtain ⟨content, htarget, hfile⟩ := h
    exact ⟨content, htarget, heq.trans hfile⟩
  · exact hplaced.of_lead hlead

theorem Touches.update (tmpFile : File) (content : Option GoString) :
    Touches job inputs tmpFile files (Function.update files tmpFile content) :=
  fun _ hne => Or.inl (Function.update_of_ne hne _ _)

theorem Finished.mono {args : ReportTaskArgs}
    (h : Finished job inputs files args)
    (hplaced : ∀ name, Placed job inputs files name → Placed job inputs files' name) :
    Finished job inputs files' args :=
  fun name hname => hplaced name (h name hname)

theorem Saves.mono {task : RequestTaskReply} {plan : List (GoString × GoString)}
    (h : Saves job inputs files task plan)
    (hplaced : ∀ name, Placed job inputs files name → Placed job inputs files' name) :
    Saves job inputs files' task plan :=
  ⟨h.planned, fun name hname => (h.placed name hname).imp_left (hplaced name)⟩

theorem PcOk.mono {pc : Pc} (h : PcOk job inputs files pc)
    (hplaced : ∀ name, Placed job inputs files name → Placed job inputs files' name)
    (htemp : ∀ file, pc.temp job = some file → files' file = files file) :
    PcOk job inputs files' pc := by
  have hfinished : ∀ args, Finished job inputs files args → Finished job inputs files' args :=
    fun _ hargs => hargs.mono hplaced
  cases pc with
  | idle => trivial
  | replied reply => exact Offered.mono h hfinished
  | mapping task => exact ⟨h.1, h.2.mono hfinished⟩
  | reading task mapID intermediate => exact ⟨h.1, h.2.1.mono hfinished, h.2.2⟩
  | saving task plan => exact Saves.mono h hplaced
  | writing task tmpFile todo finalName plan =>
      obtain ⟨name, random, written, hname, htmp, hinput, hfile, hsaves⟩ := h
      exact ⟨name, random, written, hname, htmp, hinput, (htemp _ rfl).trans hfile,
        hsaves.mono hplaced⟩
  | stopped => trivial

/-! ### The steps of a worker -/

theorem PcOk.readFile {task : RequestTaskReply} (h : PcOk job inputs files (.mapping task))
    (hinputs : ∀ input ∈ job.files, files (job.lead input) = inputs (job.lead input)) :
    PcOk job inputs files (Pc.readFile job files task) := by
  obtain ⟨htype, hoffered⟩ := h
  simp only [Offered, htype] at hoffered
  obtain ⟨hname, hreduce⟩ := hoffered
  rw [Pc.readFile, hinputs _ (List.mem_of_getElem? hname)]
  cases hcontent : inputs (job.lead task.fileName) with
  | none => trivial
  | some content =>
      refine ⟨fun p hp => ?_, fun name hmem => Or.inr ?_⟩
      · obtain ⟨j, hj, rfl⟩ := mem_mapFiles.mp hp
        refine ⟨.intermediate task.taskID j, rfl, ?_⟩
        rw [hreduce] at hj ⊢
        simp [Job.target, hj, hname, Job.emittedFor, hcontent]
      · simp only [Job.outputs, htype, List.mem_map, List.mem_range] at hmem
        obtain ⟨j, hj, rfl⟩ := hmem
        exact List.mem_map.mpr ⟨_, mem_mapFiles.mpr ⟨j, by rwa [hreduce], rfl⟩, rfl⟩

theorem bucket_append (nReduce : ℕ) (kva kva' : List KeyValue) (j : ℕ) :
    bucket nReduce (kva ++ kva') j = bucket nReduce kva j ++ bucket nReduce kva' j :=
  List.filter_append kva kva'

theorem PcOk.intermediate {task : RequestTaskReply} {mapID : ℕ} {intermediate : List KeyValue}
    (h : PcOk job inputs files (.reading task mapID intermediate)) (hmap : mapID < task.nMap) :
    ∃ name kva, job.files[mapID]? = some name ∧ job.emittedFor inputs name = some kva ∧
      (files (job.lead (intermediateName mapID task.taskID))).bind job.json.decode =
        some (bucket job.nReduce kva task.taskID) := by
  obtain ⟨htype, hoffered, -⟩ := h
  simp only [Offered, htype] at hoffered
  obtain ⟨htask, hnMap, hmapped⟩ := hoffered
  have hmem : FinalName.intermediate mapID task.taskID ∈ job.outputs ⟨.mapTask, mapID⟩ :=
    List.mem_map_of_mem (List.mem_range.mpr htask)
  obtain ⟨content, htarget, hfile⟩ := hmapped mapID (hnMap ▸ hmap) _ hmem
  rw [Job.target, if_pos htask] at htarget
  obtain ⟨kva, hkva, rfl⟩ := Option.map_eq_some_iff.mp htarget
  obtain ⟨name, hname, hemitted⟩ := Option.bind_eq_some_iff.mp hkva
  refine ⟨name, kva, hname, hemitted, ?_⟩
  have hfile' : files (job.lead (intermediateName mapID task.taskID)) = _ := hfile
  rw [hfile', Option.bind_some]
  refine job.json.decode_encode _ fun kv hkv => ?_
  obtain ⟨input, -, rfl⟩ := Option.map_eq_some_iff.mp hemitted
  exact job.mapf_utf8 name input kv (List.mem_of_mem_filter hkv)

theorem PcOk.openFile {task : RequestTaskReply} {mapID : ℕ} {intermediate : List KeyValue}
    (h : PcOk job inputs files (.reading task mapID intermediate)) :
    PcOk job inputs files (Pc.openFile job files task mapID intermediate) := by
  rw [Pc.openFile]
  split
  · rename_i hmap
    obtain ⟨name, kva, hname, hemitted, hdecode⟩ := h.intermediate hmap
    obtain ⟨htype, hoffered, kvas, hkvas, rfl⟩ := h
    rw [hdecode]
    refine ⟨htype, hoffered, kvas ++ [kva], ?_, ?_⟩
    · rw [List.take_add_one, hname, List.mapM_append, hkvas]
      simp [hemitted]
    · rw [List.flatten_append, List.flatten_singleton, bucket_append]
  · rename_i hmap
    obtain ⟨htype, hoffered, kvas, hkvas, rfl⟩ := h
    simp only [Offered, htype] at hoffered
    obtain ⟨htask, hnMap, -⟩ := hoffered
    rw [List.take_of_length_le (by omega)] at hkvas
    have hemitted : job.emitted inputs = some kvas.flatten :=
      congrArg (Option.map List.flatten) hkvas
    refine ⟨fun p hp => ?_, fun name hmem => Or.inr ?_⟩
    · cases List.mem_singleton.mp hp
      refine ⟨.out task.taskID, rfl, ?_⟩
      rw [Job.target, if_pos htask, hemitted, Option.map_some]
    · simp only [Job.outputs, htype, List.mem_singleton] at hmem
      subst hmem
      simp [Job.reducePlan, FinalName.path]

theorem PcOk.temp {pc : Pc} (h : PcOk job inputs files pc) {file : File}
    (htemp : pc.temp job = some file) : (∀ name : FinalName, job.lead name.path ≠ file) ∧
      (∀ input ∈ job.files, job.lead input ≠ file) ∧ files file ≠ none := by
  cases pc with
  | writing task tmpFile todo finalName plan =>
      cases htemp
      obtain ⟨name, random, written, -, rfl, hinput, hfile, -⟩ := h
      exact ⟨fun name' heq => job.paths.temp_ne name' name random heq.symm, hinput,
        by rw [hfile]; nofun⟩
  | idle => cases htemp
  | replied reply => cases htemp
  | mapping task => cases htemp
  | reading task mapID intermediate => cases htemp
  | saving task plan => cases htemp
  | stopped => cases htemp

/-- What a step of a worker does, as far as others notice. -/
structure WorkOk (job : Job) (inputs : Files) (files : Files) (pc : Pc) (worked : Worked) :
    Prop where
  pcOk : PcOk job inputs worked.files worked.pc
  changed : ∀ file, worked.files file = files file ∨ pc.temp job = some file ∨
    worked.pc.temp job = some file ∨
      ∃ name, job.lead name.path = file ∧ Placed job inputs worked.files name
  fresh : ∀ file, worked.pc.temp job = some file → pc.temp job = some file ∨ files file = none
  sent : ∀ args ∈ worked.sent, Finished job inputs worked.files args

theorem WorkOk.same {pc pc' : Pc} (h : PcOk job inputs files pc') (htemp : pc'.temp job = none) :
    WorkOk job inputs files pc ⟨pc', files, []⟩ where
  pcOk := h
  changed _ := Or.inl rfl
  fresh file hfile := by rw [htemp] at hfile; cases hfile
  sent := nofun

section

variable {pc : Pc} {worked : Worked}

theorem WorkOk.placed (h : WorkOk job inputs files pc worked) (hpc : PcOk job inputs files pc)
    {name : FinalName} (hplaced : Placed job inputs files name) :
    Placed job inputs worked.files name := by
  obtain ⟨content, htarget, hfile⟩ := hplaced
  rcases h.changed (job.lead name.path) with heq | htemp | htemp | ⟨name', hlead, hright⟩
  · exact ⟨content, htarget, heq.trans hfile⟩
  · exact absurd rfl ((hpc.temp htemp).1 name)
  · exact absurd rfl ((h.pcOk.temp htemp).1 name)
  · exact hright.of_lead hlead

theorem WorkOk.input (h : WorkOk job inputs files pc worked) (hpc : PcOk job inputs files pc)
    (hapart : job.Apart inputs) {input : GoString} (hinput : input ∈ job.files) :
    worked.files (job.lead input) = files (job.lead input) := by
  rcases h.changed (job.lead input) with heq | htemp | htemp | ⟨name, hlead, content, htarget, -⟩
  · exact heq
  · exact absurd rfl ((hpc.temp htemp).2.1 input hinput)
  · exact absurd rfl ((h.pcOk.temp htemp).2.1 input hinput)
  · exact absurd hlead.symm (hapart input hinput name (Job.isFinal_of_target htarget)).1

theorem WorkOk.other (h : WorkOk job inputs files pc worked) {other : Pc}
    (hother : PcOk job inputs files other) {file : File} (htemp : other.temp job = some file)
    (hne : pc.temp job ≠ some file) :
    worked.pc.temp job ≠ some file ∧ worked.files file = files file := by
  obtain ⟨hfinal, -, hfile⟩ := hother.temp htemp
  have hnew : worked.pc.temp job ≠ some file := by
    intro hown
    rcases h.fresh file hown with hold | hnone
    · exact hne hold
    · exact hfile hnone
  refine ⟨hnew, ?_⟩
  rcases h.changed file with heq | hown | hown | ⟨name, hlead, -⟩
  · exact heq
  · exact absurd hown hne
  · exact absurd hown hnew
  · exact absurd hlead (hfinal name)

end

theorem WorkOk.receive {reply : RequestTaskReply} (h : PcOk job inputs files (.replied reply)) :
    WorkOk job inputs files (.replied reply) ⟨Pc.receive reply, files, []⟩ := by
  rw [Pc.receive]
  split
  · rename_i htype
    exact .same ⟨htype, h⟩ rfl
  · rename_i htype
    exact .same ⟨htype, h, [], rfl, rfl⟩ rfl
  · exact .same trivial rfl
  · exact .same trivial rfl

theorem WorkOk.createTemp (hapart : job.Apart inputs)
    (hinputs : ∀ input ∈ job.files, files (job.lead input) = inputs (job.lead input))
    {task : RequestTaskReply} {finalName content : GoString} {plan : List (GoString × GoString)}
    {random : ℕ} (h : PcOk job inputs files (.saving task ((finalName, content) :: plan)))
    (hnew : files (job.lead (tempName finalName random)) = none) :
    WorkOk job inputs files (.saving task ((finalName, content) :: plan))
      ⟨.writing task (tempName finalName random) content finalName plan,
        Function.update files (job.lead (tempName finalName random)) (some []), []⟩ := by
  obtain ⟨name, rfl, htarget⟩ := h.planned _ List.mem_cons_self
  have htouch : Touches job inputs (job.lead (tempName name.path random)) files
      (Function.update files (job.lead (tempName name.path random)) (some [])) := .update _ _
  -- an input of this name would exist, and the name would be taken
  have hinput : ∀ input ∈ job.files, job.lead input ≠ job.lead (tempName name.path random) := by
    intro input hinput heq
    refine (hapart input hinput name (Job.isFinal_of_target htarget)).2 ?_ random heq
    rw [← hinputs input hinput, heq]
    exact hnew
  refine ⟨?_, fun file => ?_, fun file hfile => Or.inr ?_, nofun⟩
  · exact ⟨name, random, [], rfl, rfl, hinput, Function.update_self ..,
      Saves.mono h fun _ hp => hp.touches htouch⟩
  · by_cases hfile : file = job.lead (tempName name.path random)
    · exact Or.inr (Or.inr (Or.inl (congrArg some hfile.symm)))
    · exact Or.inl (Function.update_of_ne hfile _ _)
  · cases hfile
    exact hnew

theorem WorkOk.write {task : RequestTaskReply} {tmpFile todo finalName : GoString}
    {plan : List (GoString × GoString)} (size : ℕ)
    (h : PcOk job inputs files (.writing task tmpFile todo finalName plan)) :
    WorkOk job inputs files (.writing task tmpFile todo finalName plan)
      ⟨.writing task tmpFile (todo.drop size) finalName plan,
        Function.update files (job.lead tmpFile)
          ((files (job.lead tmpFile)).map (· ++ todo.take size)), []⟩ := by
  obtain ⟨name, random, written, rfl, rfl, hinput, hfile, hsaves⟩ := h
  refine ⟨?_, fun file => ?_, fun file hfile => Or.inl hfile, nofun⟩
  · refine ⟨name, random, written ++ todo.take size, rfl, rfl, hinput, ?_, ?_⟩
    · exact (Function.update_self ..).trans (by rw [hfile, Option.map_some])
    · rw [List.append_assoc, List.take_append_drop]
      exact hsaves.mono fun _ hp => hp.touches (Touches.update _ _)
  · by_cases hfile : file = job.lead (tempName name.path random)
    · exact Or.inr (Or.inl (congrArg some hfile.symm))
    · exact Or.inl (Function.update_of_ne hfile _ _)

theorem WorkOk.rename {task : RequestTaskReply} {tmpFile finalName : GoString}
    {plan : List (GoString × GoString)}
    (h : PcOk job inputs files (.writing task tmpFile [] finalName plan)) :
    WorkOk job inputs files (.writing task tmpFile [] finalName plan)
      ⟨.saving task plan,
        Function.update (Function.update files (job.lead finalName) (files (job.lead tmpFile)))
          (job.lead tmpFile) none, []⟩ := by
  obtain ⟨name, random, written, rfl, rfl, hinput, hfile, hsaves⟩ := h
  obtain ⟨name', hname', htarget⟩ := hsaves.planned _ List.mem_cons_self
  obtain rfl := FinalName.path_injective hname'
  rw [List.append_nil] at htarget
  set tmpFile := job.lead (tempName name.path random)
  have hne : job.lead name.path ≠ tmpFile := (job.paths.temp_ne name name random).symm
  set files' := Function.update (Function.update files (job.lead name.path) (files tmpFile))
    tmpFile none with hfiles'
  -- the new file is right
  have hplaced : Placed job inputs files' name := by
    refine ⟨written, htarget, ?_⟩
    rw [hfiles', Function.update_of_ne hne, Function.update_self, hfile]
  have htouch : Touches job inputs tmpFile files files' := by
    intro file hfile
    by_cases heq : file = job.lead name.path
    · exact Or.inr ⟨name, heq.symm, hplaced⟩
    · exact Or.inl ((Function.update_of_ne hfile _ _).trans (Function.update_of_ne heq _ _))
  refine ⟨⟨fun p hp => hsaves.planned p (List.mem_cons_of_mem _ hp), fun name' hname' => ?_⟩,
    fun file => ?_, nofun, nofun⟩
  · rcases hsaves.placed name' hname' with hold | hmem
    · exact Or.inl (hold.touches htouch)
    · rw [List.map_cons, List.mem_cons] at hmem
      rcases hmem with heq | hmem
      · exact Or.inl (FinalName.path_injective heq ▸ hplaced)
      · exact Or.inr hmem
  · by_cases hfile : file = tmpFile
    · exact Or.inr (Or.inl (congrArg some hfile.symm))
    · exact (htouch file hfile).imp_right fun hp => Or.inr (Or.inr hp)

theorem WorkOk.report {task : RequestTaskReply} (h : PcOk job inputs files (.saving task [])) :
    WorkOk job inputs files (.saving task []) ⟨.idle, files, [⟨task.taskType, task.taskID⟩]⟩ := by
  refine ⟨trivial, fun name => Or.inl rfl, nofun, fun args hargs name hname => ?_⟩
  cases List.mem_singleton.mp hargs
  rcases h.placed name hname with hplaced | hmem
  · exact hplaced
  · cases hmem

theorem WorkOk.fail {task : RequestTaskReply} {tmpFile todo finalName : GoString}
    {plan : List (GoString × GoString)} :
    WorkOk job inputs files (.writing task tmpFile todo finalName plan)
      ⟨.stopped, Function.update files (job.lead tmpFile) none, []⟩ := by
  refine ⟨trivial, fun file => ?_, nofun, nofun⟩
  by_cases hfile : file = job.lead tmpFile
  · exact Or.inr (Or.inl (congrArg some hfile.symm))
  · exact Or.inl (Function.update_of_ne hfile _ _)

theorem PcOk.step (hapart : job.Apart inputs)
    (hinputs : ∀ input ∈ job.files, files (job.lead input) = inputs (job.lead input)) {pc : Pc}
    {a : Work} {worked : Worked} (h : PcOk job inputs files pc)
    (hs : pc.step job files a = some worked) : WorkOk job inputs files pc worked := by
  unfold Pc.step at hs
  split at hs
  · cases hs
    exact .receive h
  · cases hs
    exact .same trivial rfl
  · cases hs
    refine .same (h.readFile hinputs) ?_
    rw [Pc.readFile]
    split <;> rfl
  · cases hs
    refine .same h.openFile ?_
    rw [Pc.openFile]
    split
    · split <;> rfl
    · rfl
  · dsimp only at hs
    split at hs
    · cases hs
      exact .createTemp hapart hinputs h ‹_›
    · cases hs
  · cases hs
    exact .write _ h
  · cases hs
    exact .rename h
  · cases hs
    exact .report h
  · cases hs
    exact .fail
  · cases hs
    exact .same trivial rfl
  · cases hs

end

/-! ### The invariant of the system -/

section

variable {W : Type*}

structure Inv (job : Job) (inputs : Files) (s : System W) : Prop where
  unchanged : ∀ input ∈ job.files, s.files (job.lead input) = inputs (job.lead input)
  coordinator : s.coordinator.Ok job (Finished job inputs s.files)
  reports : ∀ args ∈ s.reports, Finished job inputs s.files args
  workers : ∀ w, PcOk job inputs s.files (s.workers w)
  /-- Nobody else writes to the temporary file of a worker. -/
  temps : ∀ w w' file, (s.workers w).temp job = some file → (s.workers w').temp job = some file →
    w = w'

variable {job : Job} {inputs : Files} {s s' : System W} [DecidableEq W]

theorem Inv.request (h : Inv job inputs s) (w : W) :
    Inv job inputs { s with
      coordinator := (s.coordinator.requestTask s.now).1
      workers := Function.update s.workers w (.replied (s.coordinator.requestTask s.now).2) } := by
  obtain ⟨hok, hoffered⟩ := h.coordinator.requestTask s.now
  refine { h with coordinator := hok, workers := fun w' => ?_, temps := fun u u' name hu hu' => ?_ }
  · simp only [Function.update_apply]
    split
    · exact hoffered
    · exact h.workers w'
  · simp only [Function.update_apply] at hu hu'
    split at hu
    · cases hu
    · split at hu'
      · cases hu'
      · exact h.temps u u' name hu hu'

theorem Inv.work (hapart : job.Apart inputs) (h : Inv job inputs s) {w : W} {a : Work}
    {worked : Worked} (hs : (s.workers w).step job s.files a = some worked) :
    Inv job inputs { s with
      files := worked.files
      workers := Function.update s.workers w worked.pc
      reports := s.reports ++ worked.sent } := by
  have hwork := (h.workers w).step hapart h.unchanged hs
  have hplaced : ∀ name, Placed job inputs s.files name → Placed job inputs worked.files name :=
    fun _ hp => hwork.placed (h.workers w) hp
  have hother : ∀ w' ≠ w, ∀ file, (s.workers w').temp job = some file →
      worked.pc.temp job ≠ some file ∧ worked.files file = s.files file :=
    fun w' hne file htemp =>
      hwork.other (h.workers w') htemp fun hown => hne (h.temps w' w file htemp hown)
  refine ⟨fun name hname => ?_, h.coordinator.mono fun _ hargs => hargs.mono hplaced,
    fun args hargs => ?_, fun w' => ?_, fun u u' name hu hu' => ?_⟩
  · exact (hwork.input (h.workers w) hapart hname).trans (h.unchanged name hname)
  · rcases List.mem_append.mp hargs with hold | hnew
    · exact (h.reports args hold).mono hplaced
    · exact hwork.sent args hnew
  · simp only [Function.update_apply]
    split
    · exact hwork.pcOk
    · rename_i hne
      exact (h.workers w').mono hplaced fun name htemp => (hother w' hne name htemp).2
  · simp only [Function.update_apply] at hu hu'
    split at hu <;> split at hu'
    · rename_i hw hw'
      rw [hw, hw']
    · rename_i hne
      exact absurd hu (hother u' hne name hu').1
    · rename_i hne _
      exact absurd hu' (hother u hne name hu).1
    · exact h.temps u u' name hu hu'

theorem Inv.step (hapart : job.Apart inputs) (h : Inv job inputs s) {a : Action W}
    (hs : s.step job a = some s') : Inv job inputs s' := by
  cases a with
  | tick duration =>
      cases hs
      exact { h with }
  | request w =>
      rw [System.step] at hs
      split at hs
      · cases hs
        exact h.request w
      · cases hs
  | stray =>
      cases hs
      exact { h with coordinator := (h.coordinator.requestTask s.now).1 }
  | work w a =>
      obtain ⟨worked, hworked, rfl⟩ := Option.map_eq_some_iff.mp hs
      exact h.work hapart hworked
  | deliver k =>
      obtain ⟨args, hargs, rfl⟩ := Option.map_eq_some_iff.mp hs
      exact { h with
        coordinator := h.coordinator.reportTask (h.reports args (List.mem_of_getElem? hargs))
        reports := fun args hmem => h.reports args (List.mem_of_mem_eraseIdx hmem) }
  | drop k =>
      cases hs
      exact { h with reports := fun args hmem => h.reports args (List.mem_of_mem_eraseIdx hmem) }

theorem inv_of_reachable (hapart : job.Apart inputs) (hr : (mrSys job inputs W).Reachable s) :
    Inv job inputs s := by
  refine hr.invariant (fun s hs => ?_) fun s a s' _ h hs => h.step hapart hs
  cases hs
  exact ⟨fun _ _ => rfl, .make job _, nofun, fun _ => trivial, nofun⟩

end

/-! ### The records -/

namespace Job

variable (job : Job)

theorem reduceRecords_eq (kva : List KeyValue) :
    (job.reduceRecords kva : Multiset (GoString × GoString)) =
      Grouping.reduced KeyValue.key KeyValue.value job.reducef kva := by
  rw [reduceRecords, ← Grouping.reduced_eq_runs _ _ (job.byKey.sorted kva)]
  exact Grouping.reduced_perm (fun key _ _ h => job.reducef_perm key h) (job.byKey.perm kva)

theorem sum_reduceRecords (kva : List KeyValue) :
    ∑ j ∈ Finset.range job.nReduce,
      (job.reduceRecords (bucket job.nReduce kva j) : Multiset (GoString × GoString)) =
        job.reduceRecords kva := by
  simp only [reduceRecords_eq, bucket]
  exact Grouping.sum_reduced (fun key => ihash key % job.nReduce)
    (fun key => Nat.mod_lt _ job.nReduce_pos) kva

theorem keys_reduceRecords (kva : List KeyValue) :
    ((job.reduceRecords kva).map Prod.fst).Nodup ∧
      ∀ key, key ∈ (job.reduceRecords kva).map Prod.fst ↔ key ∈ kva.map KeyValue.key := by
  have hsorted := job.byKey.sorted kva
  have hkeys : (job.reduceRecords kva).map Prod.fst =
      (Grouping.runs KeyValue.key KeyValue.value (job.byKey.sort kva)).map Prod.fst := by
    rw [reduceRecords, List.map_map]
    rfl
  rw [hkeys]
  refine ⟨(Grouping.runs_sorted hsorted).imp fun h => h.ne, fun key => ?_⟩
  rw [Grouping.mem_keys_runs hsorted]
  exact ((job.byKey.perm kva).map KeyValue.key).mem_iff

end Job

/-! ### The distributed job and the sequential program -/

/-- **The distributed job does what the sequential program does.** In every reachable state a
reducer that opens an intermediate file finds all pairs of the map call in it that are for its
task; and when the coordinator is in the last phase, the output files hold the records of the
sequential program, one for each key that was emitted. -/
theorem mapReduce_eq_sequential (job : Job) (inputs : Files) (W : Type*) [DecidableEq W]
    (hapart : job.Apart inputs) {s : System W} (hr : (mrSys job inputs W).Reachable s) :
    (∀ (w : W) (task : RequestTaskReply) (mapID : ℕ) (intermediate : List KeyValue),
      s.workers w = .reading task mapID intermediate → mapID < task.nMap →
        ∃ name content : GoString,
          job.files[mapID]? = some name ∧ inputs (job.lead name) = some content ∧
            (s.files (job.lead (intermediateName mapID task.taskID))).bind job.json.decode =
              some (bucket job.nReduce (job.mapf name content) task.taskID)) ∧
    (s.coordinator.phase = .donePhase →
      ∃ (kva : List KeyValue) (records : List (GoString × GoString))
        (out : ℕ → List (GoString × GoString)),
        job.emitted inputs = some kva ∧ job.sequential inputs = some records ∧
          (∀ j < job.nReduce, out j = job.reduceRecords (bucket job.nReduce kva j) ∧
            s.files (job.lead (outName j)) = some (Job.print (out j))) ∧
          ∑ j ∈ Finset.range job.nReduce, (out j : Multiset (GoString × GoString)) = records ∧
          (records.map Prod.fst).Nodup ∧
          ∀ key, key ∈ records.map Prod.fst ↔ key ∈ kva.map KeyValue.key) := by
  have hinv := inv_of_reachable hapart hr
  refine ⟨fun w task mapID intermediate hw hmap => ?_, fun hdone => ?_⟩
  · have hpc := hinv.workers w
    rw [hw] at hpc
    obtain ⟨name, kva, hname, hemitted, hdecode⟩ := hpc.intermediate hmap
    obtain ⟨content, hcontent, rfl⟩ := Option.map_eq_some_iff.mp hemitted
    exact ⟨name, content, hname, hcontent, hdecode⟩
  · have hplaced : ∀ j < job.nReduce, Placed job inputs s.files (.out j) := fun j hj =>
      hinv.coordinator.reduced hdone j hj _ List.mem_cons_self
    -- the first output file tells that all inputs could be read
    obtain ⟨content, htarget, -⟩ := hplaced 0 job.nReduce_pos
    rw [Job.target, if_pos (Nat.lt_of_succ_le job.nReduce_pos)] at htarget
    obtain ⟨kva, hkva, -⟩ := Option.map_eq_some_iff.mp htarget
    obtain ⟨hnodup, hkeys⟩ := job.keys_reduceRecords kva
    refine ⟨kva, job.reduceRecords kva, fun j => job.reduceRecords (bucket job.nReduce kva j), hkva,
      by rw [Job.sequential, hkva, Option.map_some], fun j hj => ⟨rfl, ?_⟩,
      job.sum_reduceRecords kva, hnodup, hkeys⟩
    obtain ⟨content, htarget, hfile⟩ := hplaced j hj
    rw [Job.target, if_pos hj, hkva, Option.map_some] at htarget
    exact hfile.trans htarget.symm

/-! ### A job in two directories -/

/-- Emits `a` for a file that is empty, and `b` for one that is not. -/
def sampleMapf (content : GoString) : List KeyValue :=
  if content = [] then [⟨[97], []⟩] else [⟨[98], []⟩]

theorem sampleMapf_utf8 (content : GoString) :
    ∀ kv ∈ sampleMapf content, Utf8 kv.key ∧ Utf8 kv.value := by
  have hempty : Utf8 [] := ⟨"", rfl⟩
  have ha : Utf8 [97] := ⟨"a", by decide⟩
  have hb : Utf8 [98] := ⟨"b", by decide⟩
  rw [sampleMapf]
  split
  · simp [ha, hempty]
  · simp [hb, hempty]

/-- One reduce task, and two inputs of which the second is `x`. -/
def sampleJob (first : GoString) : Job where
  paths := samplePaths
  files := [first, [120]]
  nReduce := 1
  nReduce_pos := le_rfl
  mapf _ := sampleMapf
  mapf_utf8 _ := sampleMapf_utf8
  reducef _ _ := []
  reducef_perm _ _ _ _ := rfl
  json := goJson
  byKey := sampleByKey

def sampleInputs (first : GoString) : Files := fun file =>
  if file = samplePaths.leads first ∨ file = samplePaths.leads [120] then some [] else none

def sampleMap (w random : ℕ) : List (Action ℕ) :=
  [.receive, .readFile, .createTemp random, .write 1, .write 100, .rename, .report].map (.work w)

def sampleReduce (w random : ℕ) : List (Action ℕ) :=
  [.receive, .openFile, .openFile, .openFile, .createTemp random, .write 100, .rename, .report].map
    (.work w)

/-- The first worker gets its task, but only starts when the second has finished its own, and
the third does the reduce task. -/
def sampleActions : List (Action ℕ) :=
  List.flatten [[.request 0, .request 1], sampleMap 1 0, sampleMap 0 0,
    [.deliver 0, .deliver 0, .request 2], sampleReduce 2 0, [.deliver 0]]

def sampleEnd (first : GoString) : System ℕ :=
  play (System.step (sampleJob first)) (.init (sampleJob first) (sampleInputs first) ℕ)
    sampleActions

theorem mapReduce_eq_sequential_sample :
    (sampleEnd [121]).coordinator.phase = .donePhase ∧
      ∃ (kva : List KeyValue) (records : List (GoString × GoString))
        (out : ℕ → List (GoString × GoString)),
        (sampleJob [121]).sequential (sampleInputs [121]) = some records ∧
          (∀ j < 1, (sampleEnd [121]).files (samplePaths.leads (outName j)) =
            some (Job.print (out j))) ∧
          ∑ j ∈ Finset.range 1, (out j : Multiset (GoString × GoString)) = records ∧
          ∀ key, key ∈ records.map Prod.fst ↔ key ∈ kva.map KeyValue.key := by
  have hdone : (sampleEnd [121]).coordinator.phase = .donePhase := by decide +kernel
  have hapart : (sampleJob [121]).Apart (sampleInputs [121]) := by
    intro input hinput name _
    have hthere : ∀ input ∈ [[121], [120]],
        sampleInputs [121] (samplePaths.leads input) ≠ none ∧
          samplePaths.leads input = [input] ∧ input.head? ≠ some 109 := by decide +kernel
    obtain ⟨hsome, hlead, hhead⟩ := hthere input hinput
    refine ⟨fun heq => hhead ?_, fun hnone => absurd hnone hsome⟩
    have hfile : [input] = [] ++ [name.path] :=
      hlead.symm.trans (heq.trans (name.plain.resolve []))
    rw [(List.cons.inj hfile).1]
    exact name.plain.head
  obtain ⟨kva, records, out, -, hrecords, hfiles, hsum, -, hkeys⟩ :=
    (mapReduce_eq_sequential _ _ ℕ hapart (reachable_play _ _ sampleActions)).2 hdone
  exact ⟨hdone, kva, records, out, hrecords, fun j hj => (hfiles j hj).2, hsum, hkeys⟩

/-- The run ends with two records, where `mrsequential` writes one. -/
def Diverges (first : GoString) : Prop :=
  (sampleEnd first).coordinator.phase = .donePhase ∧
    (sampleEnd first).files (samplePaths.leads (outName 0)) =
      some (Job.print [([97], []), ([98], [])]) ∧
    (sampleJob first).sequential (sampleInputs first) = some [([97], [])]

instance divergesDecidable (first : GoString) : Decidable (Diverges first) :=
  inferInstanceAs (Decidable (_ ∧ _))

/-- The first input is called `mr-1-0` or `./mr-1-0`: it is replaced before it is read. -/
theorem input_replaced :
    ((mrSys (sampleJob (intermediateName 1 0)) (sampleInputs (intermediateName 1 0)) ℕ).Reachable
        (sampleEnd (intermediateName 1 0)) ∧
      Diverges (intermediateName 1 0)) ∧
    ((mrSys (sampleJob ([46, 47] ++ intermediateName 1 0))
          (sampleInputs ([46, 47] ++ intermediateName 1 0)) ℕ).Reachable
        (sampleEnd ([46, 47] ++ intermediateName 1 0)) ∧
      Diverges ([46, 47] ++ intermediateName 1 0)) :=
  ⟨⟨reachable_play _ _ sampleActions, by decide +kernel⟩,
    ⟨reachable_play _ _ sampleActions, by decide +kernel⟩⟩

end RaftShardedKv.Mr
