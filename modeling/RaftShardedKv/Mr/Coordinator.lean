import RaftShardedKv.Mr.Job

/-!
The coordinator, from `mr/coordinator.go`, and the messages of `mr/rpc.go`.

Times are nanoseconds. The coordinator knows of a task only whether it was
reported; that a report is made after the files are in place is what the
invariant takes from the workers: `mapped i` and `reduced j` stand for "the
files of this task are in place".
-/

namespace RaftShardedKv.Mr

inductive TaskStatus
  | idle
  | inProgress
  | completed
  deriving DecidableEq, Repr

inductive Phase
  | mapPhase
  | reducePhase
  | donePhase
  deriving DecidableEq, Repr

structure Task where
  id : ℕ
  fileName : GoString
  status : TaskStatus
  startTime : ℕ
  deriving DecidableEq, Repr

inductive TaskType
  | mapTask
  | reduceTask
  | waitTask
  | exitTask
  deriving DecidableEq, Repr

structure RequestTaskReply where
  taskType : TaskType
  taskID : ℕ
  fileName : GoString
  nReduce : ℕ
  nMap : ℕ
  deriving DecidableEq, Repr

structure ReportTaskArgs where
  taskType : TaskType
  taskID : ℕ
  deriving DecidableEq, Repr

def taskTimedOut (now : ℕ) (task : Task) : Bool :=
  task.status = .inProgress ∧ 10 * 1000000000 < now - task.startTime

/-- `allMapTasksDone` and `allReduceTasksDone` -/
def allTasksDone (tasks : List Task) : Bool := tasks.all fun task => task.status = .completed

/-- The loop of `RequestTask` over the tasks of a phase: the first that is to be
done, or done again. -/
def assign (now : ℕ) : List Task → Option (List Task × Task)
  | [] => none
  | task :: tasks =>
      if task.status = .idle ∨ taskTimedOut now task then
        let task := { task with status := .inProgress, startTime := now }
        some (task :: tasks, task)
      else (assign now tasks).map fun (tasks, assigned) => (task :: tasks, assigned)

/-- The task that is reported, if it is in progress. -/
def complete (tasks : List Task) (taskID : ℕ) : List Task :=
  tasks.modify taskID fun task =>
    if task.status = .inProgress then { task with status := .completed } else task

structure Coordinator where
  phase : Phase
  mapTasks : List Task
  reduceTasks : List Task
  nMap : ℕ
  nReduce : ℕ
  deriving DecidableEq, Repr

namespace Coordinator

def make (files : List GoString) (nReduce : ℕ) : Coordinator where
  phase := .mapPhase
  mapTasks := files.mapIdx fun i file => ⟨i, file, .idle, 0⟩
  reduceTasks := (List.range nReduce).map fun i => ⟨i, [], .idle, 0⟩
  nMap := files.length
  nReduce := nReduce

/-- A reply without a task. -/
def reply (c : Coordinator) (taskType : TaskType) : RequestTaskReply :=
  ⟨taskType, 0, [], c.nReduce, c.nMap⟩

/-- `RequestTask` in the reduce phase. -/
def requestReduce (c : Coordinator) (now : ℕ) : Coordinator × RequestTaskReply :=
  if allTasksDone c.reduceTasks then ({ c with phase := .donePhase }, c.reply .exitTask)
  else
    match assign now c.reduceTasks with
    | some (tasks, task) =>
        ({ c with reduceTasks := tasks }, { c.reply .reduceTask with taskID := task.id })
    | none => (c, c.reply .waitTask)

def requestTask (c : Coordinator) (now : ℕ) : Coordinator × RequestTaskReply :=
  match c.phase with
  | .mapPhase =>
      if allTasksDone c.mapTasks then requestReduce { c with phase := .reducePhase } now
      else
        match assign now c.mapTasks with
        | some (tasks, task) => ({ c with mapTasks := tasks },
            { c.reply .mapTask with taskID := task.id, fileName := task.fileName })
        | none => (c, c.reply .waitTask)
  | .reducePhase => c.requestReduce now
  | .donePhase => (c, c.reply .exitTask)

def reportTask (c : Coordinator) (args : ReportTaskArgs) : Coordinator :=
  match args.taskType with
  | .mapTask =>
      if c.mapTasks.length ≤ args.taskID then c
      else if c.phase = .mapPhase then
        let tasks := complete c.mapTasks args.taskID
        { c with
          mapTasks := tasks
          phase := if allTasksDone tasks then .reducePhase else c.phase }
      else c
  | .reduceTask =>
      if c.reduceTasks.length ≤ args.taskID then c
      else if c.phase = .reducePhase then
        let tasks := complete c.reduceTasks args.taskID
        { c with
          reduceTasks := tasks
          phase := if allTasksDone tasks then .donePhase else c.phase }
      else c
  | _ => c

end Coordinator

/-! ### The tasks of a phase -/

/-- The tasks for `names`, of which those that are completed are `done`. -/
structure Tasks (names : List GoString) (done : ℕ → Prop) (tasks : List Task) : Prop where
  length : tasks.length = names.length
  task : ∀ (i : ℕ) (task : Task), tasks[i]? = some task →
    task.id = i ∧ names[i]? = some task.fileName ∧ (task.status = .completed → done i)

section

variable {names : List GoString} {done done' : ℕ → Prop} {tasks : List Task}

theorem Tasks.mono (h : Tasks names done tasks) (hdone : ∀ i, done i → done' i) :
    Tasks names done' tasks :=
  ⟨h.length, fun i task hi =>
    ⟨(h.task i task hi).1, (h.task i task hi).2.1, fun hc => hdone i ((h.task i task hi).2.2 hc)⟩⟩

theorem Tasks.all_done (h : Tasks names done tasks) (hall : allTasksDone tasks = true) :
    ∀ i < names.length, done i := by
  intro i hi
  rw [← h.length] at hi
  refine (h.task i tasks[i] (List.getElem?_eq_getElem hi)).2.2 ?_
  simpa using List.all_eq_true.mp hall tasks[i] (List.getElem_mem hi)

theorem Tasks.set (h : Tasks names done tasks) {i : ℕ} {task task' : Task}
    (hi : tasks[i]? = some task) (hid : task'.id = task.id)
    (hname : task'.fileName = task.fileName) (hdone : task'.status = .completed → done i) :
    Tasks names done (tasks.set i task') := by
  refine ⟨by rw [List.length_set, h.length], fun k t hk => ?_⟩
  rw [List.getElem?_set] at hk
  split at hk
  · subst k
    split at hk
    · cases hk
      rw [hid, hname]
      exact ⟨(h.task i task hi).1, (h.task i task hi).2.1, hdone⟩
    · cases hk
  · exact h.task k t hk

theorem assign_eq_some {now : ℕ} {tasks' : List Task} {task' : Task}
    (h : assign now tasks = some (tasks', task')) :
    ∃ (i : ℕ) (task : Task), tasks[i]? = some task ∧ tasks' = tasks.set i task' ∧
      task' = { task with status := .inProgress, startTime := now } := by
  induction tasks generalizing tasks' with
  | nil => cases h
  | cons task tasks ih =>
      rw [assign] at h
      split at h
      · cases h
        exact ⟨0, task, rfl, rfl, rfl⟩
      · obtain ⟨⟨rest, assigned⟩, hrest, heq⟩ := Option.map_eq_some_iff.mp h
        cases heq
        obtain ⟨i, found, hi, rfl, rfl⟩ := ih hrest
        exact ⟨i + 1, found, hi, rfl, rfl⟩

theorem Tasks.assign (h : Tasks names done tasks) {now : ℕ} {tasks' : List Task} {task : Task}
    (ha : assign now tasks = some (tasks', task)) :
    Tasks names done tasks' ∧ names[task.id]? = some task.fileName := by
  obtain ⟨i, found, hi, rfl, rfl⟩ := assign_eq_some ha
  obtain ⟨hid, hname, -⟩ := h.task i found hi
  refine ⟨h.set hi rfl rfl nofun, ?_⟩
  change names[found.id]? = some found.fileName
  rw [hid, hname]

theorem Tasks.complete (h : Tasks names done tasks) {taskID : ℕ} (hdone : done taskID) :
    Tasks names done (complete tasks taskID) := by
  refine ⟨by rw [Mr.complete, List.length_modify, h.length], fun i task hi => ?_⟩
  rw [Mr.complete, List.getElem?_modify] at hi
  obtain ⟨found, hfound, rfl⟩ := Option.map_eq_some_iff.mp hi
  obtain ⟨hid, hname, hc⟩ := h.task i found hfound
  split
  · rename_i heq
    rw [heq] at hdone
    split <;> exact ⟨hid, hname, fun _ => hdone⟩
  · exact ⟨hid, hname, hc⟩

end

/-! ### The invariant of the coordinator -/

/-- What the coordinator may rely on, when `done` says of a task that its files
are in place. -/
structure Coordinator.Ok (job : Job) (done : ReportTaskArgs → Prop) (c : Coordinator) : Prop where
  nMap : c.nMap = job.files.length
  nReduce : c.nReduce = job.nReduce
  mapTasks : Tasks job.files (fun i => done ⟨.mapTask, i⟩) c.mapTasks
  reduceTasks : Tasks (List.replicate job.nReduce ([]))
    (fun i => done ⟨.reduceTask, i⟩) c.reduceTasks
  mapped : c.phase ≠ .mapPhase → ∀ i < job.files.length, done ⟨.mapTask, i⟩
  reduced : c.phase = .donePhase → ∀ i < job.nReduce, done ⟨.reduceTask, i⟩

/-- What a worker may rely on that gets this reply. -/
def Offered (job : Job) (done : ReportTaskArgs → Prop) (reply : RequestTaskReply) : Prop :=
  match reply.taskType with
  | .mapTask => job.files[reply.taskID]? = some reply.fileName ∧ reply.nReduce = job.nReduce
  | .reduceTask => reply.taskID < job.nReduce ∧ reply.nMap = job.files.length ∧
      ∀ i < job.files.length, done ⟨.mapTask, i⟩
  | _ => True

theorem Offered.mono {job : Job} {done done' : ReportTaskArgs → Prop} {reply : RequestTaskReply}
    (h : Offered job done reply) (hdone : ∀ args, done args → done' args) :
    Offered job done' reply := by
  obtain ⟨taskType, taskID, fileName, nReduce, nMap⟩ := reply
  cases taskType with
  | mapTask => exact h
  | reduceTask => exact ⟨h.1, h.2.1, fun i hi => hdone _ (h.2.2 i hi)⟩
  | waitTask => trivial
  | exitTask => trivial

namespace Coordinator.Ok

variable {job : Job} {done done' : ReportTaskArgs → Prop} {c : Coordinator}

theorem mono (h : c.Ok job done) (hdone : ∀ args, done args → done' args) : c.Ok job done' where
  nMap := h.nMap
  nReduce := h.nReduce
  mapTasks := h.mapTasks.mono fun _ => hdone _
  reduceTasks := h.reduceTasks.mono fun _ => hdone _
  mapped hp i hi := hdone _ (h.mapped hp i hi)
  reduced hp i hi := hdone _ (h.reduced hp i hi)

theorem make (job : Job) (done : ReportTaskArgs → Prop) :
    (make job.files job.nReduce).Ok job done where
  nMap := rfl
  nReduce := rfl
  mapTasks := by
    refine ⟨List.length_mapIdx, fun i task hi => ?_⟩
    rw [Coordinator.make, List.getElem?_mapIdx] at hi
    obtain ⟨file, hfile, rfl⟩ := Option.map_eq_some_iff.mp hi
    exact ⟨rfl, hfile, nofun⟩
  reduceTasks := by
    refine ⟨by simp [Coordinator.make], fun i task hi => ?_⟩
    rw [Coordinator.make, List.getElem?_map] at hi
    obtain ⟨k, hk, rfl⟩ := Option.map_eq_some_iff.mp hi
    obtain ⟨hlt, rfl⟩ := List.getElem?_eq_some_iff.mp hk
    rw [List.length_range] at hlt
    simp [hlt]
  mapped hp := absurd rfl hp
  reduced hp := by cases hp

theorem reduce_done (h : c.Ok job done) (hall : allTasksDone c.reduceTasks = true) :
    ∀ i < job.nReduce, done ⟨.reduceTask, i⟩ := by
  simpa using h.reduceTasks.all_done hall

theorem requestReduce (h : c.Ok job done) (hphase : c.phase = .reducePhase) (now : ℕ) :
    (c.requestReduce now).1.Ok job done ∧ Offered job done (c.requestReduce now).2 := by
  have hmapped : ∀ i < job.files.length, done ⟨.mapTask, i⟩ :=
    h.mapped (by rw [hphase]; decide)
  rw [Coordinator.requestReduce]
  split
  · rename_i hall
    exact ⟨{ h with mapped := fun _ => hmapped, reduced := fun _ => h.reduce_done hall }, trivial⟩
  · split
    · rename_i tasks task hassign
      obtain ⟨htasks, hname⟩ := h.reduceTasks.assign hassign
      obtain ⟨hlt, -⟩ := List.getElem?_eq_some_iff.mp hname
      rw [List.length_replicate] at hlt
      exact ⟨{ h with reduceTasks := htasks }, hlt, h.nMap, hmapped⟩
    · exact ⟨h, trivial⟩

theorem requestTask (h : c.Ok job done) (now : ℕ) :
    (c.requestTask now).1.Ok job done ∧ Offered job done (c.requestTask now).2 := by
  rw [Coordinator.requestTask]
  split
  · split
    · rename_i hall
      -- the phase ends with this request
      have hnext : ({ c with phase := .reducePhase } : Coordinator).Ok job done :=
        { h with mapped := fun _ => h.mapTasks.all_done hall, reduced := fun hp => by cases hp }
      exact hnext.requestReduce rfl now
    · split
      · rename_i tasks task hassign
        obtain ⟨htasks, hname⟩ := h.mapTasks.assign hassign
        exact ⟨{ h with mapTasks := htasks }, hname, h.nReduce⟩
      · exact ⟨h, trivial⟩
  · rename_i hphase
    exact h.requestReduce hphase now
  · exact ⟨h, trivial⟩

/-- A report is taken at its word. -/
theorem reportTask (h : c.Ok job done) {args : ReportTaskArgs} (hargs : done args) :
    (c.reportTask args).Ok job done := by
  obtain ⟨taskType, taskID⟩ := args
  rw [Coordinator.reportTask]
  split
  · cases ‹_ = TaskType.mapTask›
    split_ifs with hbound hphase
    · exact h
    · have htasks := h.mapTasks.complete hargs
      refine { h with mapTasks := htasks, mapped := fun hp => ?_, reduced := fun hp => ?_ }
      · refine htasks.all_done ?_
        by_contra hall
        exact hp (by simp [hall, hphase])
      · simp only [hphase] at hp
        split at hp <;> cases hp
    · exact h
  · cases ‹_ = TaskType.reduceTask›
    split_ifs with hbound hphase
    · exact h
    · have htasks := h.reduceTasks.complete hargs
      refine { h with reduceTasks := htasks, mapped := fun _ => ?_, reduced := fun hp => ?_ }
      · exact h.mapped (by rw [hphase]; decide)
      · have hall : allTasksDone (complete c.reduceTasks taskID) = true := by
          by_contra hall
          simp [hall, hphase] at hp
        simpa using htasks.all_done hall
    · exact h
  · exact h

end Coordinator.Ok

end RaftShardedKv.Mr
