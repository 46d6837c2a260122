import RaftShardedKv.Lib.Transition
import RaftShardedKv.Mr.Coordinator

/-!
The workers, from `mr/worker.go`, around one coordinator and one directory.

A worker does one thing at a time: it reads its input, opens one intermediate
file, writes a piece of a temporary file, renames it. Between any two of these
the others go on, and it may stop for good, as all its `log.Fatalf` make it
do. An open file stays what it was when its name is given to another one, so
opening and decoding an intermediate file is one step.

A reply may be lost, and a report may be executed late or not at all; a
request may be executed although nobody waits for the reply any more.
-/

namespace RaftShardedKv.Mr

open RaftShardedKv.Transition

/-! ### One worker -/

/-- Where a worker is. -/
inductive Pc
  | idle
  | replied (reply : RequestTaskReply)
  /-- `doMapTask`, before the input is read -/
  | mapping (task : RequestTaskReply)
  /-- `doReduceTask`, before the intermediate file of `mapID` is opened -/
  | reading (task : RequestTaskReply) (mapID : ℕ) (intermediate : List KeyValue)
  /-- The files that are still to be written. -/
  | saving (task : RequestTaskReply) (plan : List (GoString × GoString))
  /-- `todo` is still to be written to `tmpFile`, which then becomes `finalName`. -/
  | writing (task : RequestTaskReply) (tmpFile todo finalName : GoString)
      (plan : List (GoString × GoString))
  | stopped
  deriving DecidableEq, Repr

inductive Work
  | receive
  /-- `call` returns false. -/
  | lose
  | readFile
  | openFile
  | createTemp (random : ℕ)
  /-- The buffer of the writer goes to the file in pieces. -/
  | write (size : ℕ)
  | rename
  | report
  /-- An error while a file is written: the temporary file is removed. -/
  | fail
  | stop
  deriving DecidableEq, Repr

/-- What a step of a worker leaves behind. -/
structure Worked where
  pc : Pc
  files : Files
  sent : List ReportTaskArgs

namespace Pc

def receive (reply : RequestTaskReply) : Pc :=
  match reply.taskType with
  | .mapTask => .mapping reply
  | .reduceTask => .reading reply 0 []
  | .waitTask => .idle
  | .exitTask => .stopped

def readFile (job : Job) (files : Files) (task : RequestTaskReply) : Pc :=
  match files (job.lead task.fileName) with
  | none => .stopped
  | some content =>
      .saving task (job.mapPlan task.taskID task.nReduce (job.mapf task.fileName content))

def openFile (job : Job) (files : Files) (task : RequestTaskReply) (mapID : ℕ)
    (intermediate : List KeyValue) : Pc :=
  if mapID < task.nMap then
    match (files (job.lead (intermediateName mapID task.taskID))).bind job.json.decode with
    | none => .stopped
    | some kva => .reading task (mapID + 1) (intermediate ++ kva)
  else .saving task (job.reducePlan task.taskID intermediate)

def step (job : Job) (files : Files) : Pc → Work → Option Worked
  | .replied reply, .receive => some ⟨receive reply, files, []⟩
  | .replied _, .lose => some ⟨.idle, files, []⟩
  | .mapping task, .readFile => some ⟨readFile job files task, files, []⟩
  | .reading task mapID intermediate, .openFile =>
      some ⟨openFile job files task mapID intermediate, files, []⟩
  | .saving task ((finalName, content) :: plan), .createTemp random =>
      let tmpFile := tempName finalName random
      if files (job.lead tmpFile) = none then
        some ⟨.writing task tmpFile content finalName plan,
          Function.update files (job.lead tmpFile) (some []), []⟩
      else none
  | .writing task tmpFile todo finalName plan, .write size =>
      some ⟨.writing task tmpFile (todo.drop size) finalName plan,
        Function.update files (job.lead tmpFile)
          ((files (job.lead tmpFile)).map (· ++ todo.take size)), []⟩
  | .writing task tmpFile [] finalName plan, .rename =>
      some ⟨.saving task plan,
        Function.update (Function.update files (job.lead finalName) (files (job.lead tmpFile)))
          (job.lead tmpFile) none, []⟩
  | .saving task [], .report => some ⟨.idle, files, [⟨task.taskType, task.taskID⟩]⟩
  | .writing _ tmpFile _ _ _, .fail =>
      some ⟨.stopped, Function.update files (job.lead tmpFile) none, []⟩
  | _, .stop => some ⟨.stopped, files, []⟩
  | _, _ => none

end Pc

/-! ### The system -/

structure System (W : Type*) where
  now : ℕ
  coordinator : Coordinator
  files : Files
  workers : W → Pc
  /-- The reports that the coordinator has not executed. -/
  reports : List ReportTaskArgs

inductive Action (W : Type*)
  | tick (duration : ℕ)
  | request (w : W)
  /-- A request of somebody who does not wait for the reply any more. -/
  | stray
  | work (w : W) (a : Work)
  | deliver (k : ℕ)
  | drop (k : ℕ)

namespace System

variable {W : Type*} [DecidableEq W]

def init (job : Job) (files : Files) (W : Type*) : System W :=
  ⟨0, .make job.files job.nReduce, files, fun _ => .idle, []⟩

def step (job : Job) (s : System W) : Action W → Option (System W)
  | .tick duration => some { s with now := s.now + duration }
  | .request w =>
      if s.workers w = .idle then
        let (c, reply) := s.coordinator.requestTask s.now
        some { s with
          coordinator := c
          workers := Function.update s.workers w (.replied reply) }
      else none
  | .stray => some { s with coordinator := (s.coordinator.requestTask s.now).1 }
  | .work w a =>
      ((s.workers w).step job s.files a).map fun worked =>
        { s with
          files := worked.files
          workers := Function.update s.workers w worked.pc
          reports := s.reports ++ worked.sent }
  | .deliver k =>
      s.reports[k]?.map fun args =>
        { s with
          coordinator := s.coordinator.reportTask args
          reports := s.reports.eraseIdx k }
  | .drop k => some { s with reports := s.reports.eraseIdx k }

end System

/-- The job over a directory. -/
def mrSys (job : Job) (files : Files) (W : Type*) [DecidableEq W] : Sys (System W) (Action W) :=
  .ofStep (.init job files W) (System.step job)

end RaftShardedKv.Mr
