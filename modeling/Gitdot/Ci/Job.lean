/-
# What a runner reports of a task

A job of the runner marks the task it has polled as running, makes a working
directory with a clone of the repository in it, runs the command while its
output goes to the log, and reports how it ended. `JobState` is where the job
is, `pending` the call that it waits for there, and `resume` where an answer
takes it. Calls to the server are answered by the handler of `update_task`, on
the tasks that other requests work on as well.

All that goes wrong once the executor is there is reported as a failure. What
goes wrong before is not reported, and the task stays as the first report has
left it. `Reports` excludes this, and that the server refuses a report, as it
does an hour after the poll. A run without these ends with an outcome
(`reports_outcome`).

Key definitions: `JobState`, `JobSetup.pending`, `JobSetup.resume`, `jobNext`,
`Reports`, `Sound`.
Key theorems: `statusOf_updateTaskHandler`, `sound_run`, `reports_outcome`.
-/
import Gitdot.Ci.Run
import Gitdot.Ci.TaskTokens

namespace Gitdot
namespace Ci

open Lib Auth

/-- `PollTaskResource`, as much of it as a job reads. -/
structure PollTaskResource where
  token : String
  id : Uuid
  ownerName : String
  repositoryName : String
  s2Uri : String
  command : String
  deriving DecidableEq

structure RunnerConfig where
  gitdotServerUrl : String
  s2ServerUrl : String
  deriving DecidableEq

/-! ### The calls of a job -/

inductive Pipe where
  | stdout
  | stderr
  deriving DecidableEq

def Pipe.text : Pipe → String
  | .stdout => "stdout"
  | .stderr => "stderr"

/-- A call that may fail. `select` reads from one of the pipes that are not
done; `submit` appends a record with one header. -/
inductive JobCall where
  | updateTask (id : Uuid) (status : String)
  | createDirAll (path : String)
  | clone (url path : String)
  | fromUrl (url token : String)
  | spawn (command directory : String)
  | select (stdoutDone stderrDone : Bool)
  | submit (body : List UInt8) (header value : String)
  | wait
  | close
  | removeDirAll (path : String)
  deriving DecidableEq

/-- What a call is answered. -/
inductive JobAnswer where
  | failed
  | ok
  | chunk (pipe : Pipe) (bytes : List UInt8)
  | exited (success : Bool)
  deriving DecidableEq

/-- Where a job is: what it does next. -/
inductive JobState where
  | marking
  | makingDirectory
  | cloning
  | connecting
  | spawning
  | reading (stdoutDone stderrDone : Bool)
  | logging (pipe : Pipe) (bytes : List UInt8) (stdoutDone stderrDone : Bool)
  | waiting
  | loggingEnd (success : Bool)
  | closing (success : Bool)
  | reporting (ok : Bool)
  | cleaning
  | done
  deriving DecidableEq

/-- What a poll has answered to a runner, and the tokens of the server: the one
for the task was issued at the poll, for an hour. Which names S2 accepts is up
to its client. -/
structure JobSetup (Key : Type) where
  c : JsonWebToken Key
  publicKey : String
  issued : Set Issued
  signs : Signs c publicKey issued
  config : RunnerConfig
  validBasin : String → Bool
  validStream : String → Bool
  task : PollTaskResource
  polledAt : Store
  issued_token : Issued.task polledAt ⟨task.id, 3600⟩ ∈ issued
  token_eq : task.token = (Issued.task polledAt ⟨task.id, 3600⟩).token c

namespace JobSetup

variable {Key : Type} (S : JobSetup Key)

def workingDirectory : String := "/tmp/gitdot/tasks/" ++ Uuid.text S.task.id

def cloneUrl : String :=
  S.config.gitdotServerUrl ++ "/" ++ S.task.ownerName ++ "/" ++ S.task.repositoryName

/-- `parse_s2_uri`. -/
def parseS2Uri (uri : String) : Option (String × String) := do
  let rest ← stripPrefix "s2://" uri
  let (basin, stream) ← match rest.toList.span (· ≠ '/') with
    | (basin, _ :: stream) => some (basin, String.ofList stream)
    | (_, []) => none
  let basin := String.ofList (basin.map fun c => if c = '.' then '-' else c)
  if S.validBasin basin ∧ S.validStream stream then some (basin, stream) else none

/-- `task_status` of the last record, and `final_status`. -/
def finalStatus (ok : Bool) : String := if ok then "success" else "failure"

/-- The call that the job waits for. -/
def pending : JobState → Option JobCall
  | .marking => some (.updateTask S.task.id "running")
  | .makingDirectory => some (.createDirAll S.workingDirectory)
  | .cloning => some (.clone S.cloneUrl S.workingDirectory)
  | .connecting => some (.fromUrl S.config.s2ServerUrl S.task.token)
  | .spawning => some (.spawn S.task.command S.workingDirectory)
  | .reading stdoutDone stderrDone => some (.select stdoutDone stderrDone)
  | .logging pipe bytes _ _ => some (.submit bytes "stream" pipe.text)
  | .waiting => some .wait
  | .loggingEnd success => some (.submit [] "task-finished" (finalStatus success))
  | .closing _ => some .close
  | .reporting ok => some (.updateTask S.task.id (finalStatus ok))
  | .cleaning => some (.removeDirAll S.workingDirectory)
  | .done => none

/-- The loop `while !stdout_done || !stderr_done`. -/
def afterRead (stdoutDone stderrDone : Bool) : JobState :=
  if stdoutDone && stderrDone then .waiting else .reading stdoutDone stderrDone

/-- Where an answer takes the job, `none` if it is no answer to its call. -/
def resume : JobState → JobAnswer → Option JobState
  | .marking, .ok => some .makingDirectory
  | .marking, .failed => some .done
  | .makingDirectory, .ok => some .cloning
  | .makingDirectory, .failed => some .done
  | .cloning, .ok => some .connecting
  | .cloning, .failed => some .done
  | .connecting, .ok =>
    -- `execute` begins with the URI
    some (if (S.parseS2Uri S.task.s2Uri).isSome then .spawning else .reporting false)
  | .connecting, .failed => some .done
  | .spawning, .ok => some (.reading false false)
  | .spawning, .failed => some (.reporting false)
  | .reading stdoutDone stderrDone, .chunk pipe bytes =>
    match pipe, stdoutDone, stderrDone with
    | .stdout, false, _ =>
      some (if bytes = [] then afterRead true stderrDone else .logging pipe bytes stdoutDone stderrDone)
    | .stderr, _, false =>
      some (if bytes = [] then afterRead stdoutDone true else .logging pipe bytes stdoutDone stderrDone)
    | _, _, _ => none
  | .reading _ _, .failed => some (.reporting false)
  | .logging _ _ stdoutDone stderrDone, .ok => some (.reading stdoutDone stderrDone)
  | .logging _ _ _ _, .failed => some (.reporting false)
  | .waiting, .exited success => some (.loggingEnd success)
  | .waiting, .failed => some (.reporting false)
  | .loggingEnd success, .ok => some (.closing success)
  | .loggingEnd _, .failed => some (.reporting false)
  | .closing success, .ok => some (.reporting success)
  | .closing _, .failed => some (.reporting false)
  | .reporting _, .ok | .reporting _, .failed => some .cleaning
  | .cleaning, .ok | .cleaning, .failed => some .done
  | _, _ => none

end JobSetup

/-! ### The job and the server -/

/-- The process of the command. -/
inductive CommandState where
  | notStarted
  | running
  | exited (success : Bool)
  deriving DecidableEq

/-- What an answer says of the process. -/
def CommandState.next (command : CommandState) : JobState → JobAnswer → CommandState
  | .spawning, .ok => .running
  | .waiting, .exited success => .exited success
  | _, _ => command

structure JobSystem where
  job : JobState
  command : CommandState
  tasks : Table Task

/-- What happens next. `server` is the pending report reaching the server, at a
time, with a plan of which statements fail, and its response reaching the job
or not; `answer` any other call of the job being answered; `other` a statement
of another request. -/
inductive JobMove where
  | server (now : Time) (plan : List Bool) (answered : Bool)
  | answer (a : JobAnswer)
  | other (call : TaskCall)

section Runs

variable {Key : Type} (S : JobSetup Key)

/-- A report of the job, handled by the server. -/
def JobSetup.report (now : Time) (plan : List Bool) (id : Uuid) (status : String) (tasks : Table Task) :
    Except AppError Task × Table Task :=
  updateTaskHandler S.c S.publicKey now plan (some ("Bearer " ++ S.task.token)) id status tasks

def jobNext : JobMove → JobSystem → JobSystem
  | .server now plan answered, s =>
    match S.pending s.job with
    | some (.updateTask id status) =>
      let out := S.report now plan id status s.tasks
      let a := if out.1.isOk && answered then .ok else .failed
      { s with job := (S.resume s.job a).getD s.job, tasks := out.2 }
    | _ => s
  | .answer a, s =>
    match S.pending s.job with
    | some (.updateTask _ _) => s
    | _ =>
      match S.resume s.job a with
      | some job => { s with job := job, command := s.command.next s.job a }
      | none => s
  | .other call, s => { s with tasks := (execTask call s.tasks).2 }

/-- The state after the poll: the task has been claimed. -/
def Polled (s : JobSystem) : Prop :=
  s.job = .marking ∧ s.command = .notStarted ∧
    ∃ tasks runner repositoryIds order row,
      TaskTable.claimTask tasks runner repositoryIds order = (some row, s.tasks) ∧ row.id = S.task.id

/-- The server takes a report at this time: the job's token has not expired,
and the statement that writes the status does not fail. -/
def JobSetup.Takes (now : Time) (plan : List Bool) : Prop :=
  (Issued.task S.polledAt ⟨S.task.id, 3600⟩).Live S.c S.publicKey now ∧ plan.headD false = false

/-- **The condition.** The server takes both reports and the job hears of the
first; the executor is initialized; nobody else reports on the task. -/
def Reports (s : JobSystem) : JobMove → Prop
  | .server now plan answered =>
    (s.job = .marking → S.Takes now plan ∧ answered = true) ∧
      ∀ ok, s.job = .reporting ok → S.Takes now plan
  | .answer a => s.job = .makingDirectory ∨ s.job = .cloning ∨ s.job = .connecting → a ≠ .failed
  | .other call => ∀ status, call ≠ .updateTask S.task.id status

/-! ### The status of the task -/

variable {S} {s : JobSystem} {tasks : Table Task} {id : Uuid}

/-- A success that has been written stays also if the release fails. -/
theorem statusOf_run_updateTask (request : UpdateTaskRequest) {plan : List Bool} {old : Task}
    (hplan : plan.headD false = false) (hold : tasks.get? request.id = some old) :
    statusOf ((updateTask request).run taskCalls plan tasks).2 request.id = some request.status := by
  have hwritten : statusOf (written tasks request.id request.status) request.id =
      some request.status := by
    rw [statusOf, get?_written, if_pos rfl, hold, Option.map_some, Option.map_some]
  unfold updateTask askTask
  rw [Prog.run_perform_bind_ok hplan (exec_updateTask_some hold)]
  split_ifs with hstatus
  · cases hplan' : plan.tail.headD false with
    | true =>
      rw [Prog.run_perform_bind_fault hplan']
      exact hwritten
    | false =>
      rw [Prog.run_perform_bind_ok hplan' rfl]
      have hupdated := statusOf_updated_self hold
      rw [updated, if_pos hstatus] at hupdated
      exact hupdated
  · exact hwritten

/-- **A report that the server takes.** The task has the status it says. -/
theorem statusOf_updateTaskHandler (report : TaskStatus) {now : Time} {plan : List Bool} {st : TaskStatus}
    (htakes : S.Takes now plan) (hreported : report.Reported) (hst : statusOf tasks id = some st) :
    statusOf (S.report now plan id report.text tasks).2 id = some report ∧
      (report = .running → (S.report now plan id report.text tasks).1.isOk = true) := by
  obtain ⟨old, hold, -⟩ := Option.map_eq_some_iff.mp hst
  have hauth : Extract.TaskJwt.authenticate S.c S.publicKey now
      (some ("Bearer " ++ S.task.token)) = .ok S.task.id :=
    (Extract.authenticateJwt_issued S.signs).mpr
      ⟨_, S.issued_token, by rw [S.token_eq], htakes.1, rfl⟩
  have hnew : UpdateTaskRequest.new id report.text = .ok ⟨id, report⟩ :=
    UpdateTaskRequest.new_ok.mpr ⟨rfl, hreported, rfl⟩
  unfold JobSetup.report
  constructor
  · unfold updateTaskHandler
    rw [hauth]
    dsimp only
    rw [hnew]
    exact statusOf_run_updateTask ⟨id, report⟩ htakes.2 hold
  · rintro rfl
    have hok : updateTaskHandler S.c S.publicKey now plan (some ("Bearer " ++ S.task.token)) id
        TaskStatus.running.text tasks =
          (.ok { old with status := .running }, updated tasks old.buildId ⟨id, .running⟩) :=
      updateTaskHandler_ok.mpr
        ⟨⟨_, hauth⟩, .running, trivial, rfl, ⟨htakes.2, nofun⟩, old, hold, rfl, rfl⟩
    rw [hok]
    rfl

/-- What the statements of other requests make of a task that has been claimed
and that they do not report on: they leave its status. -/
theorem statusOf_other {call : TaskCall} {st : TaskStatus} (hst : statusOf tasks id = some st)
    (hclaimed : st ≠ .blocked ∧ st ≠ .pending) (hcall : ∀ status, call ≠ .updateTask id status) :
    statusOf (execTask call tasks).2 id = some st := by
  obtain ⟨old, hold, rfl⟩ := Option.map_eq_some_iff.mp hst
  cases call with
  | create task =>
    show Option.map Task.status ((TaskTable.create tasks task).2.get? id) = _
    rw [get?_create, if_neg (by simp [hold]), hold, Option.map_some]
  | updateTask id' status =>
    have hid : id ≠ id' := fun heq => hcall status (heq ▸ rfl)
    show statusOf (taskCalls.exec (.updateTask id' status) tasks).2 id = _
    rw [exec_updateTask, statusOf, get?_written, if_neg hid, hold, Option.map_some]
  | claimTask runner repositoryIds order =>
    show Option.map Task.status ((TaskTable.claimTask tasks runner repositoryIds order).2.get? id) = _
    rw [get?_claim, if_neg, hold, Option.map_some]
    intro hclaim
    obtain ⟨task, htask, hpending, -⟩ := claimable_of_claimed hclaim
    obtain rfl := Option.some.inj (hold.symm.trans htask)
    exact hclaimed.2 hpending
  | unblockTasks build =>
    show Option.map Task.status ((TaskTable.unblockTasks tasks build).2.get? id) = _
    rw [get?_unblock, hold, Option.map_some, Option.map_some, TaskTable.release, if_neg]
    rintro ⟨-, hblocked, -⟩
    exact hclaimed.1 hblocked

/-- What a claim returns is assigned. -/
theorem statusOf_claim {tasks' : Table Task} {runner : Uuid} {repositoryIds order : List Uuid} {row : Task}
    (h : TaskTable.claimTask tasks runner repositoryIds order = (some row, tasks')) :
    statusOf tasks' row.id = some .assigned := by
  unfold TaskTable.claimTask at h
  split at h
  · cases h
  · next id hid =>
    obtain ⟨hrow, rfl⟩ := Prod.mk.inj h
    have hkey : id = row.id := (Table.key_of_get? hrow).symm
    subst hkey
    rw [statusOf, hrow, Option.map_some]
    rw [Table.get?_modify, if_pos rfl] at hrow
    obtain ⟨t, -, rfl⟩ := Option.map_eq_some_iff.mp hrow
    rfl

/-! ### The invariant -/

/-- What the task and the process are while the job is at a state. -/
def JobState.Holds (status : Option TaskStatus) (command : CommandState) : JobState → Prop
  | .marking => status = some .assigned
  | .loggingEnd success | .closing success => status = some .running ∧ command = .exited success
  | .reporting ok => status = some .running ∧ (ok = true → command = .exited true)
  | .cleaning | .done =>
    (status = some .success ∧ command = .exited true) ∨ status = some .failure
  | _ => status = some .running

/-- **The invariant of a job.** -/
def Sound (S : JobSetup Key) (s : JobSystem) : Prop :=
  s.job.Holds (statusOf s.tasks S.task.id) s.command

theorem JobState.Holds.claimed {status : Option TaskStatus} {command : CommandState} {job : JobState}
    (h : job.Holds status command) :
    ∃ st, status = some st ∧ st ≠ .blocked ∧ st ≠ .pending := by
  cases job with
  | marking => exact ⟨_, h, by decide, by decide⟩
  | makingDirectory | cloning | connecting | spawning | waiting => exact ⟨_, h, by decide, by decide⟩
  | reading => exact ⟨_, h, by decide, by decide⟩
  | logging => exact ⟨_, h, by decide, by decide⟩
  | loggingEnd | closing | reporting => exact ⟨_, h.1, by decide, by decide⟩
  | cleaning | done =>
    rcases h with ⟨h, -⟩ | h
    · exact ⟨_, h, by decide, by decide⟩
    · exact ⟨_, h, by decide, by decide⟩

/-- The loop goes on, or to the exit status. -/
theorem holds_afterRead {status : Option TaskStatus} {command : CommandState} {stdoutDone stderrDone : Bool}
    (h : status = some .running) :
    (JobSetup.afterRead stdoutDone stderrDone).Holds status command := by
  unfold JobSetup.afterRead
  split_ifs
  · exact h
  · exact h

section Answers

variable {status : Option TaskStatus} {command : CommandState} {job job' : JobState}

/-- What fails once the executor is initialized is reported. -/
theorem holds_failed (h : job.Holds status command) (hr : S.resume job .failed = some job')
    (hlocal : ∀ id st, S.pending job ≠ some (.updateTask id st))
    (hinit : ¬ (job = .makingDirectory ∨ job = .cloning ∨ job = .connecting)) :
    job'.Holds status (command.next job .failed) := by
  cases job with
  | marking | reporting => exact absurd rfl (hlocal _ _)
  | makingDirectory => exact absurd (.inl rfl) hinit
  | cloning => exact absurd (.inr (.inl rfl)) hinit
  | connecting => exact absurd (.inr (.inr rfl)) hinit
  | spawning | reading | logging | waiting =>
    cases hr
    exact ⟨h, fun hok => by cases hok⟩
  | loggingEnd | closing =>
    cases hr
    exact ⟨h.1, fun hok => by cases hok⟩
  | cleaning =>
    cases hr
    exact h
  | done => cases hr

theorem holds_ok (h : job.Holds status command) (hr : S.resume job .ok = some job')
    (hlocal : ∀ id st, S.pending job ≠ some (.updateTask id st)) :
    job'.Holds status (command.next job .ok) := by
  cases job with
  | marking | reporting => exact absurd rfl (hlocal _ _)
  | makingDirectory | cloning | spawning | logging | loggingEnd | cleaning =>
    cases hr
    exact h
  | connecting =>
    cases hr
    split_ifs
    · exact h
    · exact ⟨h, fun hok => by cases hok⟩
  | closing success =>
    cases hr
    exact ⟨h.1, fun hsuccess => hsuccess ▸ h.2⟩
  | reading | waiting | done => cases hr

/-- Bytes are logged, and the end of a stream is the end of the loop if the other has ended. -/
theorem holds_chunk {pipe : Pipe} {bytes : List UInt8} (h : job.Holds status command)
    (hr : S.resume job (.chunk pipe bytes) = some job') :
    job'.Holds status (command.next job (.chunk pipe bytes)) := by
  cases job with
  | reading stdoutDone stderrDone =>
    have hnext : ∀ {o e : Bool}, (if bytes = [] then JobSetup.afterRead o e else
        .logging pipe bytes stdoutDone stderrDone).Holds status command := by
      intro o e
      split_ifs
      · exact holds_afterRead h
      · exact h
    cases pipe with
    | stdout =>
      cases stdoutDone with
      | false =>
        cases hr
        exact hnext
      | true => cases stderrDone <;> cases hr
    | stderr =>
      cases stderrDone with
      | false =>
        cases hr
        exact hnext
      | true => cases stdoutDone <;> cases hr
  | _ => cases hr

theorem holds_exited {success : Bool} (h : job.Holds status command)
    (hr : S.resume job (.exited success) = some job') :
    job'.Holds status (command.next job (.exited success)) := by
  cases job with
  | waiting =>
    cases hr
    exact ⟨h, rfl⟩
  | _ => cases hr

/-- **One answer.** Where the executor is not initialized in vain, the
invariant goes with the job. -/
theorem holds_resume {a : JobAnswer} (h : job.Holds status command) (hr : S.resume job a = some job')
    (hlocal : ∀ id st, S.pending job ≠ some (.updateTask id st))
    (hinit : job = .makingDirectory ∨ job = .cloning ∨ job = .connecting → a ≠ .failed) :
    job'.Holds status (command.next job a) := by
  cases a with
  | failed => exact holds_failed h hr hlocal fun hj => hinit hj rfl
  | ok => exact holds_ok h hr hlocal
  | chunk => exact holds_chunk h hr
  | exited => exact holds_exited h hr

end Answers

/-- **One report.** The server takes it. -/
theorem sound_server {now : Time} {plan : List Bool} {answered : Bool} (h : Sound S s)
    (hg : Reports S s (.server now plan answered)) : Sound S (jobNext S (.server now plan answered) s) := by
  obtain ⟨hmark, hreport⟩ := hg
  obtain ⟨job, command, tasks⟩ := s
  cases job with
  | marking =>
    obtain ⟨htakes, rfl⟩ := hmark rfl
    obtain ⟨hstatus, hok⟩ := statusOf_updateTaskHandler .running htakes trivial h
    have hanswer : ((S.report now plan S.task.id "running" tasks).1.isOk && true) = true := by
      rw [Bool.and_true]
      exact hok rfl
    have hresume : S.resume .marking .ok = some .makingDirectory := rfl
    unfold jobNext
    simp only [JobSetup.pending, hanswer, if_true, hresume, Option.getD_some]
    exact hstatus
  | reporting ok =>
    have hcleaning : ∀ a : JobAnswer, (a = .ok ∨ a = .failed) →
        S.resume (.reporting ok) a = some .cleaning := by
      rintro a (rfl | rfl) <;> rfl
    obtain ⟨hrunning, hexited⟩ := h
    unfold jobNext
    simp only [JobSetup.pending]
    rw [hcleaning _ (by split_ifs <;> simp), Option.getD_some]
    cases ok with
    | true =>
      exact .inl ⟨(statusOf_updateTaskHandler .success (hreport true rfl) trivial
        hrunning).1, hexited rfl⟩
    | false =>
      exact .inr (statusOf_updateTaskHandler .failure (hreport false rfl) trivial
        hrunning).1
  | _ => exact h

/-- **One step.** -/
theorem sound_next {m : JobMove} (h : Sound S s) (hg : Reports S s m) : Sound S (jobNext S m s) := by
  cases m with
  | server now plan answered => exact sound_server h hg
  | answer a =>
    simp only [jobNext]
    split
    · exact h
    · next hpending =>
      split
      · next job hjob => exact holds_resume h hjob hpending hg
      · exact h
  | other call =>
    obtain ⟨st, hst, hclaimed⟩ := h.claimed
    have hsame := statusOf_other hst hclaimed hg
    unfold Sound at h ⊢
    rw [hst] at h
    simp only [jobNext, hsame]
    exact h

theorem sound_run (h : Reach (Polled S) (jobNext S) (Reports S) s) : Sound S s := by
  refine h.invariant ?_ fun _ _ hs hg => sound_next hs hg
  rintro s ⟨hjob, -, tasks, runner, repositoryIds, order, row, hclaim, hid⟩
  unfold Sound
  rw [hjob, ← hid]
  exact statusOf_claim hclaim

/-- **Outcomes.** When the job of a polled task ends, the server has the task
down as a success, and then its command has exited successfully, or as a
failure. -/
theorem reports_outcome (S : JobSetup Key) (s : JobSystem)
    (h : Reach (Polled S) (jobNext S) (Reports S) s) (hdone : s.job = .done) :
    (statusOf s.tasks S.task.id = some .success ∧ s.command = .exited true) ∨
      statusOf s.tasks S.task.id = some .failure := by
  have hsound := sound_run h
  unfold Sound at hsound
  rwa [hdone] at hsound

end Runs

/-! ### A task that is polled -/

/-- The poll of the task 1, at the time 0. -/
def makeJob : JobSetup Unit where
  c := plainTokens issuedTokens
  publicKey := ""
  issued := {i | i ∈ issuedTokens}
  signs := signs_issuedTokens
  config := ⟨"https://gitdot.io", "https://s2.gitdot.io"⟩
  validBasin _ := true
  validStream _ := true
  task := ⟨firstTaskToken.token (plainTokens issuedTokens), 1, "alice", "site", "s2://alice/site/1", "make"⟩
  polledAt := .initial 0
  issued_token := .tail _ (.head _)
  token_eq := rfl

def pendingTask : Table Task :=
  ⟨[⟨1, 0, 0, "s2://alice/site/1", [], .pending, "build", "make", none⟩], by decide⟩

/-- The runner 9 has claimed it. -/
def polledJob : JobSystem :=
  ⟨.marking, .notStarted, (TaskTable.claimTask pendingTask 9 [0] [1]).2⟩

theorem polled_polledJob : Polled makeJob polledJob :=
  ⟨rfl, rfl, pendingTask, 9, [0], [1], _, rfl, rfl⟩

theorem takes_makeJob {now : Time} (h : now ≤ 3660) : makeJob.Takes now [] := ⟨⟨⟨(), rfl⟩, h⟩, rfl⟩

/-- What goes on from the first report until `make` has exited. -/
def madeRun : List JobMove :=
  [.server 5 [] true, .answer .ok, .answer .ok, .answer .ok, .answer .ok,
    .answer (.chunk .stderr [104, 105]), .answer .ok, .answer (.chunk .stdout []),
    .answer (.chunk .stderr []), .answer (.exited true), .answer .ok, .answer .ok]

/-- The command succeeds, and cleaning up fails. -/
def made : JobSystem :=
  play (jobNext makeJob) (madeRun ++ [.server 30 [] false, .answer .failed]) polledJob

theorem reports_outcome_made :
    (statusOf made.tasks 1 = some .success ∧ made.command = .exited true) ∨
      statusOf made.tasks 1 = some .failure := by
  refine reports_outcome makeJob _ (reach_play (.start polled_polledJob) ?_) (by decide +kernel)
  have hok : ∀ {P : Prop}, P → JobAnswer.ok ≠ .failed := fun _ => by decide
  refine ⟨⟨fun _ => ⟨takes_makeJob (by decide), rfl⟩, fun _ _ => takes_makeJob (by decide)⟩, hok, hok,
    hok, hok, fun _ => by decide, hok, fun _ => by decide, fun _ => by decide, fun _ => by decide, hok,
    hok, ⟨fun h => absurd h (by decide +kernel), fun _ _ => takes_makeJob (by decide)⟩, fun h => ?_,
    trivial⟩
  exact absurd h (by decide +kernel)

/-- The clone fails. -/
def cloneFails : JobSystem :=
  play (jobNext makeJob) [.server 5 [] true, .answer .ok, .answer .failed] polledJob

/-- The command takes longer than an hour. -/
def reportsLate : JobSystem :=
  play (jobNext makeJob) (madeRun ++ [.server 4000 [] true, .answer .ok]) polledJob

/-- Both jobs end with the task running. -/
theorem not_reports_outcome :
    (Reach (Polled makeJob) (jobNext makeJob) (fun _ _ => True) cloneFails ∧ cloneFails.job = .done ∧
        statusOf cloneFails.tasks 1 = some .running) ∧
      Reach (Polled makeJob) (jobNext makeJob) (fun _ _ => True) reportsLate ∧ reportsLate.job = .done ∧
        statusOf reportsLate.tasks 1 = some .running :=
  ⟨⟨reach_play (.start polled_polledJob) guarded_true, by decide +kernel, by decide +kernel⟩,
    reach_play (.start polled_polledJob) guarded_true, by decide +kernel, by decide +kernel⟩

end Ci
end Gitdot
