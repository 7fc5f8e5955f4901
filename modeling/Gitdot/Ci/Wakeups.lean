/-
# When a blocked task is released

Releases happen when a task succeeds: `update_task` writes the success and then
releases what is blocked in the build. So a blocked task all of whose
dependencies have succeeded is `Due` a release, and the invariant of this file
is that as long as it is, some report is on its way to `unblock_tasks` for its
build (`Woken`).

The invariant can be broken in three places, which `Wakes` excludes: a row is
inserted blocked although what it waits for has succeeded already, a success is
written but its report ends there, or the release fails. In a run without these
a build that has been created and for which no report is under way has no task
that is due (`no_task_left_blocked`).

Key definitions: `Due`, `Waking`, `Woken`, `Wakes`, `Returned`, `Quiet`.
Key theorems: `Woken.next`, `woken_run`, `no_task_left_blocked`.
-/
import Gitdot.Ci.Dependencies

namespace Gitdot
namespace Ci

open Lib

/-- The row of one of these tasks. -/
def RowOf (plan : List NewTask) (t : Task) : Prop := ∃ new ∈ plan, new.Of t

/-- The build of one of these tasks. -/
def BuildOf (plan : List NewTask) (build : Uuid) : Prop := ∃ new ∈ plan, new.buildId = build

/-- A blocked task that waits only for tasks of its build that have succeeded. -/
def Due (tasks : Table Task) (t : Task) : Prop :=
  t.status = .blocked ∧ ∀ dep ∈ t.waitsFor, ∃ d, tasks.get? dep = some d ∧ d.status = .success ∧
    d.buildId = t.buildId

/-- A call that leaves no task of the plan due without a release to come: rows
that are inserted are not due; a success of the build does not fail once it is
written, and a release of the build does not fail. -/
def Wakes (plan : List NewTask) (tasks : Table Task) : TaskCall → Fate → Prop
  | .create task, fate => fate ≠ .refused → tasks.get? task.id = none → RowOf plan task →
      ¬ Due tasks task
  | .updateTask id status, fate => status = .success →
      (∃ t, tasks.get? id = some t ∧ BuildOf plan t.buildId) → fate ≠ .lost
  | .unblockTasks build, fate => BuildOf plan build → fate ≠ .refused
  | .claimTask _ _ _, _ => True

instance (plan : List NewTask) (t : Task) : Decidable (RowOf plan t) :=
  inferInstanceAs (Decidable (∃ new ∈ plan, new.Of t))

instance (plan : List NewTask) (build : Uuid) : Decidable (BuildOf plan build) :=
  inferInstanceAs (Decidable (∃ new ∈ plan, new.buildId = build))

instance (tasks : Table Task) (t : Task) : Decidable (Due tasks t) :=
  letI (dep : Uuid) : Decidable (∃ d, tasks.get? dep = some d ∧ d.status = .success ∧
      d.buildId = t.buildId) :=
    decidable_of_iff ((tasks.get? dep).any fun d => d.status = .success ∧ d.buildId = t.buildId)
      (by simp [Option.any_eq_true])
  letI : Decidable (∀ dep ∈ t.waitsFor, ∃ d, tasks.get? dep = some d ∧ d.status = .success ∧
      d.buildId = t.buildId) := List.decidableBAll _ _
  inferInstanceAs (Decidable (t.status = .blocked ∧ ∀ dep ∈ t.waitsFor, ∃ d, tasks.get? dep = some d ∧
    d.status = .success ∧ d.buildId = t.buildId))

instance (plan : List NewTask) (tasks : Table Task) (id : Uuid) :
    Decidable (∃ t, tasks.get? id = some t ∧ BuildOf plan t.buildId) :=
  decidable_of_iff ((tasks.get? id).any fun t => BuildOf plan t.buildId)
    (by simp [Option.any_eq_true])

instance (plan : List NewTask) (tasks : Table Task) :
    (call : TaskCall) → (fate : Fate) → Decidable (Wakes plan tasks call fate)
  | .create task, fate => inferInstanceAs (Decidable (fate ≠ .refused → tasks.get? task.id = none →
      RowOf plan task → ¬ Due tasks task))
  | .updateTask id status, fate => inferInstanceAs (Decidable (status = .success →
      (∃ t, tasks.get? id = some t ∧ BuildOf plan t.buildId) → fate ≠ .lost))
  | .unblockTasks build, fate => inferInstanceAs (Decidable (BuildOf plan build → fate ≠ .refused))
  | .claimTask _ _ _, _ => .isTrue trivial

section Pool

variable {reader : Reader} {plan : List NewTask} {P : CiPool reader}

/-- A request is about to release the blocked tasks of the build. -/
def Waking (P : CiPool reader) (build : Uuid) : Prop :=
  ∃ (n : ℕ) (op : CiOp reader) (k : Except DatabaseError (List Task) → CiProg),
    P.threads[n]? = some ⟨op, .call (.unblockTasks build) k⟩

/-- For each task of the plan that is due, a release is to come. -/
def Woken (plan : List NewTask) (P : CiPool reader) : Prop :=
  ∀ t ∈ P.sys.store.rows, RowOf plan t → Due P.sys.store t → Waking P t.buildId

/-! ### What is due after a call -/

section Due

variable {tasks : Table Task} {t : Task}

/-- What is due stays so in a table that has the successes. -/
theorem Due.mono {tasks' : Table Task} (h : Due tasks t)
    (hsuccess : ∀ k d, tasks.get? k = some d → d.status = .success → tasks'.get? k = some d) :
    Due tasks' t := by
  refine ⟨h.1, fun dep hdep => ?_⟩
  obtain ⟨d, hd, hdone, hbuild⟩ := h.2 dep hdep
  exact ⟨d, hsuccess dep d hd hdone, hdone, hbuild⟩

theorem due_of_create {row : Task} (hrow : row.status ≠ .success)
    (ht : t ∈ (TaskTable.create tasks row).2.rows) (h : Due (TaskTable.create tasks row).2 t) :
    Due tasks t ∧ (t ∈ tasks.rows ∨ tasks.get? row.id = none ∧ t = row) := by
  have hdue : Due tasks t := by
    refine h.mono fun k d hd hdone => ?_
    rw [get?_create] at hd
    split_ifs at hd
    · obtain rfl := Option.some.inj hd
      exact absurd hdone hrow
    · exact hd
  have hget := get?_id ht
  rw [get?_create] at hget
  split_ifs at hget with hnew
  · refine ⟨hdue, .inr ⟨hnew.2 ▸ hnew.1, (Option.some.inj hget).symm⟩⟩
  · exact ⟨hdue, .inl (Table.mem_rows_of_get? hget)⟩

theorem due_of_claim {runner : Uuid} {repositoryIds order : List Uuid}
    (ht : t ∈ (TaskTable.claimTask tasks runner repositoryIds order).2.rows)
    (h : Due (TaskTable.claimTask tasks runner repositoryIds order).2 t) :
    Due tasks t ∧ t ∈ tasks.rows := by
  constructor
  · refine h.mono fun k d hd hdone => ?_
    rw [get?_claim] at hd
    split_ifs at hd
    · obtain ⟨d', -, rfl⟩ := Option.map_eq_some_iff.mp hd
      cases hdone
    · exact hd
  · have hget := get?_id ht
    rw [get?_claim] at hget
    split_ifs at hget
    · obtain ⟨t', -, rfl⟩ := Option.map_eq_some_iff.mp hget
      cases h.1
    · exact Table.mem_rows_of_get? hget

/-- What is due after a release was passed over by it. -/
theorem due_of_unblock {build : Uuid} (ht : t ∈ (TaskTable.unblockTasks tasks build).2.rows)
    (h : Due (TaskTable.unblockTasks tasks build).2 t) :
    Due tasks t ∧ t ∈ tasks.rows ∧ t.buildId ≠ build := by
  have hdue : Due tasks t := by
    refine h.mono fun k d hd hdone => ?_
    rw [get?_unblock, Option.map_eq_some_iff] at hd
    obtain ⟨d', hd', rfl⟩ := hd
    unfold TaskTable.release at hdone ⊢
    split_ifs at hdone ⊢
    exact hd'
  have hget := get?_id ht
  rw [get?_unblock, Option.map_eq_some_iff] at hget
  obtain ⟨old, hold, hrelease⟩ := hget
  unfold TaskTable.release at hrelease
  split_ifs at hrelease with hready
  · have hpending : t.status = .pending := hrelease ▸ rfl
    rw [h.1] at hpending
    cases hpending
  · subst hrelease
    refine ⟨hdue, Table.mem_rows_of_get? hold, fun hbuild => hready ⟨hbuild, h.1, ?_⟩⟩
    intro dep hdep other hother
    obtain ⟨d, hd, hdone, -⟩ := hdue.2 dep hdep
    rw [hd] at hother
    obtain rfl := Option.some.inj hother
    exact hdone

/-- What is due after a report was due before, or it waits for a task of which
the report was a success. -/
theorem due_of_written {id : Uuid} {status : TaskStatus} (hreported : status.Reported)
    (ht : t ∈ (written tasks id status).rows) (h : Due (written tasks id status) t) :
    t ∈ tasks.rows ∧ (Due tasks t ∨
      status = .success ∧ ∃ old, tasks.get? id = some old ∧ old.buildId = t.buildId) := by
  have hget := get?_id ht
  rw [get?_written] at hget
  split_ifs at hget with hself
  · obtain ⟨old, -, rfl⟩ := Option.map_eq_some_iff.mp hget
    have hblocked : status = .blocked := h.1
    rw [hblocked] at hreported
    exact hreported.elim
  · refine ⟨Table.mem_rows_of_get? hget, ?_⟩
    by_cases hwaits : status = .success ∧ id ∈ t.waitsFor
    · obtain ⟨d, hd, -, hbuild⟩ := h.2 id hwaits.2
      rw [get?_written, if_pos rfl, Option.map_eq_some_iff] at hd
      obtain ⟨old, hold, rfl⟩ := hd
      exact .inr ⟨hwaits.1, old, hold, hbuild⟩
    · refine .inl ⟨h.1, fun dep hdep => ?_⟩
      obtain ⟨d, hd, hdone, hbuild⟩ := h.2 dep hdep
      rw [get?_written] at hd
      split_ifs at hd with hid
      · subst hid
        obtain ⟨old, -, rfl⟩ := Option.map_eq_some_iff.mp hd
        exact absurd ⟨hdone, hdep⟩ hwaits
      · exact ⟨d, hd, hdone, hbuild⟩

end Due

/-! ### One move -/

/-- A request that is about to release stays there while another one moves. -/
theorem Waking.step {n : ℕ} {fate : Fate} {op : CiOp reader} {c : TaskCall}
    {k : Except DatabaseError c.Resp → CiProg} {build : Uuid} (hw : Waking P build)
    (hn : P.threads[n]? = some ⟨op, .call c k⟩) (hc : c ≠ .unblockTasks build) :
    Waking (ciNext (.step n fate) P) build := by
  obtain ⟨j, op', k', hj⟩ := hw
  have hne : j ≠ n := by
    rintro rfl
    rw [hn] at hj
    cases hj
    exact hc rfl
  refine ⟨j, op', k', ?_⟩
  rw [show ciNext (.step n fate) P = _ from next_step hn]
  exact (getElem?_step hn).mpr (.inr ⟨hne, hj⟩)

/-- The state after a call, by whether it took effect. -/
theorem step_store {n : ℕ} (fate : Fate) {op : CiOp reader} {c : TaskCall}
    {k : Except DatabaseError c.Resp → CiProg} (hn : P.threads[n]? = some ⟨op, .call c k⟩) :
    fate = .refused ∧ (ciNext (.step n fate) P).sys.store = P.sys.store ∨
      fate ≠ .refused ∧ (ciNext (.step n fate) P).sys.store = (taskCalls.exec c P.sys.store).2 := by
  rw [show ciNext (.step n fate) P = _ from next_step hn]
  cases fate with
  | answered => exact .inr ⟨by simp, rfl⟩
  | refused => exact .inl ⟨rfl, rfl⟩
  | lost => exact .inr ⟨by simp, rfl⟩

theorem RowOf.buildOf {t : Task} (h : RowOf plan t) : BuildOf plan t.buildId := by
  obtain ⟨new, hnew, hof⟩ := h
  exact ⟨new, hnew, hof.buildId.symm⟩

/-- A report whose success is answered goes on to the release. -/
theorem waking_of_success {n : ℕ} {id : Uuid} {old : Task}
    (hn : P.threads[n]? = some ⟨.updateTask id TaskStatus.success.text,
      .call (.updateTask id .success) (afterUpdate id)⟩)
    (hold : P.sys.store.get? id = some old) :
    Waking (ciNext (.step n .answered) P) old.buildId := by
  rw [show ciNext (.step n .answered) P = _ from next_step hn]
  have hexec : (P.sys.perform taskCalls ⟨n, .updateTask id TaskStatus.success.text⟩
      (.updateTask id .success) .answered).1 = .ok { old with status := .success } :=
    congrArg Prod.fst (exec_updateTask_some hold)
  refine ⟨n, .updateTask id TaskStatus.success.text, afterUnblock { old with status := .success },
    (getElem?_step hn).mpr (.inl ⟨rfl, ?_⟩)⟩
  rw [hexec]
  rfl

/-- **One move.** -/
theorem Woken.next {m : CiMove reader} (hP : Placed P) (hW : Woken plan P)
    (hg : OnFates (Wakes plan) P m) : Woken plan (ciNext m P) := by
  intro t ht hrow hdue
  cases m with
  | start op =>
    obtain ⟨n, op', k, hn⟩ := hW t ht hrow hdue
    exact ⟨n, op', k, getElem?_start.mpr (.inl hn)⟩
  | step n fate =>
    rcases atCall_or_done P n with ⟨op, c, k, hn⟩ | hdone
    · have hwakes := hg.of_thread hn
      rcases step_store fate hn with ⟨hrefused, hsame⟩ | ⟨hfate, hexec⟩
      · rw [hsame] at ht hdue
        refine (hW t ht hrow hdue).step hn ?_
        rintro rfl
        exact hwakes hrow.buildOf hrefused
      · rw [hexec] at ht hdue
        cases hP n _ hn with
        | create f streamed s2Uri =>
          have hstatus : (f.new.row s2Uri).status ≠ .success := by
            show f.new.status ≠ _
            rw [f.status_eq]
            split_ifs <;> simp
          obtain ⟨hdue, hold | ⟨hnew, rfl⟩⟩ := due_of_create hstatus ht hdue
          · exact (hW t hold hrow hdue).step hn nofun
          · exact absurd hdue (hwakes hfate hnew hrow)
        | update id status hreported =>
          rw [exec_updateTask] at ht hdue
          obtain ⟨hmem, hdue | ⟨rfl, old, hold, hbuild⟩⟩ := due_of_written hreported ht hdue
          · exact (hW t hmem hrow hdue).step hn nofun
          · have hlost := hwakes rfl ⟨old, hold, hbuild ▸ hrow.buildOf⟩
            cases fate with
            | answered => exact hbuild ▸ waking_of_success hn hold
            | refused => exact absurd rfl hfate
            | lost => exact absurd rfl hlost
        | unblock id status task =>
          obtain ⟨hdue, hmem, hne⟩ := due_of_unblock ht hdue
          refine (hW t hmem hrow hdue).step hn ?_
          intro heq
          exact hne (TaskCall.unblockTasks.inj heq).symm
        | claim runner repositoryIds order =>
          obtain ⟨hdue, hmem⟩ := due_of_claim ht hdue
          exact (hW t hmem hrow hdue).step hn nofun
    · have hstay : ciNext (.step n fate) P = P := hdone fate
      rw [hstay] at ht hdue ⊢
      exact hW t ht hrow hdue
  | env e => exact nomatch e

/-- **Wakeups.** -/
theorem woken_run (hP : CiReach reader (OnFates (Wakes plan)) P) : Woken plan P := by
  refine (hP.invariant (I := fun P => Placed P ∧ Woken plan P) ?_ ?_).2
  · rintro P rfl
    exact ⟨placed_noTasks, fun t ht => absurd ht List.not_mem_nil⟩
  · rintro P m ⟨hP, hW⟩ hg
    exact ⟨hP.next m, hW.next hP hg⟩

/-! ### Builds that have been created -/

/-- The request is the future of the task, and it has succeeded. -/
def HasCreated (response : BuildResponse) (tasks : List NewTask) (new : NewTask) :
    Thread (CiOp reader) TaskCall TaskCall.Resp DatabaseError CiError (Option Task) → Prop
  | ⟨.createTask f _, .ret _⟩ => f.response = response ∧ f.tasks = tasks ∧ f.new = new
  | _ => False

instance (response : BuildResponse) (tasks : List NewTask) (new : NewTask) :
    DecidablePred (@HasCreated reader response tasks new)
  | ⟨.createTask f _, .ret _⟩ =>
    inferInstanceAs (Decidable (f.response = response ∧ f.tasks = tasks ∧ f.new = new))
  | ⟨.createTask _ _, .fail _⟩ | ⟨.createTask _ _, .call _ _⟩ => .isFalse id
  | ⟨.updateTask _ _, _⟩ | ⟨.claimTask _ _ _, _⟩ => .isFalse id

/-- `create_build` has returned: each of its futures has succeeded. -/
def Returned (P : CiPool reader) (response : BuildResponse) (tasks : List NewTask) : Prop :=
  ∀ new ∈ tasks, ∃ t ∈ P.threads, HasCreated response tasks new t

instance (P : CiPool reader) (response : BuildResponse) (tasks : List NewTask) :
    Decidable (Returned P response tasks) :=
  inferInstanceAs (Decidable (∀ new ∈ tasks, ∃ t ∈ P.threads, HasCreated response tasks new t))

def IsReport : CiOp reader → Prop
  | .updateTask _ _ => True
  | _ => False

instance : DecidablePred (@IsReport reader)
  | .updateTask _ _ => .isTrue trivial
  | .createTask _ _ | .claimTask _ _ _ => .isFalse id

/-- No report is under way. -/
def Quiet (P : CiPool reader) : Prop := ∀ t ∈ P.threads, IsReport t.op → t.inFlight = false

instance (P : CiPool reader) : Decidable (Quiet P) :=
  inferInstanceAs (Decidable (∀ t ∈ P.threads, IsReport t.op → t.inFlight = false))

theorem Returned.present {response : BuildResponse} (hI : Inserted P) (h : Returned P response plan) :
    Present plan P.sys.store := by
  intro new hnew
  obtain ⟨t, ht, hcreated⟩ := h new hnew
  obtain ⟨n, hn⟩ := List.getElem?_of_mem ht
  unfold HasCreated at hcreated
  split at hcreated
  · obtain ⟨-, -, rfl⟩ := hcreated
    exact hI n _ _ _ hn
  · exact hcreated.elim

theorem Quiet.not_waking (hP : Placed P) (hquiet : Quiet P) (build : Uuid) : ¬ Waking P build := by
  rintro ⟨n, op, k, hn⟩
  have hat : At op (.call (.unblockTasks build) k) := hP n _ hn
  cases hat with
  | unblock id status task =>
    have hdone := hquiet _ (List.mem_of_getElem? hn) trivial
    cases hdone

/-- A task of a build whose rows are all there is due if all it waits for has
succeeded. -/
theorem due_of_present {c : Creation} {response : BuildResponse} {tasks : List NewTask}
    {table : Table Task} (hc : createBuild reader c = .ok (response, tasks)) (hpresent : Present tasks table)
    {new : NewTask} (hnew : new ∈ tasks) {t : Task} (hof : new.Of t) (hblocked : t.status = .blocked)
    (hdeps : ∀ dep ∈ t.waitsFor, statusOf table dep = some .success) : Due table t := by
  refine ⟨hblocked, fun dep hdep => ?_⟩
  obtain ⟨d, hd, hdone⟩ := Option.map_eq_some_iff.mp (hdeps dep hdep)
  refine ⟨d, hd, hdone, ?_⟩
  obtain ⟨config, build, hpicks, -⟩ := createBuild_ok hc
  obtain ⟨other, hother, rfl, -⟩ := mem_waitsFor hpicks hc hnew (hof.waitsFor ▸ hdep)
  obtain ⟨d', hd', hof'⟩ := hpresent other hother
  obtain rfl := Option.some.inj (hd.symm.trans hd')
  calc d.buildId = other.buildId := hof'.buildId
    _ = response.id := buildId_of_created hc hother
    _ = new.buildId := (buildId_of_created hc hnew).symm
    _ = t.buildId := hof.buildId.symm

/-- **No task is left blocked.** In a run in which no wakeup is lost, a blocked
task of a build that has been created waits for one that has not succeeded, as
long as no report is under way. -/
theorem no_task_left_blocked {c : Creation} {response : BuildResponse} {tasks : List NewTask}
    (hc : createBuild reader c = .ok (response, tasks))
    (hP : CiReach reader (OnFates (Wakes tasks)) P) (hreturned : Returned P response tasks)
    (hquiet : Quiet P)
    {new : NewTask} (hnew : new ∈ tasks) {t : Task} (ht : P.sys.store.get? new.id = some t)
    (hblocked : t.status = .blocked) :
    ∃ dep ∈ t.waitsFor, statusOf P.sys.store dep ≠ some .success := by
  by_contra hall
  push Not at hall
  have hpresent : Present tasks P.sys.store := hreturned.present (inserted_run hP)
  obtain ⟨t', ht', hof⟩ := hpresent new hnew
  obtain rfl := Option.some.inj (ht.symm.trans ht')
  have hdue : Due P.sys.store t := due_of_present hc hpresent hnew hof hblocked hall
  have hwaking := woken_run hP t (Table.mem_rows_of_get? ht) ⟨new, hnew, hof⟩ hdue
  exact hquiet.not_waking (placed_run hP) _ hwaking

end Pool

/-! ### A row that comes too late -/

/-- `lint` and `test` are claimed and succeed before `deploy` has a row. -/
def lateRowRun : List (CiMove deployReader) :=
  [.start (.createTask (deployFuture 0) (.ok ())), .step 0 .answered,
    .start (.createTask (deployFuture 1) (.ok ())), .step 1 .answered,
    .start (.claimTask 50 [7] [1, 2]), .step 2 .answered,
    .start (.claimTask 50 [7] [1, 2]), .step 3 .answered,
    .start (.updateTask 1 "success"), .step 4 .answered, .step 4 .answered,
    .start (.updateTask 2 "success"), .step 5 .answered, .step 5 .answered,
    .start (.createTask (deployFuture 2) (.ok ())), .step 6 .answered]

/-- The build runs until `lint` has succeeded; `deploy` is blocked by `test`. -/
def halfRun : List (CiMove deployReader) := deployRun.take 11

/-- In the build that is created first and then run, `deploy` is blocked by a
task that has not succeeded. -/
theorem no_task_left_blocked_half :
    ∃ t, (play ciNext halfRun noTasks).sys.store.get? 3 = some t ∧
      ∃ dep ∈ t.waitsFor, statusOf (play ciNext halfRun noTasks).sys.store dep ≠ some .success := by
  obtain ⟨t, ht, hblocked⟩ := Option.map_eq_some_iff.mp
    (by decide +kernel : statusOf (play ciNext halfRun noTasks).sys.store 3 = some .blocked)
  exact ⟨t, ht, no_task_left_blocked createBuild_deploy (reach_play (.start rfl) (by decide +kernel))
    (by decide +kernel) (by decide +kernel)
    (show (⟨3, 7, "deploy", "make", 100, .blocked, [1, 2]⟩ : NewTask) ∈ deployTasks by decide)
    ht hblocked⟩

/-- The build is created and no report is under way, but `deploy` is blocked
while both tasks that it waits for have succeeded. -/
theorem not_no_task_left_blocked_lateRow :
    ¬ ∀ (reader : Reader) (c : Creation) (response : BuildResponse) (tasks : List NewTask)
      (P : CiPool reader), createBuild reader c = .ok (response, tasks) →
      CiReach reader (fun _ _ => True) P → Returned P response tasks → Quiet P →
      ∀ new ∈ tasks, ∀ t, P.sys.store.get? new.id = some t → t.status = .blocked →
        ∃ dep ∈ t.waitsFor, statusOf P.sys.store dep ≠ some .success := by
  intro h
  obtain ⟨t, ht, hblocked⟩ := Option.map_eq_some_iff.mp
    (by decide +kernel : statusOf (play ciNext lateRowRun noTasks).sys.store 3 = some .blocked)
  obtain ⟨dep, hdep, hne⟩ := h deployReader (plainCreation "main") deployResponse deployTasks
    (play ciNext lateRowRun noTasks) createBuild_deploy (reach_play (.start rfl) guarded_true)
    (by decide +kernel) (by decide +kernel) ⟨3, 7, "deploy", "make", 100, .blocked, [1, 2]⟩ (by decide)
    t ht hblocked
  have hall : ∀ dep ∈ [1, 2], statusOf (play ciNext lateRowRun noTasks).sys.store dep =
      some .success := by
    simp only [List.mem_cons, List.not_mem_nil, or_false, forall_eq_or_imp, forall_eq]
    exact ⟨by decide +kernel, by decide +kernel⟩
  have hwaits : t.waitsFor = [1, 2] := by
    have hget : ((play ciNext lateRowRun noTasks).sys.store.get? 3).map Task.waitsFor = some [1, 2] := by
      decide +kernel
    rw [ht] at hget
    exact Option.some.inj hget
  exact hne (hall dep (hwaits ▸ hdep))

end Ci
end Gitdot
