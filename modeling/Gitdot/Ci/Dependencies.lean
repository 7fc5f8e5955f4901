/-
# When tasks respect what they wait for

A task that is pending, assigned or running should have had all the tasks it
waits for succeed (`Respects`). The rows of a build are inserted one by one
while runners are at work, and `unblock_tasks` passes over an id that has no
row: it releases a task although one that it waits for has yet to be inserted.
`update_task` writes what it is told: it sets a blocked task running, and takes
back a success on which others have started.

`InOrder` is the condition on a call under which none of this happens. A call
that meets it keeps `Respects`, and a call that keeps it meets it
(`respects_unblock_iff`, `respects_update_iff`); so it holds throughout a run
whose calls are in order (`respects_run`).

Key definitions: `TaskStatus.Active`, `Respects`, `InOrder`.
Key theorems: `respects_unblock_iff`, `respects_update_iff`, `respects_run`.
-/
import Gitdot.Ci.Run

namespace Gitdot
namespace Ci

open Lib

/-- The statuses of a task that may be under way. -/
def TaskStatus.Active : TaskStatus → Prop
  | .pending | .assigned | .running => True
  | _ => False

instance : DecidablePred TaskStatus.Active := fun status => by
  cases status <;> unfold TaskStatus.Active <;> infer_instance

/-- What the tasks that may be under way wait for has succeeded. -/
def Respects (tasks : Table Task) : Prop :=
  ∀ t ∈ tasks.rows, t.status.Active → ∀ dep ∈ t.waitsFor, statusOf tasks dep = some .success

instance : DecidablePred Respects := fun tasks =>
  letI (t : Task) : Decidable (∀ dep ∈ t.waitsFor, statusOf tasks dep = some .success) :=
    List.decidableBAll _ _
  inferInstanceAs (Decidable (∀ t ∈ tasks.rows, t.status.Active →
    ∀ dep ∈ t.waitsFor, statusOf tasks dep = some .success))

/-- A call that starts no task too early: the tasks that are released wait for
tasks that all have rows; a task that is reported running is under way, or what
it waits for has succeeded; and a success that is taken back is not waited for
by a task that is under way. -/
def InOrder (tasks : Table Task) : TaskCall → Prop
  | .unblockTasks build => ∀ t ∈ tasks.rows, t.Ready tasks build →
      ∀ dep ∈ t.waitsFor, (tasks.get? dep).isSome
  | .updateTask id status =>
    (status = .running → ∀ t ∈ tasks.rows, t.id = id → t.status.Active ∨
      ∀ dep ∈ t.waitsFor, dep ≠ id ∧ statusOf tasks dep = some .success) ∧
    (status ≠ .success → statusOf tasks id = some .success →
      ∀ t ∈ tasks.rows, id ∈ t.waitsFor → ¬ t.status.Active)
  | _ => True

instance (tasks : Table Task) : (call : TaskCall) → Decidable (InOrder tasks call)
  | .create _ => .isTrue trivial
  | .claimTask _ _ _ => .isTrue trivial
  | .unblockTasks build =>
    letI (t : Task) : Decidable (∀ dep ∈ t.waitsFor, (tasks.get? dep).isSome) := List.decidableBAll _ _
    inferInstanceAs (Decidable (∀ t ∈ tasks.rows, t.Ready tasks build →
      ∀ dep ∈ t.waitsFor, (tasks.get? dep).isSome))
  | .updateTask id status =>
    letI (t : Task) : Decidable (∀ dep ∈ t.waitsFor, dep ≠ id ∧ statusOf tasks dep = some .success) :=
      List.decidableBAll _ _
    inferInstanceAs (Decidable (
    (status = .running → ∀ t ∈ tasks.rows, t.id = id → t.status.Active ∨
      ∀ dep ∈ t.waitsFor, dep ≠ id ∧ statusOf tasks dep = some .success) ∧
    (status ≠ .success → statusOf tasks id = some .success →
      ∀ t ∈ tasks.rows, id ∈ t.waitsFor → ¬ t.status.Active)))

section Calls

variable {tasks : Table Task}

/-- `Respects`, row by row. -/
theorem respects_iff {tasks : Table Task} :
    Respects tasks ↔ ∀ k t, tasks.get? k = some t → t.status.Active →
      ∀ dep ∈ t.waitsFor, statusOf tasks dep = some .success := by
  constructor
  · intro h k t ht
    exact h t (Table.mem_rows_of_get? ht)
  · intro h t ht
    exact h t.id t (Table.get?_key ht)

theorem respects_empty : Respects .empty := fun _ ht => absurd ht List.not_mem_nil

/-- A status that is success stays it under a release, and no other becomes it. -/
theorem statusOf_unblock_success {build k : Uuid} :
    statusOf (TaskTable.unblockTasks tasks build).2 k = some .success ↔
      statusOf tasks k = some .success := by
  by_cases heq : statusOf (TaskTable.unblockTasks tasks build).2 k = statusOf tasks k
  · rw [heq]
  · obtain ⟨hblocked, hpending⟩ := statusOf_unblockTasks_ne heq
    rw [hblocked, hpending]
    simp

theorem waitsFor_release (build : Uuid) (t : Task) :
    (TaskTable.release tasks build t).waitsFor = t.waitsFor := by
  unfold TaskTable.release
  split_ifs <;> rfl

/-- A release keeps the order exactly if what it releases waits for rows that
are there. -/
theorem respects_unblock_iff {build : Uuid} (h : Respects tasks) :
    Respects (TaskTable.unblockTasks tasks build).2 ↔ InOrder tasks (.unblockTasks build) := by
  constructor
  · intro hR t ht hready dep hdep
    have hrow : (TaskTable.unblockTasks tasks build).2.get? t.id =
        some (TaskTable.release tasks build t) := by
      rw [get?_unblock, get?_id ht, Option.map_some]
    have hactive : (TaskTable.release tasks build t).status.Active := by
      unfold TaskTable.release
      rw [if_pos hready]
      trivial
    have hsuccess := respects_iff.mp hR t.id _ hrow hactive dep (by rwa [waitsFor_release])
    rw [statusOf_unblock_success, statusOf, Option.map_eq_some_iff] at hsuccess
    obtain ⟨d, hd, -⟩ := hsuccess
    exact Option.isSome_iff_exists.mpr ⟨d, hd⟩
  · intro hO
    refine respects_iff.mpr fun k t' ht' hactive dep hdep => ?_
    rw [statusOf_unblock_success]
    rw [get?_unblock, Option.map_eq_some_iff] at ht'
    obtain ⟨t, ht, rfl⟩ := ht'
    rw [waitsFor_release] at hdep
    by_cases hready : t.Ready tasks build
    · have hrow := hO t (Table.mem_rows_of_get? ht) hready dep hdep
      obtain ⟨d, hd⟩ := Option.isSome_iff_exists.mp hrow
      rw [statusOf, hd, Option.map_some, hready.2.2 dep hdep d hd]
    · unfold TaskTable.release at hactive
      rw [if_neg hready] at hactive
      exact respects_iff.mp h k t ht hactive dep hdep

theorem statusOf_written_self {id : Uuid} {status : TaskStatus} {t : Task}
    (ht : tasks.get? id = some t) : statusOf (written tasks id status) id = some status := by
  rw [statusOf, get?_written, if_pos rfl, ht]
  rfl

theorem statusOf_written_of_ne {id k : Uuid} {status : TaskStatus} (hk : k ≠ id) :
    statusOf (written tasks id status) k = statusOf tasks k := by
  rw [statusOf, get?_written, if_neg hk, statusOf]

theorem inOrder_of_respects_written {id : Uuid} {status : TaskStatus}
    (hR : Respects (written tasks id status)) : InOrder tasks (.updateTask id status) := by
  constructor
  · rintro rfl t ht rfl
    refine .inr fun dep hdep => ?_
    have hget := get?_id ht
    have hrow : (written tasks t.id .running).get? t.id = some { t with status := .running } := by
      rw [get?_written, if_pos rfl, hget]
      rfl
    have hsuccess := respects_iff.mp hR t.id _ hrow trivial dep hdep
    by_cases hself : dep = t.id
    · rw [hself, statusOf_written_self hget] at hsuccess
      cases hsuccess
    · rw [statusOf_written_of_ne hself] at hsuccess
      exact ⟨hself, hsuccess⟩
  · intro hne hsuccess t ht hwaits hactive
    have hget := get?_id ht
    obtain ⟨d, hd, hdone⟩ := Option.map_eq_some_iff.mp hsuccess
    by_cases hself : t.id = id
    · -- a task that has succeeded is not under way
      obtain rfl : t = d := Option.some.inj (hget.symm.trans (hself ▸ hd))
      rw [hdone] at hactive
      exact hactive
    · have hrow : (written tasks id status).get? t.id = some t := by
        rw [get?_written, if_neg hself]
        exact hget
      have hafter := respects_iff.mp hR t.id t hrow hactive id hwaits
      rw [statusOf_written_self hd] at hafter
      exact hne (Option.some.inj hafter)

theorem respects_written {id : Uuid} {status : TaskStatus} (h : Respects tasks)
    (hreported : status.Reported) (hO : InOrder tasks (.updateTask id status)) :
    Respects (written tasks id status) := by
  obtain ⟨hrunning, htakenBack⟩ := hO
  -- what an active row waits for is a success that is not taken back
  have hdeps : ∀ k t, tasks.get? k = some t → t.status.Active → ∀ dep ∈ t.waitsFor,
      statusOf (written tasks id status) dep = some .success := by
    intro k t ht htActive dep hdep
    have hsuccess := respects_iff.mp h k t ht htActive dep hdep
    by_cases hself : dep = id
    · subst hself
      by_cases hne : status = .success
      · obtain ⟨d, hd, -⟩ := Option.map_eq_some_iff.mp hsuccess
        rw [statusOf_written_self hd, hne]
      · exact absurd htActive (htakenBack hne hsuccess t (Table.mem_rows_of_get? ht) hdep)
    · rw [statusOf_written_of_ne hself]
      exact hsuccess
  refine respects_iff.mpr fun k t' ht' hactive dep hdep => ?_
  rw [get?_written] at ht'
  split_ifs at ht' with hk
  · obtain ⟨t, ht, rfl⟩ := Option.map_eq_some_iff.mp ht'
    subst hk
    -- what a runner reports is under way only if it is running
    have hstatus : status = .running := by
      cases status <;> first | rfl | exact hreported.elim | exact hactive.elim
    have hid : t.id = k := Table.key_of_get? ht
    rcases hrunning hstatus t (Table.mem_rows_of_get? ht) hid with htActive | hall
    · exact hdeps k t ht htActive dep hdep
    · obtain ⟨hself, hsuccess⟩ := hall dep hdep
      rw [statusOf_written_of_ne hself]
      exact hsuccess
  · exact hdeps k t' ht' hactive dep hdep

/-- A report keeps the order exactly if it is in order. -/
theorem respects_update_iff {id : Uuid} {status : TaskStatus} (h : Respects tasks)
    (hreported : status.Reported) :
    Respects (written tasks id status) ↔ InOrder tasks (.updateTask id status) :=
  ⟨inOrder_of_respects_written, respects_written h hreported⟩

/-- A claim takes a row that waits for nothing any more. -/
theorem respects_claim {runner : Uuid} {repositoryIds order : List Uuid} (h : Respects tasks) :
    Respects (TaskTable.claimTask tasks runner repositoryIds order).2 := by
  have hsuccess : ∀ dep, statusOf tasks dep = some .success →
      statusOf (TaskTable.claimTask tasks runner repositoryIds order).2 dep = some .success := by
    intro dep hdep
    rw [statusOf, get?_claim]
    split_ifs with hclaimed
    · obtain ⟨t, ht, hpending, -⟩ := claimable_of_claimed hclaimed
      rw [statusOf, ht, Option.map_some, hpending] at hdep
      cases hdep
    · exact hdep
  refine respects_iff.mpr fun k t' ht' hactive dep hdep => hsuccess dep ?_
  rw [get?_claim] at ht'
  split_ifs at ht' with hclaimed
  · obtain ⟨t, ht, rfl⟩ := Option.map_eq_some_iff.mp ht'
    obtain ⟨t', ht', hpending, -⟩ := claimable_of_claimed hclaimed
    obtain rfl := Option.some.inj (ht.symm.trans ht')
    exact respects_iff.mp h k t ht (by rw [hpending]; trivial) dep hdep
  · exact respects_iff.mp h k t' ht' hactive dep hdep

/-- A row that is inserted waits for nothing, or is blocked. -/
theorem respects_create {task : Task} (h : Respects tasks)
    (htask : task.status.Active → task.waitsFor = []) :
    Respects (TaskTable.create tasks task).2 := by
  have hsuccess : ∀ dep, statusOf tasks dep = some .success →
      statusOf (TaskTable.create tasks task).2 dep = some .success := by
    intro dep hdep
    obtain ⟨d, hd, -⟩ := Option.map_eq_some_iff.mp hdep
    rw [statusOf, get?_create, if_neg (by simp [hd])]
    exact hdep
  refine respects_iff.mpr fun k t ht hactive dep hdep => hsuccess dep ?_
  rw [get?_create] at ht
  split_ifs at ht with hnew
  · obtain rfl := Option.some.inj ht
    rw [htask hactive] at hdep
    cases hdep
  · exact respects_iff.mp h k t ht hactive dep hdep

end Calls

/-- A call that is in order keeps the order. -/
theorem respects_exec {reader : Reader} {op : CiOp reader} {c : TaskCall}
    {k : Except DatabaseError c.Resp → CiProg} {tasks : Table Task} (hat : At op (.call c k))
    (hO : InOrder tasks c) (h : Respects tasks) : Respects (taskCalls.exec c tasks).2 := by
  cases hat with
  | create f streamed s2Uri =>
    refine respects_create h fun hactive => ?_
    have hactive : f.new.status.Active := hactive
    rw [f.status_eq] at hactive
    split_ifs at hactive with hempty
    · exact List.isEmpty_iff.mp hempty
    · exact hactive.elim
  | update id status hreported =>
    rw [exec_updateTask]
    exact (respects_update_iff h hreported).mpr hO
  | unblock id status task => exact (respects_unblock_iff h).mpr hO
  | claim runner repositoryIds order => exact respects_claim h

/-- **Dependencies.** In a run whose calls are in order, no task is under way
before all it waits for has succeeded. -/
theorem respects_run {reader : Reader} {P : CiPool reader}
    (hP : CiReach reader (OnEffects InOrder) P) : Respects P.sys.store :=
  store_later (fun _ _ _ _ => respects_exec) placed_noTasks respects_empty hP

/-! ### A task that starts too early -/

/-- A build of three tasks: `deploy` waits for `lint` and `test`. -/
def deployConfig : CiConfig where
  builds := [⟨.pushToMain, ["lint", "test", "deploy"]⟩]
  tasks := [plainTask "lint" [], plainTask "test" [], plainTask "deploy" ["lint", "test"]]

def deployReader : Reader := plainReader deployConfig

def deployResponse : BuildResponse := ⟨100, 1, 7, "main", "c0ffee", .pushToMain, .running, 3, 0⟩

def deployTasks : List NewTask :=
  [⟨1, 7, "lint", "make", 100, .pending, []⟩, ⟨2, 7, "test", "make", 100, .pending, []⟩,
    ⟨3, 7, "deploy", "make", 100, .blocked, [1, 2]⟩]

theorem createBuild_deploy : createBuild deployReader (plainCreation "main") =
    .ok (deployResponse, deployTasks) := by
  decide +kernel

instance deployFuture.instNeZero : NeZero 3 := ⟨by decide⟩

/-- The future of a task of that build. -/
def deployFuture (i : Fin 3) : Future deployReader where
  creation := plainCreation "main"
  response := deployResponse
  tasks := deployTasks
  created := createBuild_deploy
  new := deployTasks.get i
  mem := List.get_mem _ _

/-- The build is created, `lint` and then `test` are claimed and succeed, and
`deploy` is claimed. -/
def deployRun : List (CiMove deployReader) :=
  [.start (.createTask (deployFuture 0) (.ok ())), .step 0 .answered,
    .start (.createTask (deployFuture 1) (.ok ())), .step 1 .answered,
    .start (.createTask (deployFuture 2) (.ok ())), .step 2 .answered,
    .start (.claimTask 50 [7] [1, 2, 3]), .step 3 .answered,
    .start (.updateTask 1 "success"), .step 4 .answered, .step 4 .answered,
    .start (.claimTask 50 [7] [1, 2, 3]), .step 5 .answered,
    .start (.updateTask 2 "success"), .step 6 .answered, .step 6 .answered,
    .start (.claimTask 50 [7] [1, 2, 3]), .step 7 .answered]

/-- The row of `deploy` and that of `lint` are inserted, and `lint` succeeds
before `test` has a row. -/
def earlyRun : List (CiMove deployReader) :=
  [.start (.createTask (deployFuture 2) (.ok ())), .step 0 .answered,
    .start (.createTask (deployFuture 0) (.ok ())), .step 1 .answered,
    .start (.claimTask 50 [7] [1, 2, 3]), .step 2 .answered,
    .start (.updateTask 1 "success"), .step 3 .answered, .step 3 .answered]

/-- The build whose rows are all there runs in order. -/
theorem respects_run_deploy :
    statusOf (play ciNext deployRun noTasks).sys.store 3 = some .assigned ∧
      Respects (play ciNext deployRun noTasks).sys.store :=
  ⟨by decide +kernel, respects_run (reach_play (.start rfl) (by decide +kernel))⟩

/-- `deploy` is pending, and `test` has no row yet. -/
theorem not_respects_early :
    ¬ ∀ (reader : Reader) (P : CiPool reader), CiReach reader (fun _ _ => True) P →
      Respects P.sys.store := by
  intro h
  have hrespects := h deployReader (play ciNext earlyRun noTasks) (reach_play (.start rfl) guarded_true)
  exact absurd hrespects (by decide +kernel)

end Ci
end Gitdot
