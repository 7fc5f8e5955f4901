/-
# Accepted configs do not deadlock

Once the rows of a build are all there, runners claim its tasks and report
that they run and succeed. No report of such a run can come too early for a
row (`wakes_of_progresses`), so no wakeup is lost, and a blocked task of the
build waits for one that has not succeeded, unless a release is about to come.
The config was accepted, so that cannot go on: the tasks the build lists wait
for each other only as the config says, and not in circles. So as long as a
task of the build has not succeeded some task is under way, and if none is the
build has succeeded (`no_deadlock`).

Key definitions: `Progresses`, `Early`, `listByBuildId`, `buildStatus`.
Key theorems: `early_run`, `all_success`, `no_deadlock`.
-/
import Gitdot.Ci.Ordering
import Gitdot.Ci.Wakeups

namespace Gitdot
namespace Ci

open Lib

/-- `list_by_build_id`. -/
def listByBuildId (tasks : Table Task) (build : Uuid) : List Task :=
  tasks.rows.filter fun t => t.buildId = build

/-- The status that `get_build` derives from the tasks of a build. -/
def buildStatus (tasks : List Task) : BuildStatus :=
  if tasks.isEmpty then .running
  else if tasks.any fun t => t.status = .failure then .failure
  else if tasks.all fun t => t.status = .success then .success
  else .running

/-- A call of a run in which a build progresses: reports on its tasks come when
its rows are all there, and none is of a failure or fails itself half way. -/
def Progresses (plan : List NewTask) (tasks : Table Task) : TaskCall → Fate → Prop
  | .updateTask id status, fate => (∃ t, tasks.get? id = some t ∧ BuildOf plan t.buildId) →
      Present plan tasks ∧ status ≠ .failure ∧ (status = .success → fate ≠ .lost)
  | .unblockTasks build, fate => BuildOf plan build → fate ≠ .refused
  | _, _ => True

instance (plan : List NewTask) (tasks : Table Task) :
    (call : TaskCall) → (fate : Fate) → Decidable (Progresses plan tasks call fate)
  | .updateTask id status, fate => inferInstanceAs (Decidable (
      (∃ t, tasks.get? id = some t ∧ BuildOf plan t.buildId) →
      Present plan tasks ∧ status ≠ .failure ∧ (status = .success → fate ≠ .lost)))
  | .unblockTasks build, fate => inferInstanceAs (Decidable (BuildOf plan build → fate ≠ .refused))
  | .create _, _ | .claimTask _ _ _, _ => .isTrue trivial

/-- No task of the build fails, and none succeeds while a row is missing. -/
def Early (plan : List NewTask) (tasks : Table Task) : Prop :=
  ∀ t ∈ tasks.rows, BuildOf plan t.buildId →
    t.status ≠ .failure ∧ (Present plan tasks ∨ t.status ≠ .success)

section Calls

variable {reader : Reader} {plan : List NewTask} {tasks : Table Task} {op : CiOp reader} {c : TaskCall}
  {k : Except DatabaseError c.Resp → CiProg} {fate : Fate}

theorem early_exec (hat : At op (.call c k)) (hg : Progresses plan tasks c fate)
    (h : Early plan tasks) : Early plan (taskCalls.exec c tasks).2 := by
  intro t' ht' hbuild
  rcases row_exec hat (get?_id ht') with
    ⟨f, streamed, s2Uri, -, -, rfl⟩ | ⟨t, ht, -, hsame, hstatus⟩
  · -- a new row is blocked or pending
    have hnew : (f.new.row s2Uri).status = if f.new.waitsFor.isEmpty then .pending else .blocked :=
      f.status_eq
    rw [hnew]
    split_ifs
    · exact ⟨by simp, .inr (by simp)⟩
    · exact ⟨by simp, .inr (by simp)⟩
  · rw [hsame] at hbuild
    obtain ⟨hfailure, hearly⟩ := h t (Table.mem_rows_of_get? ht) hbuild
    rcases hstatus with heq | heq | heq | ⟨status, rfl, heq⟩
    · rw [heq]
      refine ⟨hfailure, ?_⟩
      rcases hearly with hpresent | hne
      · exact .inl (present_exec hat hpresent)
      · exact .inr hne
    · rw [heq]
      exact ⟨by simp, .inr (by simp)⟩
    · rw [heq]
      exact ⟨by simp, .inr (by simp)⟩
    · obtain ⟨hpresent, hne, -⟩ := hg ⟨t, ht, hbuild⟩
      rw [heq]
      exact ⟨hne, .inl (present_exec hat hpresent)⟩

/-- Until the rows are all there no task of the build has succeeded, so none
that is inserted is due. -/
theorem wakes_of_progresses (hat : At op (.call c k)) (h : Early plan tasks)
    (hg : Progresses plan tasks c fate) : Wakes plan tasks c fate := by
  cases hat with
  | create f streamed s2Uri =>
    rintro - hfree ⟨new, hnew, hof⟩ ⟨hblocked, hdeps⟩
    have hblocked : f.new.status = .blocked := hblocked
    rw [f.status_eq] at hblocked
    split_ifs at hblocked with hempty
    obtain ⟨dep, hdep⟩ : ∃ dep, dep ∈ f.new.waitsFor :=
      List.exists_mem_of_ne_nil _ (by simpa using hempty)
    obtain ⟨d, hd, hsuccess, hbuild⟩ := hdeps dep hdep
    have hbuildOf : BuildOf plan d.buildId := ⟨new, hnew, (hbuild.trans hof.buildId).symm⟩
    rcases (h d (Table.mem_rows_of_get? hd) hbuildOf).2 with hpresent | hne
    · obtain ⟨t, ht, -⟩ := hpresent new hnew
      rw [hof.id, ht] at hfree
      cases hfree
    · exact hne hsuccess
  | update id status hreported =>
    intro hsuccess hbuild
    exact (hg hbuild).2.2 hsuccess
  | unblock id status task => exact hg
  | claim runner repositoryIds order => trivial

end Calls

/-! ### Runs -/

section Runs

variable {reader : Reader} {plan : List NewTask} {P : CiPool reader}

theorem early_next {m : CiMove reader} (hP : Placed P) (h : Early plan P.sys.store)
    (hg : OnFates (Progresses plan) P m) : Early plan (ciNext m P).sys.store := by
  rcases ciNext_store m P with heq | ⟨n, fate, op, c, k, rfl, -, hn, heq⟩
  · rw [heq]
    exact h
  · rw [heq]
    exact early_exec (hP n _ hn) (hg.of_thread hn) h

/-- In a run in which a build progresses its tasks succeed late, and none of
them misses its wakeup. -/
theorem early_run (hP : CiReach reader (OnFates (Progresses plan)) P) :
    Early plan P.sys.store ∧ Woken plan P := by
  refine (hP.invariant (I := fun P => Placed P ∧ Early plan P.sys.store ∧ Woken plan P) ?_ ?_).2
  · rintro P rfl
    exact ⟨placed_noTasks, fun t ht => absurd ht List.not_mem_nil,
      fun t ht => absurd ht List.not_mem_nil⟩
  · rintro P m ⟨hP, hE, hW⟩ hg
    have hwakes : OnFates (Wakes plan) P m :=
      hg.mono fun n op c k fate hn => wakes_of_progresses (hP n _ hn) hE
    exact ⟨hP.next m, early_next hP hE hg, hW.next hP hwakes⟩

/-- Every row was inserted by a future of the run. -/
theorem inserted_by {guard : CiPool reader → CiMove reader → Prop} (hP : CiReach reader guard P) {t : Task}
    (ht : t ∈ P.sys.store.rows) :
    ∃ thread ∈ P.threads, ∃ f streamed, thread.op = .createTask f streamed ∧ f.new.Of t := by
  induction hP generalizing t with
  | start h =>
    subst h
    exact absurd ht List.not_mem_nil
  | @next P m hP hg ih =>
    -- requests keep what they are about
    have hkeep : ∀ thread ∈ P.threads, ∃ thread' ∈ (ciNext m P).threads, thread'.op = thread.op := by
      intro thread hthread
      obtain ⟨n, hn⟩ := List.getElem?_of_mem hthread
      have hl : CiLater reader guard P (ciNext m P) := .next m (.start rfl) hg
      obtain ⟨thread', hn', hop, -⟩ := Later.thread hl hn
      exact ⟨thread', List.mem_of_getElem? hn', hop⟩
    have hold : ∀ t₀ ∈ P.sys.store.rows, (∀ new : NewTask, new.Of t₀ → new.Of t) →
        ∃ thread ∈ (ciNext m P).threads, ∃ f streamed, thread.op = .createTask f streamed ∧ f.new.Of t := by
      intro t₀ ht₀ hof
      obtain ⟨thread, hthread, f, streamed, hop, hf⟩ := ih ht₀
      obtain ⟨thread', hthread', hop'⟩ := hkeep thread hthread
      exact ⟨thread', hthread', f, streamed, hop'.trans hop, hof _ hf⟩
    rcases ciNext_store m P with heq | ⟨n, fate, op, c, k, -, -, hn, heq⟩
    · rw [heq] at ht
      exact hold t ht fun _ h => h
    · rw [heq] at ht
      rcases row_exec (placed_run hP n _ hn) (get?_id ht) with
        ⟨f, streamed, s2Uri, rfl, -, rfl⟩ | ⟨t₀, ht₀, hof, -⟩
      · obtain ⟨thread', hthread', hop'⟩ := hkeep _ (List.mem_of_getElem? hn)
        exact ⟨thread', hthread', f, streamed, hop', f.new.of_row s2Uri⟩
      · exact hold t₀ (Table.mem_rows_of_get? ht₀) hof

/-- A future of the build with this id is for one of these tasks. -/
def Agrees (response : BuildResponse) (tasks : List NewTask) : CiOp reader → Prop
  | .createTask f _ => f.response.id = response.id → f.tasks = tasks
  | _ => True

instance (response : BuildResponse) (tasks : List NewTask) :
    DecidablePred (@Agrees reader response tasks)
  | .createTask f _ => inferInstanceAs (Decidable (f.response.id = response.id → f.tasks = tasks))
  | .updateTask _ _ | .claimTask _ _ _ => .isTrue trivial

/-- No other build of the run has the id of this one: it is the primary key of
`ci.builds`. -/
def OneBuild (P : CiPool reader) (response : BuildResponse) (tasks : List NewTask) : Prop :=
  ∀ t ∈ P.threads, Agrees response tasks t.op

instance (P : CiPool reader) (response : BuildResponse) (tasks : List NewTask) :
    Decidable (OneBuild P response tasks) :=
  inferInstanceAs (Decidable (∀ t ∈ P.threads, Agrees response tasks t.op))

variable {c : Creation} {response : BuildResponse} {tasks : List NewTask}

theorem rowOf_of_buildId {guard : CiPool reader → CiMove reader → Prop} (hP : CiReach reader guard P)
    (hone : OneBuild P response tasks) {t : Task} (ht : t ∈ P.sys.store.rows)
    (hbuild : t.buildId = response.id) : RowOf tasks t := by
  obtain ⟨thread, hthread, f, streamed, hop, hof⟩ := inserted_by hP ht
  have hid : f.response.id = response.id := by
    rw [← hbuild, hof.buildId, buildId_of_created f.created f.mem]
  have hagrees : Agrees response tasks (.createTask f streamed) := hop ▸ hone thread hthread
  exact ⟨f.new, hagrees hid ▸ f.mem, hof⟩

/-- If no task of the build is under way, they have all succeeded. -/
theorem all_success (hc : createBuild reader c = .ok (response, tasks))
    (hP : CiReach reader (OnFates (Progresses tasks)) P) (hpresent : Present tasks P.sys.store)
    (hquiet : ¬ Waking P response.id)
    (hidle : ∀ new ∈ tasks, ∀ t, P.sys.store.get? new.id = some t → ¬ t.status.Active)
    {new : NewTask} (hnew : new ∈ tasks) : statusOf P.sys.store new.id = some .success := by
  obtain ⟨config, build, hpicks, -⟩ := createBuild_ok hc
  obtain ⟨hearly, hwoken⟩ := early_run hP
  -- by induction along what the config says that tasks wait for
  have hnames : ∀ name, ∀ new ∈ tasks, new.name = name → statusOf P.sys.store new.id = some .success := by
    intro name
    induction name using hpicks.accepted.acyclic.induction with
    | _ name ih =>
      rintro new hnew rfl
      obtain ⟨t, ht, hof⟩ := hpresent new hnew
      have hmem := Table.mem_rows_of_get? ht
      have hfailure : t.status ≠ .failure := (hearly t hmem ⟨new, hnew, hof.buildId.symm⟩).1
      have hactive := hidle new hnew t ht
      have hnotDue : t.status ≠ .blocked := by
        intro hblocked
        have hdue : Due P.sys.store t := by
          refine due_of_present hc hpresent hnew hof hblocked fun dep hdep => ?_
          obtain ⟨other, hother, rfl, hwaits⟩ := mem_waitsFor hpicks hc hnew (hof.waitsFor ▸ hdep)
          exact ih other.name hwaits other hother rfl
        have hbuild : t.buildId = response.id := hof.buildId.trans (buildId_of_created hc hnew)
        exact hquiet (hbuild ▸ hwoken t hmem ⟨new, hnew, hof⟩ hdue)
      rw [statusOf, ht, Option.map_some]
      cases hstatus : t.status with
      | success => rfl
      | blocked => exact absurd hstatus hnotDue
      | failure => exact absurd hstatus hfailure
      | pending | assigned | running =>
        rw [hstatus] at hactive
        exact absurd trivial hactive
  exact hnames new.name new hnew rfl

/-- A build has at least one task. -/
theorem tasks_ne_nil (hc : createBuild reader c = .ok (response, tasks)) : ∃ new, new ∈ tasks := by
  obtain ⟨config, build, hpicks, -⟩ := createBuild_ok hc
  obtain ⟨name, hname⟩ := List.exists_mem_of_ne_nil _ (hpicks.accepted.nonempty build hpicks.mem)
  have hlisted := hpicks.accepted.listed build hpicks.mem name hname
  obtain ⟨t, ht, rfl⟩ := List.mem_map.mp hlisted
  obtain ⟨id, -, hnew⟩ := exists_newTask hpicks hc ht hname
  exact ⟨_, hnew⟩

/-- The status of a build all of whose rows have succeeded. -/
theorem buildStatus_success {l : List Task} (hne : l ≠ []) (h : ∀ t ∈ l, t.status = .success) :
    buildStatus l = .success := by
  have hfailure : (l.any fun t => decide (t.status = .failure)) = false := by
    rw [List.any_eq_false]
    intro t ht
    simp [h t ht]
  have hsuccess : (l.all fun t => decide (t.status = .success)) = true := by
    rw [List.all_eq_true]
    intro t ht
    simp [h t ht]
  unfold buildStatus
  rw [if_neg (by simpa using hne), hfailure, hsuccess]
  rfl

/-- **Accepted configs never deadlock.** As long as a task of the build has not
succeeded some task of it is under way, and when none is any more the build has
succeeded. -/
theorem no_deadlock (hc : createBuild reader c = .ok (response, tasks))
    (hP : CiReach reader (OnFates (Progresses tasks)) P) (hpresent : Present tasks P.sys.store)
    (hquiet : ¬ Waking P response.id) (hone : OneBuild P response tasks) :
    ((∃ new ∈ tasks, statusOf P.sys.store new.id ≠ some .success) →
      ∃ new ∈ tasks, ∃ t, P.sys.store.get? new.id = some t ∧ t.status.Active) ∧
    ((∀ new ∈ tasks, ∀ t, P.sys.store.get? new.id = some t → ¬ t.status.Active) →
      buildStatus (listByBuildId P.sys.store response.id) = .success) := by
  constructor
  · rintro ⟨new, hnew, hne⟩
    by_contra hidle
    push Not at hidle
    exact hne (all_success hc hP hpresent hquiet hidle hnew)
  · intro hidle
    refine buildStatus_success ?_ ?_
    · obtain ⟨new, hnew⟩ := tasks_ne_nil hc
      obtain ⟨t, ht, hof⟩ := hpresent new hnew
      have hmem : t ∈ listByBuildId P.sys.store response.id := by
        refine List.mem_filter.mpr ⟨Table.mem_rows_of_get? ht, ?_⟩
        simpa using hof.buildId.trans (buildId_of_created hc hnew)
      exact List.ne_nil_of_mem hmem
    · intro t ht
      obtain ⟨hmem, hbuild⟩ := List.mem_filter.mp ht
      obtain ⟨new, hnew, hof⟩ := rowOf_of_buildId hP hone hmem (by simpa using hbuild)
      have hsuccess := all_success hc hP hpresent hquiet hidle hnew
      rw [← hof.id, statusOf, get?_id hmem] at hsuccess
      exact Option.some.inj hsuccess

end Runs

/-- The build that is created first and then run has come to `deploy`, which is
claimed. -/
theorem no_deadlock_deploy :
    ((∃ new ∈ deployTasks, statusOf (play ciNext deployRun noTasks).sys.store new.id ≠ some .success) →
      ∃ new ∈ deployTasks, ∃ t, (play ciNext deployRun noTasks).sys.store.get? new.id = some t ∧
        t.status.Active) ∧
    ((∀ new ∈ deployTasks, ∀ t, (play ciNext deployRun noTasks).sys.store.get? new.id = some t →
        ¬ t.status.Active) →
      buildStatus (listByBuildId (play ciNext deployRun noTasks).sys.store deployResponse.id) =
        .success) := by
  have hP : CiReach deployReader (OnFates (Progresses deployTasks)) (play ciNext deployRun noTasks) :=
    reach_play (.start rfl) (by decide +kernel)
  have hquiet : Quiet (play ciNext deployRun noTasks) := by decide +kernel
  exact no_deadlock createBuild_deploy hP (by decide +kernel) (hquiet.not_waking (placed_run hP) _)
    (by decide +kernel)

end Ci
end Gitdot
