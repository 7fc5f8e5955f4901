/-
# The life cycle of a task

A task is blocked or pending at first, is assigned to a runner by a claim, and
then running until it succeeds or fails. `claim_task` and `unblock_tasks` look
at the status they find; `update_task` does not. A report that comes twice, or
late, or for a task that no runner has claimed is written all the same.

If every report finds its task assigned or running, or with the status that it
reports (`Timely`), statuses only move forward, finished tasks stay as they
are, and a task that runs or has finished was claimed before
(`life_cycle_run`).

Key definitions: `TaskStatus.Forward`, `Timely`, `ClaimedBefore`.
Key theorems: `forward_exec`, `claimed_run`, `life_cycle_run`.
-/
import Gitdot.Ci.Dependencies

namespace Gitdot
namespace Ci

open Lib

/-- How far a task has come. -/
def TaskStatus.rank : TaskStatus → ℕ
  | .blocked => 0
  | .pending => 1
  | .assigned => 2
  | .running => 3
  | .success => 4
  | .failure => 4

/-- A status that a task may have after another one. -/
def TaskStatus.Forward (a b : TaskStatus) : Prop := a = b ∨ a.rank < b.rank

def TaskStatus.Finished (a : TaskStatus) : Prop := a = .success ∨ a = .failure

theorem TaskStatus.Forward.refl (a : TaskStatus) : a.Forward a := .inl rfl

theorem TaskStatus.Forward.trans {a b c : TaskStatus} (hab : a.Forward b) (hbc : b.Forward c) :
    a.Forward c := by
  rcases hab with rfl | hab
  · exact hbc
  · rcases hbc with rfl | hbc
    · exact .inr hab
    · exact .inr (Nat.lt_trans hab hbc)

theorem TaskStatus.rank_le (a : TaskStatus) : a.rank ≤ 4 := by cases a <;> decide

/-- Nothing comes after the end. -/
theorem TaskStatus.Finished.eq {a b : TaskStatus} (ha : a.Finished) (h : a.Forward b) : b = a := by
  rcases h with rfl | hlt
  · rfl
  · have hb := b.rank_le
    have hrank : a.rank = 4 := by rcases ha with rfl | rfl <;> rfl
    omega

/-- The statuses that take a claim. -/
theorem TaskStatus.rank_of_finished {a : TaskStatus} (ha : a = .running ∨ a.Finished) : 2 ≤ a.rank := by
  rcases ha with rfl | rfl | rfl <;> decide

/-- A report that finds its task assigned or running, or as it says. -/
def Timely (tasks : Table Task) : TaskCall → Prop
  | .updateTask id status => ∀ t ∈ tasks.rows, t.id = id →
      t.status = .assigned ∨ t.status = .running ∨ t.status = status
  | _ => True

instance (tasks : Table Task) : (call : TaskCall) → Decidable (Timely tasks call)
  | .create _ => .isTrue trivial
  | .claimTask _ _ _ => .isTrue trivial
  | .unblockTasks _ => .isTrue trivial
  | .updateTask id status => inferInstanceAs (Decidable (∀ t ∈ tasks.rows, t.id = id →
      t.status = .assigned ∨ t.status = .running ∨ t.status = status))

section Calls

variable {reader : Reader} {op : CiOp reader} {c : TaskCall} {k : Except DatabaseError c.Resp → CiProg}
  {tasks : Table Task}

/-- A report moves the status it finds forward. -/
theorem forward_of_reported {a b : TaskStatus} (hb : b.Reported)
    (h : a = .assigned ∨ a = .running ∨ a = b) : a.Forward b := by
  rcases h with rfl | rfl | rfl
  · cases b <;> first | exact hb.elim | exact .inr (by decide)
  · cases b <;> first | exact hb.elim | exact .inl rfl | exact .inr (by decide)
  · exact .refl _

/-- **One call.** A timely call moves every status forward. -/
theorem forward_exec (hat : At op (.call c k)) (ht : Timely tasks c) {id : Uuid} {s : TaskStatus}
    (hs : statusOf tasks id = some s) :
    ∃ s', statusOf (taskCalls.exec c tasks).2 id = some s' ∧ s.Forward s' := by
  obtain ⟨t, hget, rfl⟩ := Option.map_eq_some_iff.mp hs
  cases hat with
  | create f streamed s2Uri =>
    refine ⟨t.status, ?_, .refl _⟩
    show Option.map Task.status ((TaskTable.create tasks _).2.get? id) = _
    rw [get?_create, if_neg (by simp [hget]), hget, Option.map_some]
  | update id' status hreported =>
    rw [exec_updateTask]
    by_cases hid : id = id'
    · subst hid
      refine ⟨status, statusOf_written_self hget, forward_of_reported hreported ?_⟩
      exact ht t (Table.mem_rows_of_get? hget) (Table.key_of_get? hget)
    · rw [statusOf_written_of_ne hid]
      exact ⟨t.status, hs, .refl _⟩
  | unblock id' status task =>
    by_cases hsame : statusOf (TaskTable.unblockTasks tasks task.buildId).2 id = statusOf tasks id
    · exact ⟨t.status, hsame.trans hs, .refl _⟩
    · obtain ⟨hblocked, hpending⟩ := statusOf_unblockTasks_ne hsame
      refine ⟨.pending, hpending, ?_⟩
      rw [Option.some.inj (hs.symm.trans hblocked)]
      exact .inr (by decide)
  | claim runner repositoryIds order =>
    show ∃ s', Option.map Task.status ((TaskTable.claimTask tasks _ _ _).2.get? id) = some s' ∧ _
    rw [get?_claim]
    split_ifs with hclaimed
    · obtain ⟨t', ht', hpending, -⟩ := claimable_of_claimed hclaimed
      obtain rfl := Option.some.inj (hget.symm.trans ht')
      refine ⟨.assigned, by rw [hget]; rfl, ?_⟩
      rw [hpending]
      exact .inr (by decide)
    · exact ⟨t.status, by rw [hget]; rfl, .refl _⟩

/-- A call after which a task has been claimed takes it, or found it claimed. -/
theorem claimed_exec (hat : At op (.call c k)) (ht : Timely tasks c) {id : Uuid} {s : TaskStatus}
    (hs : statusOf (taskCalls.exec c tasks).2 id = some s) (hrank : 2 ≤ s.rank) :
    (∃ s', statusOf tasks id = some s' ∧ 2 ≤ s'.rank) ∨
      ∃ runner repositoryIds order, c = .claimTask runner repositoryIds order ∧
        claimed tasks repositoryIds order = some id := by
  cases hat with
  | create f streamed s2Uri =>
    have hs : Option.map Task.status ((TaskTable.create tasks (f.new.row s2Uri)).2.get? id) = some s := hs
    rw [get?_create] at hs
    split_ifs at hs with hnew
    · -- a new row is blocked or pending
      have hstatus : f.new.status = s := Option.some.inj hs
      rw [f.status_eq] at hstatus
      split_ifs at hstatus <;> subst hstatus <;> exact absurd hrank (by decide)
    · exact .inl ⟨s, hs, hrank⟩
  | update id' status hreported =>
    rw [exec_updateTask] at hs
    by_cases hid : id = id'
    · subst hid
      cases hget : tasks.get? id with
      | none =>
        rw [statusOf, get?_written, if_pos rfl, hget] at hs
        cases hs
      | some t =>
        rw [statusOf_written_self hget] at hs
        obtain rfl := Option.some.inj hs
        have htimely := ht t (Table.mem_rows_of_get? hget) (Table.key_of_get? hget)
        refine .inl ⟨t.status, by rw [statusOf, hget]; rfl, ?_⟩
        rcases htimely with h | h | h
        · rw [h]
          decide
        · rw [h]
          decide
        · rw [h]
          exact hrank
    · rw [statusOf_written_of_ne hid] at hs
      exact .inl ⟨s, hs, hrank⟩
  | unblock id' status task =>
    by_cases hsame : statusOf (TaskTable.unblockTasks tasks task.buildId).2 id = statusOf tasks id
    · exact .inl ⟨s, hsame.symm.trans hs, hrank⟩
    · have hpending := Option.some.inj ((statusOf_unblockTasks_ne hsame).2.symm.trans hs)
      subst hpending
      exact absurd hrank (by decide)
  | claim runner repositoryIds order =>
    have hs : Option.map Task.status
        ((TaskTable.claimTask tasks runner repositoryIds order).2.get? id) = some s := hs
    rw [get?_claim] at hs
    split_ifs at hs with hclaimed
    · exact .inr ⟨runner, repositoryIds, order, rfl, hclaimed⟩
    · exact .inl ⟨s, hs, hrank⟩

end Calls

/-! ### Runs -/

section Runs

variable {reader : Reader} {P P' : CiPool reader}

/-- In the run that led to `P`, a claim took the task. -/
def ClaimedBefore (guard : CiPool reader → CiMove reader → Prop) (P : CiPool reader) (id : Uuid) : Prop :=
  ∃ Q n fate op runner repositoryIds order k, CiReach reader guard Q ∧
    Q.threads[n]? = some ⟨op, .call (.claimTask runner repositoryIds order) k⟩ ∧ fate ≠ .refused ∧
    claimed Q.sys.store repositoryIds order = some id ∧
    CiLater reader guard (ciNext (.step n fate) Q) P

theorem forward_later (hP : Placed P) (hl : CiLater reader (OnEffects Timely) P P') {id : Uuid}
    {s : TaskStatus} (hs : statusOf P.sys.store id = some s) :
    ∃ s', statusOf P'.sys.store id = some s' ∧ s.Forward s' := by
  refine store_later (I := fun tasks => ∃ s', statusOf tasks id = some s' ∧ s.Forward s')
    ?_ hP ⟨s, hs, .refl s⟩ hl
  rintro op c k tasks hat htimely ⟨s', hs', hforward⟩
  obtain ⟨s'', hs'', hforward'⟩ := forward_exec hat htimely hs'
  exact ⟨s'', hs'', hforward.trans hforward'⟩

/-- A task that has come as far as a claim was claimed. -/
theorem claimed_run (hP : CiReach reader (OnEffects Timely) P) {id : Uuid} {s : TaskStatus}
    (hs : statusOf P.sys.store id = some s) (hrank : 2 ≤ s.rank) :
    ClaimedBefore (OnEffects Timely) P id := by
  induction hP generalizing s with
  | start h =>
    subst h
    cases hs
  | @next P m hP hg ih =>
    have hlater : ClaimedBefore (OnEffects Timely) P id →
        ClaimedBefore (OnEffects Timely) (ciNext m P) id := by
      rintro ⟨Q, n, fate, op, runner, repositoryIds, order, k, hQ, hn, hfate, hclaimed, hl⟩
      exact ⟨Q, n, fate, op, runner, repositoryIds, order, k, hQ, hn, hfate, hclaimed, .next m hl hg⟩
    rcases ciNext_store m P with heq | ⟨n, fate, op, c, k, rfl, hfate, hn, heq⟩
    · rw [heq] at hs
      exact hlater (ih hs hrank)
    · rw [heq] at hs
      have hat : At op (.call c k) := placed_run hP n _ hn
      rcases claimed_exec hat (hg.of_thread hfate hn) hs hrank with
        ⟨s', hs', hrank'⟩ | ⟨runner, repositoryIds, order, rfl, hclaimed⟩
      · exact hlater (ih hs' hrank')
      · exact ⟨P, n, fate, op, runner, repositoryIds, order, k, hP, hn, hfate, hclaimed, .start rfl⟩

/-- **The life cycle of tasks.** In a run whose reports are timely, statuses only
move forward, a finished task stays as it is, and a task that runs or has
finished was claimed before. -/
theorem life_cycle_run (hP : CiReach reader (OnEffects Timely) P)
    (hl : CiLater reader (OnEffects Timely) P P') {id : Uuid} {s : TaskStatus}
    (hs : statusOf P.sys.store id = some s) :
    (∃ s', statusOf P'.sys.store id = some s' ∧ s.Forward s' ∧ (s.Finished → s' = s)) ∧
      (s = .running ∨ s.Finished → ClaimedBefore (OnEffects Timely) P id) := by
  obtain ⟨s', hs', hforward⟩ := forward_later (placed_run hP) hl hs
  refine ⟨⟨s', hs', hforward, fun hfinished => hfinished.eq hforward⟩, fun h => ?_⟩
  exact claimed_run hP hs (TaskStatus.rank_of_finished h)

end Runs

/-! ### A report that nobody asked for, and a late one -/

/-- `lint` is reported to have succeeded before anyone has claimed it. -/
def unclaimedRun : List (CiMove deployReader) :=
  [.start (.createTask (deployFuture 0) (.ok ())), .step 0 .answered,
    .start (.updateTask 1 "success"), .step 1 .answered, .step 1 .answered]

/-- A second report comes late: it runs. -/
def lateRun : List (CiMove deployReader) := [.start (.updateTask 1 "running"), .step 2 .answered]

/-- In the build that runs in order, `lint` stays finished from the moment it
succeeded, and it was claimed. -/
theorem life_cycle_run_deploy :
    (∃ s, statusOf (play ciNext (deployRun.drop 11) (play ciNext (deployRun.take 11) noTasks)).sys.store 1 =
      some s ∧ TaskStatus.success.Forward s ∧ (TaskStatus.success.Finished → s = .success)) ∧
      (TaskStatus.success = .running ∨ TaskStatus.success.Finished →
        ClaimedBefore (OnEffects Timely) (play ciNext (deployRun.take 11) noTasks) 1) :=
  life_cycle_run (reach_play (.start rfl) (by decide +kernel))
    (reach_play (.start rfl) (by decide +kernel)) (by decide +kernel)

/-- `lint` succeeds without a claim, and it runs after it has succeeded. -/
theorem not_life_cycle_late :
    ¬ ∀ (reader : Reader) (P P' : CiPool reader), CiReach reader (fun _ _ => True) P →
      CiLater reader (fun _ _ => True) P P' → ∀ id s, statusOf P.sys.store id = some s →
        (∃ s', statusOf P'.sys.store id = some s' ∧ s.Forward s' ∧ (s.Finished → s' = s)) ∧
          (s = .running ∨ s.Finished → ClaimedBefore (fun _ _ => True) P id) := by
  intro h
  obtain ⟨⟨s', hs', -, hsame⟩, -⟩ := h deployReader (play ciNext unclaimedRun noTasks)
    (play ciNext lateRun (play ciNext unclaimedRun noTasks)) (reach_play (.start rfl) guarded_true)
    (reach_play (.start rfl) guarded_true) 1 .success (by decide +kernel)
  have hrunning : statusOf (play ciNext lateRun (play ciNext unclaimedRun noTasks)).sys.store 1 =
      some .running := by decide +kernel
  rw [hsame (.inl rfl), hrunning] at hs'
  cases hs'

end Ci
end Gitdot
