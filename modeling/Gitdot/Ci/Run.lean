/-
# Runs of builds

The requests of a run are the futures of `create_build`, the reports of
runners through `update_task` and their claims through `claim_task`. Their
calls interleave on the table of tasks; a future that is dropped because
another one failed is a request that makes no further call.

`At` says at which call each request can be. `get?_create`, `get?_claim`,
`get?_written` and `get?_unblock` say what the calls make of a row, and
`of_exec` that none of them touches more of it than its status and its runner.

Key definitions: `CiOp`, `ciProgram`, `ciNext`, `At`, `OnFates`, `OnEffects`.
Key theorems: `placed_run`, `store_later`, `of_exec`, `inserted_run`.
-/
import Gitdot.Ci.Build
import Gitdot.Lib.Pool

namespace Gitdot
namespace Ci

open Lib

/-- A request of a run. -/
inductive CiOp (reader : Reader) where
  | createTask (f : Future reader) (streamed : Except String Unit)
  | updateTask (id : Uuid) (status : String)
  | claimTask (runner : Uuid) (repositoryIds order : List Uuid)

inductive CiError where
  | build (e : BuildError)
  | task (e : TaskError)
  deriving DecidableEq

abbrev CiProg := Prog TaskCall TaskCall.Resp DatabaseError CiError (Option Task)

/-- What the handler of `update_task` does with the body of a request. -/
def report (id : Uuid) (status : String) : TaskProg Task := do
  let request ← Prog.liftExcept (UpdateTaskRequest.new id status)
  updateTask request

def ciProgram {reader : Reader} : CiOp reader → CiProg
  | .createTask f streamed => (createTask f streamed).mapResult fun r => (r.map some).mapError .build
  | .updateTask id status => (report id status).mapResult fun r => (r.map some).mapError .task
  | .claimTask runner repositoryIds order =>
    (askTask .databaseError (.claimTask runner repositoryIds order)).mapResult fun r => r.mapError .task

abbrev CiPool (reader : Reader) : Type :=
  Pool (CiOp reader) TaskCall TaskCall.Resp DatabaseError CiError (Option Task) (Table Task)

abbrev CiMove (reader : Reader) : Type := Move (CiOp reader) Empty

/-- A move of a run. -/
def ciNext {reader : Reader} : CiMove reader → CiPool reader → CiPool reader :=
  Pool.next taskCalls ciProgram fun e => nomatch e

/-- Where runs start: no tasks and no requests. -/
def noTasks {reader : Reader} : CiPool reader := ⟨⟨.empty, []⟩, []⟩

/-- The states that runs reach whose moves meet the guard. -/
abbrev CiReach (reader : Reader) (guard : CiPool reader → CiMove reader → Prop) :
    CiPool reader → Prop :=
  Reach (fun P => P = noTasks) ciNext guard

/-! ### Where a request is -/

section At

variable {reader : Reader}

def afterCreate : Except DatabaseError Task → CiProg
  | .ok task => .ret (some task)
  | .error e => .fail (.build (.databaseError e))

def afterUnblock (task : Task) : Except DatabaseError (List Task) → CiProg
  | .ok _ => .ret (some task)
  | .error e => .fail (.task (.databaseError e))

def afterUpdate (id : Uuid) : Except DatabaseError Task → CiProg
  | .ok task =>
    if task.status = .success then .call (.unblockTasks task.buildId) (afterUnblock task)
    else .ret (some task)
  | .error e => .fail (.task (orNotFoundError "task" (Uuid.text id) e))

def afterClaim : Except DatabaseError (Option Task) → CiProg
  | .ok task => .ret task
  | .error e => .fail (.task (.databaseError e))

/-- What can be left of a request. -/
inductive At : CiOp reader → CiProg → Prop where
  | ret (op : CiOp reader) (task : Option Task) : At op (.ret task)
  | fail (op : CiOp reader) (e : CiError) : At op (.fail e)
  | create (f : Future reader) (streamed : Except String Unit) (s2Uri : String) :
      At (.createTask f streamed) (.call (.create (f.new.row s2Uri)) afterCreate)
  | update (id : Uuid) (status : TaskStatus) (h : status.Reported) :
      At (.updateTask id status.text) (.call (.updateTask id status) (afterUpdate id))
  | unblock (id : Uuid) (status : String) (task : Task) :
      At (.updateTask id status) (.call (.unblockTasks task.buildId) (afterUnblock task))
  | claim (runner : Uuid) (repositoryIds order : List Uuid) :
      At (.claimTask runner repositoryIds order)
        (.call (.claimTask runner repositoryIds order) afterClaim)

theorem ciProgram_createTask {f : Future reader} {streamed : Except String Unit} {s2Uri : String}
    (hs : createStream streamed f.creation.request.repoOwner f.creation.request.repoName f.new.id =
      .ok s2Uri) :
    ciProgram (.createTask f streamed) = .call (.create (f.new.row s2Uri)) afterCreate := by
  unfold ciProgram createTask
  dsimp only
  rw [hs]
  exact congrArg (Prog.call _) (funext fun r => by cases r <;> rfl)

/-- A future cannot have succeeded before it has made its call. -/
theorem ciProgram_createTask_ne (f : Future reader) (streamed : Except String Unit)
    (task : Option Task) : ciProgram (.createTask f streamed) ≠ .ret task := by
  cases hs : createStream streamed f.creation.request.repoOwner f.creation.request.repoName
      f.new.id with
  | error e =>
    unfold ciProgram createTask
    dsimp only
    rw [hs]
    exact nofun
  | ok s2Uri =>
    rw [ciProgram_createTask hs]
    exact nofun

theorem ciProgram_updateTask (id : Uuid) {status : TaskStatus} (h : status.Reported) :
    ciProgram (.updateTask id status.text : CiOp reader) =
      .call (.updateTask id status) (afterUpdate id) := by
  have hnew : UpdateTaskRequest.new id status.text = .ok ⟨id, status⟩ :=
    UpdateTaskRequest.new_ok.mpr ⟨rfl, h, rfl⟩
  unfold ciProgram report
  dsimp only
  rw [hnew]
  refine congrArg (Prog.call _) (funext fun r => ?_)
  cases r with
  | error e => rfl
  | ok task =>
    show Prog.mapResult _ (if task.status = .success then
      (askTask .databaseError (.unblockTasks task.buildId) >>= fun _ => pure task)
        else pure task) = afterUpdate id (.ok task)
    unfold afterUpdate
    dsimp only
    split_ifs
    · exact congrArg (Prog.call _) (funext fun r => by cases r <;> rfl)
    · rfl

theorem at_start (op : CiOp reader) : At op (ciProgram op) := by
  cases op with
  | createTask f streamed =>
    cases hs : createStream streamed f.creation.request.repoOwner f.creation.request.repoName
        f.new.id with
    | error e =>
      unfold ciProgram createTask
      dsimp only
      rw [hs]
      exact .fail _ _
    | ok s2Uri =>
      rw [ciProgram_createTask hs]
      exact .create _ _ _
  | updateTask id text =>
    cases hnew : UpdateTaskRequest.new id text with
    | error e =>
      unfold ciProgram report
      dsimp only
      rw [hnew]
      exact .fail _ _
    | ok request =>
      obtain ⟨rfl, hreported, rfl⟩ := UpdateTaskRequest.new_ok.mp hnew
      rw [ciProgram_updateTask _ hreported]
      exact .update _ _ hreported
  | claimTask runner repositoryIds order =>
    have hprogram : ciProgram (.claimTask runner repositoryIds order : CiOp reader) =
        .call (.claimTask runner repositoryIds order) afterClaim :=
      congrArg (Prog.call _) (funext fun r => by cases r <;> rfl)
    rw [hprogram]
    exact .claim _ _ _

theorem at_next (op : CiOp reader) (c : TaskCall) (k : Except DatabaseError c.Resp → CiProg)
    (a : Except DatabaseError c.Resp) (h : At op (.call c k)) : At op (k a) := by
  cases h with
  | create f streamed s2Uri => cases a <;> first | exact .ret _ _ | exact .fail _ _
  | update id status hreported =>
    cases a with
    | ok task =>
      unfold afterUpdate
      dsimp only
      split_ifs
      · exact .unblock _ _ _
      · exact .ret _ _
    | error e => exact .fail _ _
  | unblock id status task => cases a <;> first | exact .ret _ _ | exact .fail _ _
  | claim runner repositoryIds order => cases a <;> first | exact .ret _ _ | exact .fail _ _

/-- Every request of the pool is where a request can be. -/
def Placed (P : CiPool reader) : Prop :=
  ∀ (n : ℕ) (t : Thread (CiOp reader) TaskCall TaskCall.Resp DatabaseError CiError (Option Task)),
    P.threads[n]? = some t → At t.op t.rest

theorem Placed.next {P : CiPool reader} (hP : Placed P) (m : CiMove reader) : Placed (ciNext m P) :=
  threads_next at_start at_next hP m

variable {guard : CiPool reader → CiMove reader → Prop} {P P' : CiPool reader}

/-- The states that runs from `P` reach. -/
abbrev CiLater (reader : Reader) (guard : CiPool reader → CiMove reader → Prop)
    (P : CiPool reader) : CiPool reader → Prop :=
  Reach (fun Q => Q = P) ciNext guard

theorem placed_later (hP : Placed P) (hl : CiLater reader guard P P') : Placed P' :=
  hl.invariant (fun _ h => h ▸ hP) fun _ m hQ _ => hQ.next m

theorem placed_noTasks : Placed (noTasks : CiPool reader) := fun n t ht => by cases ht

/-- **Where the requests of a run are.** -/
theorem placed_run (hP : CiReach reader guard P) : Placed P := placed_later placed_noTasks hP

/-- A guard on the calls and on what becomes of them. -/
def OnFates (φ : Table Task → TaskCall → Fate → Prop) (P : CiPool reader) : CiMove reader → Prop
  | .step n fate => OnCalls (fun P _ c => φ P.sys.store c fate) P (.step n fate : CiMove reader)
  | _ => True

instance {φ : Table Task → TaskCall → Fate → Prop} [∀ tasks c fate, Decidable (φ tasks c fate)]
    (P : CiPool reader) : (m : CiMove reader) → Decidable (OnFates φ P m)
  | .start _ => .isTrue trivial
  | .step n fate => inferInstanceAs (Decidable (OnCalls (fun P _ c => φ P.sys.store c fate) P
      (.step n fate : CiMove reader)))

theorem OnFates.of_thread {φ : Table Task → TaskCall → Fate → Prop} {n : ℕ} {fate : Fate}
    {op : CiOp reader} {c : TaskCall} {k : Except DatabaseError c.Resp → CiProg}
    (hg : OnFates φ P (.step n fate)) (hn : P.threads[n]? = some ⟨op, .call c k⟩) :
    φ P.sys.store c fate :=
  OnCalls.of_thread (φ := fun P _ c => φ P.sys.store c fate) hg hn

theorem OnFates.mono {φ ψ : Table Task → TaskCall → Fate → Prop} {m : CiMove reader}
    (h : ∀ (n : ℕ) (op : CiOp reader) (c : TaskCall) (k : Except DatabaseError c.Resp → CiProg)
      (fate : Fate), P.threads[n]? = some ⟨op, .call c k⟩ → φ P.sys.store c fate →
        ψ P.sys.store c fate)
    (hg : OnFates φ P m) : OnFates ψ P m := by
  cases m with
  | start op => trivial
  | env e => trivial
  | step n fate =>
    rintro ⟨caller, c⟩ hc
    simp only [Pool.calling] at hc
    split at hc
    · next op c' k hn =>
      cases hc
      exact h n op _ k fate hn (hg.of_thread hn)
    · cases hc

/-- A guard on the calls that take effect. -/
def OnEffects (φ : Table Task → TaskCall → Prop) : CiPool reader → CiMove reader → Prop :=
  OnFates fun tasks c fate => fate ≠ .refused → φ tasks c

instance {φ : Table Task → TaskCall → Prop} [∀ tasks c, Decidable (φ tasks c)] (P : CiPool reader)
    (m : CiMove reader) : Decidable (OnEffects φ P m) :=
  inferInstanceAs (Decidable (OnFates (fun tasks c fate => fate ≠ .refused → φ tasks c) P m))

theorem OnEffects.of_thread {φ : Table Task → TaskCall → Prop} {n : ℕ} {fate : Fate}
    {op : CiOp reader} {c : TaskCall} {k : Except DatabaseError c.Resp → CiProg}
    (hg : OnEffects φ P (.step n fate)) (hfate : fate ≠ .refused)
    (hn : P.threads[n]? = some ⟨op, .call c k⟩) : φ P.sys.store c :=
  OnFates.of_thread (φ := fun tasks c fate => fate ≠ .refused → φ tasks c) hg hn hfate

/-- A call that takes effect is what changes the table. -/
theorem ciNext_store (m : CiMove reader) (P : CiPool reader) :
    (ciNext m P).sys.store = P.sys.store ∨
      ∃ n fate op c k, m = .step n fate ∧ fate ≠ .refused ∧ P.threads[n]? = some ⟨op, .call c k⟩ ∧
        (ciNext m P).sys.store = (taskCalls.exec c P.sys.store).2 :=
  store_next m fun e => nomatch e

/-- **Invariants of the table.** What the calls keep that meet the guard, a run
keeps. -/
theorem store_later {φ : Table Task → TaskCall → Prop} {I : Table Task → Prop}
    (hstep : ∀ (op : CiOp reader) c k tasks, At op (.call c k) → φ tasks c → I tasks →
      I (taskCalls.exec c tasks).2)
    (hP : Placed P) (hI : I P.sys.store) (hl : CiLater reader (OnEffects φ) P P') :
    I P'.sys.store := by
  refine (hl.invariant (I := fun Q => Placed Q ∧ I Q.sys.store) (fun _ h => h ▸ ⟨hP, hI⟩) ?_).2
  rintro Q m ⟨hQ, hI⟩ hg
  refine ⟨hQ.next m, ?_⟩
  rcases ciNext_store m Q with heq | ⟨n, fate, op, c, k, hm, hfate, hn, heq⟩
  · rw [heq]
    exact hI
  · rw [heq]
    subst hm
    exact hstep op c k _ (hQ n _ hn) (hg.of_thread hfate hn) hI

end At

/-! ### What the calls make of a row -/

section Rows

variable {tasks : Table Task}

theorem get?_id {t : Task} (ht : t ∈ tasks.rows) : tasks.get? t.id = some t := Table.get?_key ht

theorem get?_create {task : Task} (k : Uuid) :
    (TaskTable.create tasks task).2.get? k =
      if tasks.get? k = none ∧ k = task.id then some task else tasks.get? k := by
  unfold TaskTable.create
  cases hins : tasks.insert? task with
  | none =>
    have htaken : tasks.get? task.id ≠ none := fun hnone =>
      absurd (Table.insert?_of_get?_none (a := task) hnone) (by simp [hins])
    rw [if_neg]
    rintro ⟨hnone, rfl⟩
    exact htaken hnone
  | some tasks' =>
    have hfree : tasks.get? task.id = none := Table.get?_none_of_insert? hins
    rw [Table.get?_insert? hins]
    by_cases hk : k = task.id
    · subst hk
      simp [hfree]
    · simp [hk]

/-- The row that a claim takes. -/
def claimed (tasks : Table Task) (repositoryIds order : List Uuid) : Option Uuid :=
  order.find? fun id => TaskTable.Claimable tasks repositoryIds id

theorem claimable_of_claimed {repositoryIds order : List Uuid} {id : Uuid}
    (h : claimed tasks repositoryIds order = some id) : TaskTable.Claimable tasks repositoryIds id := by
  simpa using List.find?_some h

theorem get?_claim {runner : Uuid} {repositoryIds order : List Uuid} (k : Uuid) :
    (TaskTable.claimTask tasks runner repositoryIds order).2.get? k =
      if claimed tasks repositoryIds order = some k then
        (tasks.get? k).map fun t => { t with status := .assigned, runnerId := some runner }
      else tasks.get? k := by
  unfold TaskTable.claimTask
  cases hfind : claimed tasks repositoryIds order with
  | none =>
    unfold claimed at hfind
    rw [hfind]
    simp
  | some id =>
    unfold claimed at hfind
    rw [hfind]
    dsimp only
    rw [Table.get?_modify]
    by_cases hk : k = id
    · subst hk
      simp
    · simp [hk, Ne.symm hk]

theorem get?_unblock {build : Uuid} (k : Uuid) :
    (TaskTable.unblockTasks tasks build).2.get? k =
      (tasks.get? k).map (TaskTable.release tasks build) := by
  unfold TaskTable.unblockTasks
  rw [Table.get?_mapRows]

/-- `update_task` writes the status of a task, if there is one. -/
theorem exec_updateTask {id : Uuid} {status : TaskStatus} :
    (taskCalls.exec (.updateTask id status) tasks).2 = written tasks id status := by
  cases hold : tasks.get? id with
  | none =>
    rw [exec_updateTask_none hold]
    exact (Table.modify_eq_self fun t ht => by simp [hold] at ht).symm
  | some old => rw [exec_updateTask_some hold]

/-- What a task is of does not depend on its status and its runner. -/
theorem NewTask.Of.update {new : NewTask} {t : Task} (h : new.Of t) (status : TaskStatus)
    (runner : Option Uuid) : new.Of { t with status := status, runnerId := runner } :=
  ⟨h.id, h.repositoryId, h.buildId, h.name, h.waitsFor⟩

theorem NewTask.Of.release {new : NewTask} {t : Task} (h : new.Of t) (build : Uuid) :
    new.Of (TaskTable.release tasks build t) := by
  unfold TaskTable.release
  split_ifs
  · exact h.update _ _
  · exact h

/-- **Rows last.** A call leaves a row, but for its status and its runner. -/
theorem of_exec {reader : Reader} {op : CiOp reader} {c : TaskCall}
    {k : Except DatabaseError c.Resp → CiProg} (hat : At op (.call c k)) {new : NewTask} {id : Uuid}
    {t : Task} (ht : tasks.get? id = some t) (hof : new.Of t) :
    ∃ t', (taskCalls.exec c tasks).2.get? id = some t' ∧ new.Of t' := by
  cases hat with
  | create f streamed s2Uri =>
    refine ⟨t, ?_, hof⟩
    show (TaskTable.create tasks _).2.get? id = _
    rw [get?_create, if_neg (by simp [ht]), ht]
  | update id' status hreported =>
    rw [exec_updateTask, get?_written]
    split_ifs with hid
    · subst hid
      rw [ht]
      exact ⟨_, rfl, hof.update _ _⟩
    · exact ⟨t, ht, hof⟩
  | unblock id' status task =>
    show ∃ t', (TaskTable.unblockTasks tasks _).2.get? id = some t' ∧ _
    rw [get?_unblock, ht]
    exact ⟨_, rfl, hof.release _⟩
  | claim runner repositoryIds order =>
    show ∃ t', (TaskTable.claimTask tasks _ _ _).2.get? id = some t' ∧ _
    rw [get?_claim]
    split_ifs
    · rw [ht]
      exact ⟨_, rfl, hof.update _ _⟩
    · exact ⟨t, ht, hof⟩

/-- **Rows before.** A row after a call was there before, or the call made it
from one that was there, or it is new. -/
theorem row_exec {reader : Reader} {op : CiOp reader} {c : TaskCall}
    {k : Except DatabaseError c.Resp → CiProg} (hat : At op (.call c k)) {id : Uuid} {t' : Task}
    (ht' : (taskCalls.exec c tasks).2.get? id = some t') :
    (∃ f streamed s2Uri, op = .createTask f streamed ∧ tasks.get? id = none ∧
      t' = f.new.row s2Uri) ∨
    ∃ t, tasks.get? id = some t ∧ (∀ new : NewTask, new.Of t → new.Of t') ∧ t'.buildId = t.buildId ∧
      (t'.status = t.status ∨ t'.status = .pending ∨ t'.status = .assigned ∨
        ∃ status, c = .updateTask id status ∧ t'.status = status) := by
  cases hat with
  | create f streamed s2Uri =>
    have ht' : (TaskTable.create tasks (f.new.row s2Uri)).2.get? id = some t' := ht'
    rw [get?_create] at ht'
    split_ifs at ht' with hnew
    · exact .inl ⟨f, streamed, s2Uri, rfl, hnew.1, (Option.some.inj ht').symm⟩
    · exact .inr ⟨t', ht', fun _ h => h, rfl, .inl rfl⟩
  | update id' status hreported =>
    rw [exec_updateTask, get?_written] at ht'
    split_ifs at ht' with hid
    · subst hid
      obtain ⟨t, ht, rfl⟩ := Option.map_eq_some_iff.mp ht'
      exact .inr ⟨t, ht, fun _ h => h.update _ _, rfl,
        .inr (.inr (.inr ⟨status, rfl, rfl⟩))⟩
    · exact .inr ⟨t', ht', fun _ h => h, rfl, .inl rfl⟩
  | unblock id' status task =>
    have ht' : (TaskTable.unblockTasks tasks task.buildId).2.get? id = some t' := ht'
    rw [get?_unblock, Option.map_eq_some_iff] at ht'
    obtain ⟨t, ht, rfl⟩ := ht'
    refine .inr ⟨t, ht, ?_⟩
    unfold TaskTable.release
    split_ifs
    · exact ⟨fun _ h => h.update _ _, rfl, .inr (.inl rfl)⟩
    · exact ⟨fun _ h => h, rfl, .inl rfl⟩
  | claim runner repositoryIds order =>
    have ht' : (TaskTable.claimTask tasks runner repositoryIds order).2.get? id = some t' := ht'
    rw [get?_claim] at ht'
    split_ifs at ht'
    · obtain ⟨t, ht, rfl⟩ := Option.map_eq_some_iff.mp ht'
      exact .inr ⟨t, ht, fun _ h => h.update _ _, rfl,
        .inr (.inr (.inl rfl))⟩
    · exact .inr ⟨t', ht', fun _ h => h, rfl, .inl rfl⟩

/-- The rows of a list of new tasks are all there. -/
def Present (plan : List NewTask) (tasks : Table Task) : Prop :=
  ∀ new ∈ plan, ∃ t, tasks.get? new.id = some t ∧ new.Of t

instance (plan : List NewTask) (tasks : Table Task) : Decidable (Present plan tasks) :=
  letI (new : NewTask) : Decidable (∃ t, tasks.get? new.id = some t ∧ new.Of t) :=
    decidable_of_iff ((tasks.get? new.id).any fun t => new.Of t) (by simp [Option.any_eq_true])
  inferInstanceAs (Decidable (∀ new ∈ plan, ∃ t, tasks.get? new.id = some t ∧ new.Of t))

theorem present_exec {reader : Reader} {op : CiOp reader} {c : TaskCall}
    {k : Except DatabaseError c.Resp → CiProg} (hat : At op (.call c k)) {plan : List NewTask}
    (h : Present plan tasks) : Present plan (taskCalls.exec c tasks).2 := by
  intro new hnew
  obtain ⟨t, ht, hof⟩ := h new hnew
  exact of_exec hat ht hof

end Rows

/-! ### What has been inserted -/

section Inserted

variable {reader : Reader} {P : CiPool reader}

/-- The futures that have succeeded have inserted their rows. -/
def Inserted (P : CiPool reader) : Prop :=
  ∀ (n : ℕ) (f : Future reader) (streamed : Except String Unit) (task : Option Task),
    P.threads[n]? = some ⟨.createTask f streamed, .ret task⟩ →
      ∃ t, P.sys.store.get? f.new.id = some t ∧ f.new.Of t

/-- A row that `create` returns is there. -/
theorem get?_of_create {tasks : Table Task} {row task : Task}
    (h : (TaskTable.create tasks row).1 = .ok task) :
    (TaskTable.create tasks row).2.get? row.id = some row := by
  unfold TaskTable.create at h ⊢
  cases hins : tasks.insert? row with
  | none =>
    rw [hins] at h
    cases h
  | some tasks' =>
    rw [Table.get?_insert? hins]
    exact if_pos rfl

theorem Inserted.next (hP : Placed P) (hI : Inserted P) (m : CiMove reader) : Inserted (ciNext m P) := by
  -- a row that is there stays, whatever the move
  have hkeep : ∀ f : Future reader, (∃ t, P.sys.store.get? f.new.id = some t ∧ f.new.Of t) →
      ∃ t, (ciNext m P).sys.store.get? f.new.id = some t ∧ f.new.Of t := by
    rintro f ⟨t, ht, hof⟩
    rcases ciNext_store m P with heq | ⟨n, fate, op, c, k, -, -, hn, heq⟩
    · rw [heq]
      exact ⟨t, ht, hof⟩
    · rw [heq]
      exact of_exec (hP n _ hn) ht hof
  intro n f streamed task ht
  cases m with
  | start op =>
    rcases getElem?_start.mp ht with ht | ⟨-, hnew⟩
    · exact hkeep f (hI n f streamed task ht)
    · obtain ⟨rfl, hret⟩ := Thread.mk.inj hnew
      exact absurd hret.symm (ciProgram_createTask_ne f streamed task)
  | step j fate =>
    rcases atCall_or_done P j with ⟨op, c, k, hj⟩ | hdone
    · have hstep : ciNext (.step j fate) P = _ := next_step hj
      rw [hstep] at ht
      rcases (getElem?_step hj).mp ht with ⟨rfl, hthread⟩ | ⟨-, ht⟩
      · obtain ⟨rfl, hret⟩ := Thread.mk.inj hthread
        cases hP n _ hj with
        | create f streamed s2Uri =>
          cases hanswer : (P.sys.perform taskCalls ⟨n, .createTask f streamed⟩
              (.create (f.new.row s2Uri)) fate).1 with
          | error e =>
            rw [hanswer] at hret
            cases hret
          | ok row =>
            obtain ⟨rfl, hexec⟩ := perform_ok hanswer
            rw [hstep]
            exact ⟨_, get?_of_create hexec, f.new.of_row s2Uri⟩
      · exact hkeep f (hI n f streamed task ht)
    · have hstay : ciNext (.step j fate) P = P := hdone fate
      rw [hstay] at ht
      exact hkeep f (hI n f streamed task ht)
  | env e => exact nomatch e

theorem inserted_run {guard : CiPool reader → CiMove reader → Prop} (hP : CiReach reader guard P) :
    Inserted P := by
  refine (hP.invariant (I := fun P => Placed P ∧ Inserted P) ?_ ?_).2
  · rintro P rfl
    exact ⟨placed_noTasks, fun n f streamed task ht => by cases ht⟩
  · rintro P m ⟨hP, hI⟩ -
    exact ⟨hP.next m, hI.next hP m⟩

end Inserted

end Ci
end Gitdot
