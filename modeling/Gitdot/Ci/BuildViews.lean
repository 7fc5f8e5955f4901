/-
# The two views of a build

`get_build` fetches the tasks of a build and computes its status, its counts and
the time of its last change from them; `list_by_repo` computes the same in the
database, from the rows of a LEFT JOIN that is grouped by build, in which a
build without tasks has one row of nulls.

They agree on every build whose tasks can be counted by an `i32`: beyond, the
cast of the count fails in the query and wraps around in the service
(`views_agree_iff`). So whatever `list_builds` returns is what `get_build`
returns for the build (`getBuild_of_listed`).

Key definitions: `TaskRow`, `BuildWithStats`, `BuildDb`, `getBuild`, `joined`,
`statsRow`, `listByRepo`.
Key theorems: `statsRow_eq`, `views_agree_iff`, `getBuild_of_listed`.
-/
import Gitdot.Ci.Numbers
import Gitdot.Ci.Progress
import Gitdot.Lib.Kleene

namespace Gitdot
namespace Ci

open Lib Auth

/-! ### The tables -/

/-- A row of `ci.tasks`, with its times. -/
structure TaskRow where
  task : Task
  createdAt : Time
  updatedAt : Time
  deriving DecidableEq

instance : Keyed TaskRow Uuid := ⟨fun t => t.task.id⟩

instance : Keyed Build Uuid := ⟨Build.id⟩

@[simp] theorem key_build (b : Build) : Keyed.key b = b.id := rfl

/-- `BuildWithStats`, and `BuildResponse`, which has the same fields. -/
structure BuildWithStats where
  id : Uuid
  number : ℤ
  repositoryId : Uuid
  refName : String
  commitSha : String
  trigger : BuildTrigger
  status : BuildStatus
  totalTasks : ℤ
  completedTasks : ℤ
  createdAt : Time
  updatedAt : Time
  deriving DecidableEq

/-- What the services read: the id of a repository by its owner and name, and the
rows of builds and tasks. -/
structure BuildDb where
  repository : String → String → Option Uuid
  builds : Table Build
  tasks : Table TaskRow
  unique : ∀ a ∈ builds.rows, ∀ b ∈ builds.rows, a.repositoryId = b.repositoryId →
    a.number = b.number → a = b

inductive ViewError where
  | notFound (entity id : String)
  | integerOutOfRange
  deriving DecidableEq

/-! ### One build -/

/-- `as i32`. -/
def asI32 (n : ℕ) : ℤ := Int.bmod n (2 ^ 32)

namespace BuildDb

variable (db : BuildDb)

/-- The tasks of a build, in no order. -/
def tasksOf (build : Uuid) : List TaskRow := db.tasks.rows.filter fun t => t.task.buildId = build

/-- `list_by_build_id`. -/
def listByBuildId (build : Uuid) : List TaskRow :=
  (db.tasksOf build).insertionSort fun s t => s.createdAt ≤ t.createdAt

def get (repositoryId : Uuid) (number : ℤ) : Option Build :=
  db.builds.rows.find? fun b => b.repositoryId = repositoryId ∧ b.number = number

end BuildDb

/-- What `get_build` makes of a build and its tasks. -/
def response (build : Build) (tasks : List TaskRow) : BuildWithStats where
  id := build.id
  number := build.number
  repositoryId := build.repositoryId
  refName := build.refName
  commitSha := build.commitSha
  trigger := build.trigger
  status := buildStatus (tasks.map TaskRow.task)
  totalTasks := asI32 tasks.length
  completedTasks := asI32 (tasks.filter fun t => t.task.status = .success).length
  createdAt := build.createdAt
  updatedAt := (tasks.map TaskRow.updatedAt).max?.getD build.createdAt

def getBuild (db : BuildDb) (owner repo : String) (number : ℤ) : Except ViewError BuildWithStats := do
  let repository ← okOr (db.repository owner repo) (.notFound "repository" s!"{owner}/{repo}")
  let build ← okOr (db.get repository number) (.notFound "build" s!"{owner}/{repo}#{number}")
  return response build (db.listByBuildId build.id)

/-! ### The list -/

/-- The rows of one build in `ci.builds b LEFT JOIN ci.tasks t ON t.build_id = b.id`. -/
def joined (tasks : List TaskRow) : List (Option TaskRow) :=
  if tasks.isEmpty then [none] else tasks.map some

/-- `COUNT(t.id)`. -/
def countId (rows : List (Option TaskRow)) : ℕ :=
  (rows.filterMap fun t => t.map fun t => t.task.id).length

/-- `COUNT(t.id) FILTER (WHERE t.status = …)`. -/
def countStatus (status : TaskStatus) (rows : List (Option TaskRow)) : ℕ :=
  countId (rows.filter fun t => (Truth.eq (t.map fun t => t.task.status) (some status)).Holds)

/-- `CAST(… AS INT)`. -/
def castInt (n : ℕ) : Except ViewError ℤ :=
  if n < 2 ^ 31 then .ok n else .error .integerOutOfRange

/-- What the query computes for a build from its group of rows. -/
def statsRow (b : Build) (rows : List (Option TaskRow)) : Except ViewError BuildWithStats := do
  let totalTasks ← castInt (countId rows)
  let completedTasks ← castInt (countStatus .success rows)
  return {
    id := b.id
    number := b.number
    repositoryId := b.repositoryId
    refName := b.refName
    commitSha := b.commitSha
    trigger := b.trigger
    status :=
      if countId rows = 0 then .running
      else if 0 < countStatus .failure rows then .failure
      else if countId rows = countStatus .success rows then .success
      else .running
    totalTasks := totalTasks
    completedTasks := completedTasks
    createdAt := b.createdAt
    updatedAt := (rows.filterMap fun t => t.map TaskRow.updatedAt).max?.getD b.createdAt }

def Build.cursor (b : Build) : Cursor := ⟨b.createdAt, b.id⟩

def BuildWithStats.cursor (b : BuildWithStats) : Cursor := ⟨b.createdAt, b.id⟩

/-- `list_by_repo`. -/
def listByRepo (db : BuildDb) (repositoryId : Uuid) (cursor : Option Cursor) (limit : ℕ) :
    Except ViewError (List BuildWithStats × Option Cursor) := do
  let builds := db.builds.rows.filter fun b => b.repositoryId = repositoryId
  let rows ← (below Build.cursor cursor builds).mapM fun b => statsRow b (joined (db.tasksOf b.id))
  return page BuildWithStats.cursor none limit rows

/-- `list_builds`, its cursor not yet encoded. -/
def listBuilds (db : BuildDb) (owner repo : String) (cursor : Option Cursor) (limit : ℕ) :
    Except ViewError (List BuildWithStats × Option Cursor) := do
  let repository ← okOr (db.repository owner repo) (.notFound "repository" s!"{owner}/{repo}")
  listByRepo db repository cursor limit

/-! ### Counting -/

section Counting

variable {tasks : List TaskRow}

theorem countId_map_some (tasks : List TaskRow) : countId (tasks.map some) = tasks.length := by
  unfold countId
  rw [List.filterMap_map]
  simp

/-- The row of nulls is not counted. -/
theorem countId_joined (tasks : List TaskRow) : countId (joined tasks) = tasks.length := by
  unfold joined
  split_ifs with h
  · rw [List.isEmpty_iff.mp h]
    rfl
  · exact countId_map_some tasks

/-- Nor does it meet a condition. -/
theorem countStatus_joined (status : TaskStatus) (tasks : List TaskRow) :
    countStatus status (joined tasks) = (tasks.filter fun t => t.task.status = status).length := by
  have hholds : ∀ t : TaskRow, (Truth.eq ((some t).map fun t => t.task.status) (some status)).Holds ↔
      t.task.status = status := by
    intro t
    rw [Option.map_some, Truth.eq, Truth.holds_ofBool, decide_eq_true_iff]
  unfold countStatus joined
  split_ifs with h
  · rw [List.isEmpty_iff.mp h]
    rfl
  · rw [List.filter_map, countId_map_some]
    congr 2
    funext t
    exact decide_eq_decide.mpr (hholds t)

theorem updatedAt_joined (tasks : List TaskRow) :
    (joined tasks).filterMap (fun t => t.map TaskRow.updatedAt) = tasks.map TaskRow.updatedAt := by
  unfold joined
  split_ifs with h
  · rw [List.isEmpty_iff.mp h]
    rfl
  · rw [List.filterMap_map]
    simp

/-- The branches of the query are those of the service. -/
theorem status_joined (tasks : List TaskRow) :
    (if countId (joined tasks) = 0 then BuildStatus.running
      else if 0 < countStatus .failure (joined tasks) then .failure
      else if countId (joined tasks) = countStatus .success (joined tasks) then .success
      else .running) = buildStatus (tasks.map TaskRow.task) := by
  rw [countId_joined, countStatus_joined, countStatus_joined]
  unfold buildStatus
  have hfailure : 0 < (tasks.filter fun t => t.task.status = .failure).length ↔
      (tasks.map TaskRow.task).any (fun t => t.status = .failure) = true := by
    rw [List.length_pos_iff_exists_mem]
    simp
  have hsuccess : tasks.length = (tasks.filter fun t => t.task.status = .success).length ↔
      (tasks.map TaskRow.task).all (fun t => t.status = .success) = true := by
    rw [eq_comm, List.length_filter_eq_length_iff]
    simp
  simp only [List.isEmpty_map, List.isEmpty_iff, List.length_eq_zero_iff, hfailure, hsuccess]

theorem asI32_of_lt {n : ℕ} (h : n < 2 ^ 31) : asI32 n = n := by
  unfold asI32
  rw [Int.bmod_eq_of_le] <;> omega

/-- A group in the query: an error if its tasks are too many for an `INT`, and
otherwise what the service says. -/
theorem statsRow_eq (b : Build) (tasks : List TaskRow) :
    statsRow b (joined tasks) =
      if tasks.length < 2 ^ 31 then .ok (response b tasks) else .error .integerOutOfRange := by
  have hle : (tasks.filter fun t => t.task.status = .success).length ≤ tasks.length :=
    List.length_filter_le _ _
  unfold statsRow castInt
  rw [status_joined, updatedAt_joined, countId_joined, countStatus_joined]
  split_ifs with htotal hcompleted
  · have hresponse : response b tasks =
        { response b tasks with
          totalTasks := tasks.length
          completedTasks := (tasks.filter fun t => t.task.status = .success).length } := by
      rw [← asI32_of_lt htotal, ← asI32_of_lt hcompleted]
      rfl
    rw [hresponse]
    rfl
  · omega
  · rfl
  · rfl

/-- The order of the tasks does not matter. -/
theorem response_perm (b : Build) {tasks tasks' : List TaskRow} (h : tasks.Perm tasks') :
    response b tasks = response b tasks' := by
  have hany : ∀ p : Task → Bool, (tasks.map TaskRow.task).any p = (tasks'.map TaskRow.task).any p :=
    fun p => (h.map _).any_eq
  have hall : ∀ p : Task → Bool, (tasks.map TaskRow.task).all p = (tasks'.map TaskRow.task).all p :=
    fun p => (h.map _).all_eq
  have hstatus : buildStatus (tasks.map TaskRow.task) = buildStatus (tasks'.map TaskRow.task) := by
    unfold buildStatus
    rw [hany, hall, (h.map TaskRow.task).isEmpty_eq]
  have hmax : (tasks.map TaskRow.updatedAt).max? = (tasks'.map TaskRow.updatedAt).max? := by
    refine Option.ext fun m => ?_
    rw [List.max?_eq_some_iff, List.max?_eq_some_iff, (h.map TaskRow.updatedAt).mem_iff]
    simp only [(h.map TaskRow.updatedAt).mem_iff]
  unfold response
  rw [hstatus, hmax, h.length_eq, (h.filter _).length_eq]

end Counting

/-! ### The two views -/

section Views

variable {db : BuildDb} {b : Build} {owner repo : String}

theorem get_eq (hb : b ∈ db.builds.rows) : db.get b.repositoryId b.number = some b := by
  unfold BuildDb.get
  rcases hfind : db.builds.rows.find? fun a => decide (a.repositoryId = b.repositoryId ∧
      a.number = b.number) with _ | a
  · have hno := List.find?_eq_none.mp hfind b hb
    simp at hno
  · have hkeys := List.find?_some hfind
    simp only [decide_eq_true_eq] at hkeys
    have hab := db.unique a (List.mem_of_find?_eq_some hfind) b hb hkeys.1 hkeys.2
    exact hfind.trans (congrArg some hab)

/-- `get_build` of a build that is there. -/
theorem getBuild_eq (hb : b ∈ db.builds.rows) (hrepo : db.repository owner repo = some b.repositoryId) :
    getBuild db owner repo b.number = .ok (response b (db.tasksOf b.id)) := by
  have hperm : (db.listByBuildId b.id).Perm (db.tasksOf b.id) := List.perm_insertionSort _ _
  unfold getBuild
  rw [hrepo]
  simp only [okOr, bind, Except.bind, get_eq hb, pure, Except.pure, response_perm b hperm]

/-- **The two views.** The query computes what `get_build` does exactly for the
builds whose tasks an `i32` can count. -/
theorem views_agree_iff (hb : b ∈ db.builds.rows)
    (hrepo : db.repository owner repo = some b.repositoryId) :
    statsRow b (joined (db.tasksOf b.id)) = getBuild db owner repo b.number ↔
      (db.tasksOf b.id).length < 2 ^ 31 := by
  rw [statsRow_eq, getBuild_eq hb hrepo]
  split_ifs with h
  · exact iff_of_true rfl h
  · exact iff_of_false (fun heq => by cases heq) h

theorem exists_of_mem_mapM {α β ε : Type} {f : α → Except ε β} : ∀ {l : List α} {l' : List β} {y : β},
    l.mapM f = .ok l' → y ∈ l' → ∃ x ∈ l, f x = .ok y
  | [], l', y, h, hy => by
    obtain rfl : [] = l' := by simpa [pure, Except.pure] using h
    cases hy
  | x :: l, l', y, h, hy => by
    rw [List.mapM_cons] at h
    obtain ⟨z, hz, hrest⟩ := bind_eq_ok.mp h
    obtain ⟨zs, hzs, hl'⟩ := bind_eq_ok.mp hrest
    obtain rfl := Except.ok.inj hl'
    rcases List.mem_cons.mp hy with rfl | hy
    · exact ⟨x, List.mem_cons_self, hz⟩
    · obtain ⟨w, hw, hfw⟩ := exists_of_mem_mapM hzs hy
      exact ⟨w, List.mem_cons_of_mem x hw, hfw⟩

/-- **Lists.** What `list_builds` returns of a build is what `get_build` returns. -/
theorem getBuild_of_listed {cursor next : Option Cursor} {limit : ℕ} {rows : List BuildWithStats}
    (h : listBuilds db owner repo cursor limit = .ok (rows, next)) :
    ∀ row ∈ rows, getBuild db owner repo row.number = .ok row := by
  intro row hrow
  unfold listBuilds at h
  obtain ⟨repository, hrepo, hlist⟩ := bind_eq_ok.mp h
  rw [okOr_eq_ok] at hrepo
  unfold listByRepo at hlist
  obtain ⟨stats, hstats, hpage⟩ := bind_eq_ok.mp hlist
  have hpage : page BuildWithStats.cursor none limit stats = (rows, next) := Except.ok.inj hpage
  have hmem : row ∈ stats := by
    have hfst : rows = _ := (congrArg Prod.fst hpage).symm.trans (page_fst none limit stats)
    have hperm : (descending BuildWithStats.cursor (below BuildWithStats.cursor none stats)).Perm
        (below BuildWithStats.cursor none stats) := List.perm_insertionSort _ _
    rw [hfst] at hrow
    exact mem_below (hperm.mem_iff.mp (List.mem_of_mem_take hrow))
  obtain ⟨b, hb, hrow⟩ := exists_of_mem_mapM hstats hmem
  obtain ⟨hb, hrepository⟩ := List.mem_filter.mp (mem_below hb)
  rw [statsRow_eq] at hrow
  split_ifs at hrow
  obtain rfl := Except.ok.inj hrow
  exact getBuild_eq hb (by rw [hrepo, of_decide_eq_true hrepository])

end Views

/-! ### A build with too many tasks -/

/-- Build 5 and its task `i`. -/
def fifth : Build := ⟨5, 1, 1, "main", "sha", .pushToMain, .running, 0⟩

def fifthTask (i : ℕ) : TaskRow :=
  ⟨⟨Fin.ofNat (2 ^ 128) i, 1, 5, "s2://o-r/task", [], .pending, "t", "true", none⟩, 0, 0⟩

theorem sorted_fifthTasks {n : ℕ} (hn : n ≤ 2 ^ 128) :
    ((List.range n).map fifthTask).Pairwise fun s t => Keyed.key s < Keyed.key t := by
  rw [List.pairwise_map]
  refine List.pairwise_lt_range.imp_of_mem fun {i j} hi hj hij => ?_
  have hin := List.mem_range.mp hi
  have hjn := List.mem_range.mp hj
  show Fin.ofNat (2 ^ 128) i < Fin.ofNat (2 ^ 128) j
  rw [Fin.lt_def, Fin.val_ofNat, Fin.val_ofNat, Nat.mod_eq_of_lt (by omega),
    Nat.mod_eq_of_lt (by omega)]
  exact hij

/-- The repository with build 5, which has `n` tasks. -/
def crowded (n : ℕ) (hn : n ≤ 2 ^ 128) : BuildDb where
  repository _ _ := some 1
  builds := ⟨[fifth], List.pairwise_singleton _ _⟩
  tasks := ⟨(List.range n).map fifthTask, sorted_fifthTasks hn⟩
  unique := by
    intro a ha b hb _ _
    rw [List.mem_singleton.mp ha, List.mem_singleton.mp hb]

theorem length_tasksOf_crowded {n : ℕ} (hn : n ≤ 2 ^ 128) :
    ((crowded n hn).tasksOf 5).length = n := by
  have hall : (crowded n hn).tasksOf 5 = (List.range n).map fifthTask := by
    refine List.filter_eq_self.mpr fun t ht => ?_
    obtain ⟨i, -, rfl⟩ := List.mem_map.mp ht
    exact decide_eq_true rfl
  rw [hall, List.length_map, List.length_range]

/-- With two tasks the views agree. -/
theorem views_agree_two :
    statsRow fifth (joined ((crowded 2 (by decide)).tasksOf 5)) =
      getBuild (crowded 2 (by decide)) "o" "r" 1 :=
  (views_agree_iff List.mem_cons_self rfl).mpr (by
    show ((crowded 2 _).tasksOf 5).length < 2 ^ 31
    rw [length_tasksOf_crowded]
    decide)

/-- With 2 ^ 31 tasks the list fails, and `get_build` does not. -/
theorem not_views_agree :
    ¬ ∀ (db : BuildDb) (b : Build) (owner repo : String), b ∈ db.builds.rows →
      db.repository owner repo = some b.repositoryId →
      statsRow b (joined (db.tasksOf b.id)) = getBuild db owner repo b.number := by
  intro hall
  have heq := hall (crowded (2 ^ 31) (by decide)) fifth "o" "r" List.mem_cons_self rfl
  rw [statsRow_eq, getBuild_eq List.mem_cons_self rfl] at heq
  have hlength : ((crowded (2 ^ 31) (by decide)).tasksOf fifth.id).length = 2 ^ 31 :=
    length_tasksOf_crowded _
  rw [if_neg (by rw [hlength]; exact lt_irrefl _)] at heq
  cases heq

end Ci
end Gitdot
