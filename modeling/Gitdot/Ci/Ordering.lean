/-
# Which declared orderings a build keeps

A config declares, for each task, which others it waits for. Validation holds
these names against all tasks of the config, while a build has rows only for
the tasks it lists: `create_build` looks the names up in `name_to_id` and keeps
those it finds. So of two tasks `a` and `b` of which `a` waits for `b`, a build
that lists `a` records the ordering exactly if it lists `b` too
(`records_iff`).

Key definitions: `Records`.
Key theorems: `records_iff`.
-/
import Gitdot.Ci.Build

namespace Gitdot
namespace Ci

open Lib

/-- The row of `a` waits for the id of the row of `b`. -/
def Records (tasks : List NewTask) (a b : TaskConfig) : Prop :=
  ∃ newA ∈ tasks, newA.name = a.name ∧ ∃ newB ∈ tasks, newB.name = b.name ∧ newB.id ∈ newA.waitsFor

instance (tasks : List NewTask) (a b : TaskConfig) : Decidable (Records tasks a b) :=
  inferInstanceAs (Decidable (∃ newA ∈ tasks, _ ∧ ∃ newB ∈ tasks, _))

/-- A task that the build lists has a row. -/
theorem exists_newTask {reader : Reader} {c : Creation} {config : CiConfig} {build : BuildConfig}
    {response : BuildResponse} {tasks : List NewTask} (hpicks : Picks reader c config build)
    (hc : createBuild reader c = .ok (response, tasks)) {t : TaskConfig} (ht : t ∈ config.tasks)
    (hlisted : t.name ∈ build.tasks) :
    ∃ id, nameToId c.newV4 (config.getTaskConfigs build) t.name = some id ∧
      newTask (nameToId c.newV4 (config.getTaskConfigs build)) response.repositoryId response.id t id
        ∈ tasks := by
  obtain ⟨config', build', hpicks', rfl⟩ := createBuild_ok hc
  obtain ⟨rfl, rfl⟩ := hpicks.unique hpicks'
  have hmem : t ∈ config.getTaskConfigs build := mem_getTaskConfigs.mpr ⟨ht, hlisted⟩
  have hsome : (nameToId c.newV4 (config.getTaskConfigs build) t.name).isSome :=
    nameToId_isSome.mpr ⟨t, hmem, rfl⟩
  obtain ⟨id, hid⟩ := Option.isSome_iff_exists.mp hsome
  exact ⟨id, hid, mem_newTasks.mpr ⟨t, hmem, id, hid, rfl⟩⟩

/-- **Orderings.** Of two tasks of which the first waits for the second, a build
that lists the first records the ordering exactly if it lists the second. -/
theorem records_iff {reader : Reader} {c : Creation} {config : CiConfig} {build : BuildConfig}
    {response : BuildResponse} {tasks : List NewTask} (hpicks : Picks reader c config build)
    (hc : createBuild reader c = .ok (response, tasks)) {a b : TaskConfig} (ha : a ∈ config.tasks)
    (hb : b ∈ config.tasks) (hlisted : a.name ∈ build.tasks) (hwaits : b.name ∈ a.deps) :
    Records tasks a b ↔ b.name ∈ build.tasks := by
  constructor
  · rintro ⟨-, -, -, newB, hnewB, hname, -⟩
    obtain ⟨config', build', hpicks', rfl⟩ := createBuild_ok hc
    obtain ⟨rfl, rfl⟩ := hpicks.unique hpicks'
    obtain ⟨t, ht, id, -, rfl⟩ := mem_newTasks.mp hnewB
    have hname : t.name = b.name := hname
    rw [← hname]
    exact (mem_getTaskConfigs.mp ht).2
  · intro hlisted'
    obtain ⟨ida, hida, hnewA⟩ := exists_newTask hpicks hc ha hlisted
    obtain ⟨idb, hidb, hnewB⟩ := exists_newTask hpicks hc hb hlisted'
    refine ⟨_, hnewA, rfl, _, hnewB, rfl, ?_⟩
    exact List.mem_filterMap.mpr ⟨b.name, hwaits, hidb⟩

/-! ### A build without a task that another waits for -/

/-- The build for `main` lists `deploy` but not `test`, which it waits for. -/
def splitConfig : CiConfig where
  builds := [⟨.pushToMain, ["lint", "deploy"]⟩, ⟨.pullRequest, ["test"]⟩]
  tasks := [plainTask "lint" [], plainTask "test" ["lint"], plainTask "deploy" ["lint", "test"]]

theorem picks_splitConfig : Picks (plainReader splitConfig) (plainCreation "main") splitConfig
    ⟨.pushToMain, ["lint", "deploy"]⟩ :=
  ⟨⟨"", rfl, by decide +kernel⟩, rfl⟩

def splitResponse : BuildResponse := ⟨100, 1, 7, "main", "c0ffee", .pushToMain, .running, 2, 0⟩

def splitTasks : List NewTask :=
  [⟨1, 7, "lint", "make", 100, .pending, []⟩, ⟨2, 7, "deploy", "make", 100, .blocked, [1]⟩]

theorem createBuild_splitConfig :
    createBuild (plainReader splitConfig) (plainCreation "main") = .ok (splitResponse, splitTasks) := by
  decide +kernel

/-- The build for `main` keeps the ordering of `lint` and `deploy`. -/
theorem records_iff_splitConfig :
    Records splitTasks (plainTask "deploy" ["lint", "test"]) (plainTask "lint" []) :=
  (records_iff picks_splitConfig createBuild_splitConfig (by decide) (by decide) (by decide)
    (by decide)).mpr (by decide)

/-- In the build for `main`, `deploy` does not wait for `test`. -/
theorem not_records_splitConfig :
    ¬ ∀ (reader : Reader) (c : Creation) (config : CiConfig) (build : BuildConfig)
      (response : BuildResponse) (tasks : List NewTask), Picks reader c config build →
      createBuild reader c = .ok (response, tasks) → ∀ a ∈ config.tasks, ∀ b ∈ config.tasks,
        a.name ∈ build.tasks → b.name ∈ a.deps → Records tasks a b := by
  intro h
  have hrecords := h _ _ _ _ _ _ picks_splitConfig createBuild_splitConfig
    (plainTask "deploy" ["lint", "test"]) (by decide) (plainTask "test" ["lint"]) (by decide)
    (by decide) (by decide)
  exact absurd hrecords (by decide)

end Ci
end Gitdot
