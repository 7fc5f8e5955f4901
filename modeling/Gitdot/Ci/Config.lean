/-
# The CI config and its validation

`.gitdot-ci.toml` declares tasks and, for each trigger, the build that lists
some of them. `validate_ci_config` collects the errors of ten checks. The last
of them is a depth-first search over the tasks in the order in which a hash
map yields its keys, here a `KeyOrder`.

What an accepted config is, as far as builds depend on it, is `Accepted`: its
names are distinct, its builds list tasks that exist and at least one, and no
task waits for itself through others. The search has fuel enough for every
config, so `check_dag` is total.

Key definitions: `CiConfig`, `checkDag`, `validateCiConfig`, `CiConfig.new`,
`Accepted`.
Key theorems: `exists_dagSearch`, `accepted_of_validate`.
-/
import Mathlib.Data.List.DropRight
import Gitdot.Lib.Dfs
import Gitdot.Lib.Prog

namespace Gitdot
namespace Ci

open Lib

inductive BuildTrigger where
  | pullRequest
  | pushToMain
  deriving DecidableEq

/-- `Into<String>`. -/
def BuildTrigger.text : BuildTrigger → String
  | .pullRequest => "pull_request"
  | .pushToMain => "push_to_main"

structure BuildConfig where
  trigger : BuildTrigger
  tasks : List String
  deriving DecidableEq

structure TaskConfig where
  name : String
  command : String
  waitsFor : Option (List String)
  deriving DecidableEq

structure CiConfig where
  builds : List BuildConfig
  tasks : List TaskConfig
  deriving DecidableEq

/-- `CiConfigError`, of reading a config. -/
inductive CiConfigError where
  | parse (message : String)
  | validation (errors : List String)
  | noMatchingBuild (trigger : String)
  deriving DecidableEq

/-- `Display`. -/
def CiConfigError.text : CiConfigError → String
  | .parse message => s!"failed to parse config: {message}"
  | .validation errors => "config validation failed:\n" ++
      String.intercalate "\n" (errors.map fun e => s!"  - {e}")
  | .noMatchingBuild trigger => s!"no build config found for trigger '{trigger}'"

namespace CiConfig

/-- The names of the tasks. -/
def names (config : CiConfig) : List String := config.tasks.map TaskConfig.name

def getBuildConfig (config : CiConfig) (trigger : BuildTrigger) : Except CiConfigError BuildConfig :=
  okOr (config.builds.find? fun b => b.trigger = trigger) (.noMatchingBuild trigger.text)

def getTaskConfigs (config : CiConfig) (build : BuildConfig) : List TaskConfig :=
  config.tasks.filter fun t => t.name ∈ build.tasks

end CiConfig

/-- The names a task waits for. -/
def TaskConfig.deps (task : TaskConfig) : List String := task.waitsFor.getD []

/-! ### The checks -/

/-- The elements that a hash set has seen before, when it is given the list. -/
def repeated {α : Type} [DecidableEq α] (seen : List α) : List α → List α
  | [] => []
  | a :: l => if a ∈ seen then a :: repeated seen l else repeated (a :: seen) l

/-- `char::is_whitespace`. -/
def isWhitespace (c : Char) : Bool :=
  let n := c.toNat
  (9 ≤ n && n ≤ 13) || n == 0x20 || n == 0x85 || n == 0xA0 || n == 0x1680 ||
    (0x2000 ≤ n && n ≤ 0x200A) || n == 0x2028 || n == 0x2029 || n == 0x202F || n == 0x205F ||
    n == 0x3000

/-- `str::trim`. -/
def trim (s : List Char) : List Char := (s.dropWhile isWhitespace).rdropWhile isWhitespace

section Checks

variable (config : CiConfig)

def checkNonEmpty : List String :=
  (if config.builds.isEmpty then ["builds cannot be empty"] else []) ++
    if config.tasks.isEmpty then ["tasks cannot be empty"] else []

def checkDuplicateTaskNames : List String :=
  (repeated [] config.names).map fun name => s!"duplicate task name '{name}'"

def checkDuplicateBuildTriggers : List String :=
  (repeated [] (config.builds.map fun b => b.trigger.text)).map fun trigger =>
    s!"duplicate build trigger '{trigger}'"

def checkEmptyBuildTaskLists : List String :=
  (config.builds.zipIdx.filter fun x => x.1.tasks.isEmpty).map fun x =>
    s!"builds[{x.2}] has an empty task list"

def checkEmptyCommands : List String :=
  (config.tasks.filter fun t => (trim t.command.toList).isEmpty).map fun t =>
    s!"task '{t.name}' has an empty command"

def checkTaskReferences : List String :=
  config.builds.zipIdx.flatMap fun x =>
    (x.1.tasks.filter fun task => task ∉ config.names).map fun task =>
      s!"builds[{x.2}] references unknown task '{task}'"

def checkDuplicateTaskRefsInBuild : List String :=
  config.builds.zipIdx.flatMap fun x =>
    (repeated [] x.1.tasks).map fun task => s!"builds[{x.2}] lists task '{task}' more than once"

def checkNoOrphanedTasks : List String :=
  (config.tasks.filter fun t => t.name ∉ config.builds.flatMap BuildConfig.tasks).map fun t =>
    s!"task '{t.name}' is not referenced by any build"

def checkWaitsForUnknownTasks : List String :=
  config.tasks.flatMap fun task =>
    (task.deps.filter fun dep => dep ∉ config.names).map fun dep =>
      s!"task '{task.name}' waits_for unknown task '{dep}'"

/-- The map `adj` of `check_dag`: the tasks that wait for a task, once for each
time they say so. -/
def adj (node : String) : List String :=
  if node ∈ config.names then
    config.tasks.flatMap fun task => (task.deps.filter (· = node)).map fun _ => task.name
  else []

/-- An order in which `adj` yields its keys. -/
abbrev KeyOrder : Type := {keys : List String // keys.Perm config.names.dedup}

variable {config} in
theorem KeyOrder.mem (order : KeyOrder config) {name : String} :
    name ∈ order.val ↔ name ∈ config.names := by
  rw [order.property.mem_iff, List.mem_dedup]

variable {config} in
theorem mem_adj {node name : String} :
    name ∈ adj config node ↔
      node ∈ config.names ∧ ∃ task ∈ config.tasks, node ∈ task.deps ∧ task.name = name := by
  unfold adj
  split_ifs with hnode
  · simp only [List.mem_flatMap, List.mem_map, List.mem_filter, decide_eq_true_eq, hnode, true_and]
    constructor
    · rintro ⟨task, htask, dep, ⟨hdep, rfl⟩, rfl⟩
      exact ⟨task, htask, hdep, rfl⟩
    · rintro ⟨task, htask, hdep, rfl⟩
      exact ⟨task, htask, node, ⟨hdep, rfl⟩, rfl⟩
  · simp [hnode]

/-- The search of `check_dag` comes to an end. -/
theorem exists_dagSearch (order : KeyOrder config) :
    (Dfs.search (adj config) order.val.length order.val (Dfs.init order.val)).isSome := by
  refine Option.isSome_iff_exists.mpr (Dfs.exists_search fun x y hy => ?_)
  obtain ⟨-, task, htask, -, rfl⟩ := mem_adj.mp hy
  exact order.mem.mpr (List.mem_map_of_mem htask)

def checkDag (order : KeyOrder config) : List String :=
  ((Dfs.search (adj config) order.val.length order.val (Dfs.init order.val)).get
    (exists_dagSearch config order)).cycles.map fun cycle =>
      "cyclical dependency detected: " ++ String.intercalate " -> " cycle

def validateCiConfig (order : KeyOrder config) : Except CiConfigError Unit :=
  let errors := checkNonEmpty config ++ checkDuplicateTaskNames config ++
    checkDuplicateBuildTriggers config ++ checkEmptyBuildTaskLists config ++
    checkEmptyCommands config ++ checkTaskReferences config ++
    checkDuplicateTaskRefsInBuild config ++ checkNoOrphanedTasks config ++
    checkWaitsForUnknownTasks config ++ checkDag config order
  if errors.isEmpty then .ok () else .error (.validation errors)

end Checks

/-- How configs are read: the TOML library, with the text of its errors, and
the order in which a hash map over the tasks of a config yields its keys. -/
structure Reader where
  fromStr : String → Except String CiConfig
  order : (config : CiConfig) → KeyOrder config

def CiConfig.new (reader : Reader) (toml : String) : Except CiConfigError CiConfig := do
  let config ← (reader.fromStr toml).mapError .parse
  validateCiConfig config (reader.order config)
  return config

/-! ### Accepted configs -/

/-- What validation ensures of the builds of a config. -/
structure Accepted (config : CiConfig) : Prop where
  names : config.names.Nodup
  nonempty : ∀ b ∈ config.builds, b.tasks ≠ []
  listed : ∀ b ∈ config.builds, ∀ name ∈ b.tasks, name ∈ config.names
  known : ∀ t ∈ config.tasks, ∀ dep ∈ t.deps, dep ∈ config.names
  acyclic : WellFounded fun dep name => ∃ t ∈ config.tasks, dep ∈ t.deps ∧ t.name = name

theorem repeated_eq_nil {α : Type} [DecidableEq α] {seen l : List α} (h : repeated seen l = []) :
    l.Nodup ∧ ∀ a ∈ l, a ∉ seen := by
  induction l generalizing seen with
  | nil => exact ⟨.nil, fun _ ha => absurd ha List.not_mem_nil⟩
  | cons a l ih =>
    unfold repeated at h
    split_ifs at h with ha
    obtain ⟨hnodup, hfresh⟩ := ih h
    refine ⟨List.nodup_cons.mpr ⟨fun hmem => hfresh a hmem List.mem_cons_self, hnodup⟩, ?_⟩
    intro b hb hseen
    rcases List.mem_cons.mp hb with rfl | hb
    · exact ha hseen
    · exact hfresh b hb (List.mem_cons_of_mem _ hseen)

theorem validate_ok {config : CiConfig} {order : KeyOrder config}
    (h : validateCiConfig config order = .ok ()) :
    checkDuplicateTaskNames config = [] ∧ checkEmptyBuildTaskLists config = [] ∧
      checkTaskReferences config = [] ∧ checkWaitsForUnknownTasks config = [] ∧
      checkDag config order = [] := by
  unfold validateCiConfig at h
  dsimp only at h
  split_ifs at h with hempty
  simp only [List.isEmpty_iff, List.append_eq_nil_iff] at hempty
  obtain ⟨⟨⟨⟨⟨⟨⟨⟨⟨-, hnames⟩, -⟩, hlists⟩, -⟩, hrefs⟩, -⟩, -⟩, hwaits⟩, hdag⟩ := hempty
  exact ⟨hnames, hlists, hrefs, hwaits, hdag⟩

/-- **Validation.** -/
theorem accepted_of_validate {config : CiConfig} {order : KeyOrder config}
    (h : validateCiConfig config order = .ok ()) : Accepted config := by
  obtain ⟨hnames, hlists, hrefs, hwaits, hdag⟩ := validate_ok h
  have hknown : ∀ t ∈ config.tasks, ∀ dep ∈ t.deps, dep ∈ config.names := by
    intro t ht dep hdep
    simp only [checkWaitsForUnknownTasks, List.flatMap_eq_nil_iff, List.map_eq_nil_iff,
      List.filter_eq_nil_iff] at hwaits
    simpa using hwaits t ht dep hdep
  refine ⟨?_, ?_, ?_, hknown, ?_⟩
  · simp only [checkDuplicateTaskNames, List.map_eq_nil_iff] at hnames
    exact (repeated_eq_nil hnames).1
  · intro b hb hnil
    obtain ⟨i, hi⟩ := List.getElem?_of_mem hb
    simp only [checkEmptyBuildTaskLists, List.map_eq_nil_iff, List.filter_eq_nil_iff] at hlists
    exact hlists (b, i) (List.mk_mem_zipIdx_iff_getElem?.mpr hi) (by simp [hnil])
  · intro b hb name hname
    obtain ⟨i, hi⟩ := List.getElem?_of_mem hb
    simp only [checkTaskReferences, List.flatMap_eq_nil_iff, List.map_eq_nil_iff,
      List.filter_eq_nil_iff] at hrefs
    simpa using hrefs (b, i) (List.mk_mem_zipIdx_iff_getElem?.mpr hi) name hname
  · have hsearch := (Option.some_get (exists_dagSearch config order)).symm
    simp only [checkDag, List.map_eq_nil_iff] at hdag
    have hadj : ∀ x, ∀ y ∈ adj config x, x ∈ order.val ∧ y ∈ order.val := by
      intro x y hy
      obtain ⟨hx, task, htask, -, rfl⟩ := mem_adj.mp hy
      exact ⟨order.mem.mpr hx, order.mem.mpr (List.mem_map_of_mem htask)⟩
    refine Subrelation.wf ?_ (Dfs.search_wellFounded hadj hsearch hdag)
    rintro dep name ⟨task, htask, hdep, rfl⟩
    exact mem_adj.mpr ⟨hknown task htask dep hdep, task, htask, hdep, rfl⟩

/-- What `CiConfig::new` returns has been accepted. -/
theorem CiConfig.new_ok {reader : Reader} {toml : String} {config : CiConfig} :
    CiConfig.new reader toml = .ok config ↔
      reader.fromStr toml = .ok config ∧ validateCiConfig config (reader.order config) = .ok () := by
  unfold CiConfig.new
  simp only [bind_eq_ok, mapError_eq_ok]
  constructor
  · rintro ⟨_, hread, _, hvalid, h⟩
    cases h
    exact ⟨hread, hvalid⟩
  · rintro ⟨hread, hvalid⟩
    exact ⟨config, hread, (), hvalid, rfl⟩

end Ci
end Gitdot
