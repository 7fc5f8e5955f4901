/-
# The cycle check

`check_dag` with all that the source does: the map of neighbors is built task
by task, the position of a gray node on the path is unwrapped and the colors
are indexed, so that a run of it can also panic (`Stop`). It never does: the
gray nodes are those of the path, so it does what the search of `Lib.Dfs`
does, in whichever order the map yields its keys (`dfs_eq`, `dagSearch_eq`).

What it returns is empty exactly if no task waits for itself through others,
and what it names are cycles (`checkDag_exact`).

Key definitions: `buildAdj`, `dfs`, `dagSearch`, `WaitsFor`, `NamesCycle`.
Key theorems: `buildAdj_eq`, `dfs_eq`, `checkDag_exact`.
-/
import Gitdot.Ci.Config

namespace Gitdot
namespace Ci

open Lib

/-! ### The source -/

/-- Why a run of `check_dag` does not end well: it goes deeper than its fuel, it
unwraps the position of a node that is not on the path, or it indexes the
colors with a node that has none. -/
inductive Stop where
  | fuel
  | unwrap
  | index
  deriving DecidableEq

abbrev AdjMap : Type := String → Option (List String)

/-- `adj.entry(key).or_default()`. -/
def AdjMap.orDefault (adj : AdjMap) (key : String) : AdjMap :=
  Function.update adj key (some ((adj key).getD []))

/-- `adj.entry(key).or_default().push(name)`. -/
def AdjMap.push (adj : AdjMap) (key name : String) : AdjMap :=
  Function.update adj key (some ((adj key).getD [] ++ [name]))

/-- What the loop does for the tasks `waits_for` names. -/
def addDeps (defined : List String) (name : String) (adj : AdjMap) (deps : List String) : AdjMap :=
  deps.foldl (fun adj dep => if dep ∈ defined then adj.push dep name else adj) adj

def addTask (defined : List String) (adj : AdjMap) (task : TaskConfig) : AdjMap :=
  addDeps defined task.name (adj.orDefault task.name) task.deps

def buildAdj (config : CiConfig) : AdjMap :=
  config.tasks.foldl (addTask config.names) fun _ => none

/-- What `dfs` does with a neighbor. -/
def neighbor (dfs : String → Dfs.Search String → Except Stop (Dfs.Search String))
    (s : Dfs.Search String) (next : String) : Except Stop (Dfs.Search String) :=
  match s.color next with
  | some .gray => do
    let cycleStart ← okOr (s.path.findIdx? (· = next)) .unwrap
    return { s with cycles := s.cycles ++ [s.path.drop cycleStart ++ [next]] }
  | some .white => dfs next s
  | _ => .ok s

def dfs (adj : AdjMap) : ℕ → String → Dfs.Search String → Except Stop (Dfs.Search String)
  | 0, _, _ => .error .fuel
  | fuel + 1, node, s => do
    let s ← ((adj node).getD []).foldlM (neighbor (dfs adj fuel)) (s.enter node)
    return s.leave node

/-- The loop over `nodes`, with the levels of `dfs` that it has fuel for. -/
def dagSearch (adj : AdjMap) (fuel : ℕ) (nodes : List String) (s : Dfs.Search String) :
    Except Stop (Dfs.Search String) :=
  nodes.foldlM (fun s node => do
    let c ← okOr (s.color node) .index
    if c = .white then dfs adj fuel node s else return s) s

def cycleError (cycle : List String) : String :=
  "cyclical dependency detected: " ++ String.intercalate " -> " cycle

/-- `check_dag`, where the map yields its keys in the order `nodes`. -/
def checkDagRun (config : CiConfig) (fuel : ℕ) (nodes : List String) : Except Stop (List String) := do
  let s ← dagSearch (buildAdj config) fuel nodes (Dfs.init nodes)
  return s.cycles.map cycleError

/-! ### The map -/

section Map

variable {defined : List String} {adj : AdjMap} {name : String}

/-- How the dependencies of one task grow the list of a node. -/
theorem addDeps_apply (defined : List String) (name : String) (adj : AdjMap) (deps : List String)
    (node : String) :
    ((addDeps defined name adj deps) node).getD [] =
        (adj node).getD [] ++
          (if node ∈ defined then (deps.filter (· = node)).map fun _ => name else []) ∧
      (((addDeps defined name adj deps) node).isSome ↔
        (adj node).isSome ∨ node ∈ defined ∧ node ∈ deps) := by
  induction deps generalizing adj with
  | nil => simp [addDeps]
  | cons dep deps ih =>
    obtain ⟨hlist, hkey⟩ := ih (if dep ∈ defined then adj.push dep name else adj)
    have hfold : addDeps defined name adj (dep :: deps) =
        addDeps defined name (if dep ∈ defined then adj.push dep name else adj) deps := rfl
    rw [hfold, hlist, hkey]
    by_cases hdep : dep = node
    · subst hdep
      by_cases hdefined : dep ∈ defined <;> simp [hdefined, AdjMap.push]
    · have hpush : (if dep ∈ defined then adj.push dep name else adj) node = adj node := by
        split_ifs
        · exact Function.update_of_ne (fun h => hdep h.symm) _ _
        · rfl
      have hne : node ≠ dep := fun h => hdep h.symm
      rw [hpush]
      simp [hdep, hne]

/-- How one task does. -/
theorem addTask_apply (defined : List String) (adj : AdjMap) (task : TaskConfig) (node : String) :
    ((addTask defined adj task) node).getD [] =
        (adj node).getD [] ++
          (if node ∈ defined then (task.deps.filter (· = node)).map fun _ => task.name else []) ∧
      (((addTask defined adj task) node).isSome ↔
        (adj node).isSome ∨ node = task.name ∨ node ∈ defined ∧ node ∈ task.deps) := by
  obtain ⟨hlist, hkey⟩ := addDeps_apply defined task.name (adj.orDefault task.name) task.deps node
  unfold addTask
  rw [hlist, hkey]
  by_cases hnode : node = task.name
  · subst hnode
    simp [AdjMap.orDefault]
  · have horDefault : adj.orDefault task.name node = adj node :=
      Function.update_of_ne hnode _ _
    rw [horDefault]
    simp [hnode]

theorem foldl_addTask_apply (defined : List String) (tasks : List TaskConfig) (adj : AdjMap)
    (node : String) :
    ((tasks.foldl (addTask defined) adj) node).getD [] =
        (adj node).getD [] ++
          (if node ∈ defined then
            tasks.flatMap fun task => (task.deps.filter (· = node)).map fun _ => task.name
          else []) ∧
      (((tasks.foldl (addTask defined) adj) node).isSome ↔
        (adj node).isSome ∨ (∃ task ∈ tasks, node = task.name) ∨
          node ∈ defined ∧ ∃ task ∈ tasks, node ∈ task.deps) := by
  induction tasks generalizing adj with
  | nil => simp
  | cons task tasks ih =>
    obtain ⟨hlist, hkey⟩ := ih (addTask defined adj task)
    obtain ⟨hlist', hkey'⟩ := addTask_apply defined adj task node
    rw [List.foldl_cons, hlist, hkey, hlist', hkey']
    constructor
    · split_ifs <;> simp
    · simp only [List.mem_cons, exists_eq_or_imp, and_or_left, or_assoc, or_left_comm]

/-- The keys of the map are the names of the tasks. -/
theorem isSome_buildAdj (config : CiConfig) (node : String) :
    (buildAdj config node).isSome ↔ node ∈ config.names := by
  have hkey := (foldl_addTask_apply config.names config.tasks (fun _ => none) node).2
  refine hkey.trans ?_
  simp only [CiConfig.names, List.mem_map, Option.isSome_none, Bool.false_eq_true, false_or]
  constructor
  · rintro (⟨task, htask, rfl⟩ | ⟨hmem, -⟩)
    · exact ⟨task, htask, rfl⟩
    · exact hmem
  · rintro ⟨task, htask, rfl⟩
    exact .inl ⟨task, htask, rfl⟩

/-- Its lists are those of `adj`. -/
theorem getD_buildAdj (config : CiConfig) (node : String) :
    (buildAdj config node).getD [] = Ci.adj config node := by
  have hlist := (foldl_addTask_apply config.names config.tasks (fun _ => none) node).1
  refine hlist.trans ?_
  simp [Ci.adj]

theorem buildAdj_eq (config : CiConfig) (node : String) :
    buildAdj config node = if node ∈ config.names then some (Ci.adj config node) else none := by
  have hkey := isSome_buildAdj config node
  have hlist := getD_buildAdj config node
  split_ifs with hmem
  · obtain ⟨l, hl⟩ := Option.isSome_iff_exists.mp (hkey.mpr hmem)
    rw [hl] at hlist ⊢
    exact congrArg some hlist
  · exact Option.not_isSome_iff_eq_none.mp fun h => hmem (hkey.mp h)

end Map

/-! ### The search -/

section Search

variable {config : CiConfig} {s s' : Dfs.Search String} {node next : String}

/-- The position of a node of the path is where the path from it on begins. -/
theorem drop_findIdx? {path : List String} (h : next ∈ path) :
    ∃ start, path.findIdx? (· = next) = some start ∧
      path.drop start = path.dropWhile fun n => decide (n ≠ next) := by
  induction path with
  | nil => cases h
  | cons n path ih =>
    by_cases hn : n = next
    · subst hn
      exact ⟨0, by simp [List.findIdx?_cons], by simp⟩
    · have hmem : next ∈ path := (List.mem_cons.mp h).resolve_left fun h => hn h.symm
      obtain ⟨start, hstart, hdrop⟩ := ih hmem
      refine ⟨start + 1, by simp [List.findIdx?_cons, hn, hstart], ?_⟩
      rw [List.drop_succ_cons, hdrop, List.dropWhile_cons_of_pos (by simpa using hn)]

/-- A visit by `dfs` and one by the search: they do the same wherever the search
is live, and it stays so. -/
def SameVisit (config : CiConfig) (dfs : String → Dfs.Search String → Except Stop (Dfs.Search String))
    (visit : String → Dfs.Search String → Option (Dfs.Search String)) : Prop :=
  ∀ node s, Dfs.Live (adj config) s → Dfs.Closed (adj config) s → s.color node = some .white →
    Dfs.Leads (adj config) s node →
    dfs node s = okOr (visit node s) .fuel ∧
      ∀ s', visit node s = some s' → Dfs.Live (adj config) s'

theorem neighbor_eq {dfs : String → Dfs.Search String → Except Stop (Dfs.Search String)}
    {visit : String → Dfs.Search String → Option (Dfs.Search String)}
    (hsame : SameVisit config dfs visit) (hs : Dfs.Live (adj config) s)
    (hclosed : Dfs.Closed (adj config) s) (hleads : Dfs.Leads (adj config) s next) :
    neighbor dfs s next = okOr (Dfs.follow visit s next) .fuel ∧
      ∀ s', Dfs.follow visit s next = some s' → Dfs.Live (adj config) s' := by
  unfold neighbor Dfs.follow
  rcases hc : s.color next with _ | c
  · refine ⟨rfl, fun s' h => ?_⟩
    obtain rfl := Option.some.inj h
    exact hs
  cases c with
  | white => exact hsame next s hs hclosed hc hleads
  | gray =>
    -- the unwrap: a gray node is on the path
    obtain ⟨start, hstart, hdrop⟩ := drop_findIdx? ((hs.gray next).mp hc)
    refine ⟨?_, fun s' h => ?_⟩
    · rw [hstart]
      simp only [okOr, bind, Except.bind, pure, Except.pure, hdrop, Dfs.Search.close]
    · obtain rfl := Option.some.inj h
      exact hs.close hc hleads
  | black =>
    refine ⟨rfl, fun s' h => ?_⟩
    obtain rfl := Option.some.inj h
    exact hs

/-- The neighbors of a node, one after the other. -/
theorem foldlM_neighbor {dfs : String → Dfs.Search String → Except Stop (Dfs.Search String)}
    {visit : String → Dfs.Search String → Option (Dfs.Search String)}
    (hsame : SameVisit config dfs visit) (hblackens : Dfs.Blackens (adj config) visit)
    {ys : List String} (hs : Dfs.Live (adj config) s) (hclosed : Dfs.Closed (adj config) s)
    (hkeys : ∀ y ∈ ys, s.color y ≠ none) (hleads : ∀ y ∈ ys, Dfs.Leads (adj config) s y) :
    ys.foldlM (neighbor dfs) s = okOr (ys.foldlM (Dfs.follow visit) s) .fuel ∧
      ∀ s', ys.foldlM (Dfs.follow visit) s = some s' → Dfs.Live (adj config) s' := by
  induction ys generalizing s with
  | nil =>
    refine ⟨rfl, fun s' h => ?_⟩
    obtain rfl : s = s' := by simpa using h
    exact hs
  | cons y ys ih =>
    obtain ⟨hedge, hlive⟩ := neighbor_eq hsame hs hclosed (hleads y List.mem_cons_self)
    rw [List.foldlM_cons, List.foldlM_cons, hedge]
    rcases ht : Dfs.follow visit s y with _ | t
    · exact ⟨rfl, fun s' h => by cases h⟩
    · have hvisited := (Dfs.follow_visited hblackens hclosed (hkeys y List.mem_cons_self) ht).1
      exact ih (hlive t ht) (hvisited.closed hclosed)
        (fun z hz hnone => hkeys z (List.mem_cons_of_mem _ hz) ((hvisited.keys z).mp hnone))
        fun z hz => (hleads z (List.mem_cons_of_mem _ hz)).of_visited hvisited

/-- **A visit.** `dfs` never unwraps what is not there. -/
theorem dfs_eq : ∀ fuel : ℕ, SameVisit config (dfs (buildAdj config) fuel) (Dfs.visit (adj config) fuel)
  | 0, _, _, _, _, _, _ => ⟨rfl, fun _ h => by cases h⟩
  | fuel + 1, node, s, hs, hclosed, hwhite, hleads => by
    have henter := hclosed.enter node
    obtain ⟨hsame, hlive⟩ := foldlM_neighbor (dfs_eq fuel) (Dfs.visit_visited fuel)
      (hs.enter hwhite hleads) henter (fun y hy => henter node y hy) fun y hy => Dfs.leads_enter hy
    unfold dfs Dfs.visit
    rw [getD_buildAdj, hsame]
    rcases ht : (adj config node).foldlM (Dfs.follow (Dfs.visit (adj config) fuel)) (s.enter node)
      with _ | t
    · exact ⟨rfl, fun s' h => by cases h⟩
    · refine ⟨rfl, fun s' h => ?_⟩
      obtain rfl := Option.some.inj h
      have hvisit : Dfs.visit (adj config) (fuel + 1) node s = some (t.leave node) := by
        rw [Dfs.visit, ht]
        rfl
      exact hs.of_visited (Dfs.visit_visited (fuel + 1) node s _ hclosed hwhite hvisit).1
        (hlive t ht).cycles

/-- The loop: where it visits, the path is empty. -/
theorem dagSearch_eq (fuel : ℕ) {nodes : List String} (hs : Dfs.Live (adj config) s)
    (hclosed : Dfs.Closed (adj config) s) (hkeys : ∀ x ∈ nodes, s.color x ≠ none)
    (hpath : s.path = []) :
    dagSearch (buildAdj config) fuel nodes s = okOr (Dfs.search (adj config) fuel nodes s) .fuel ∧
      ∀ s', Dfs.search (adj config) fuel nodes s = some s' → Dfs.Live (adj config) s' := by
  induction nodes generalizing s with
  | nil =>
    refine ⟨rfl, fun s' h => ?_⟩
    obtain rfl : s = s' := by simpa [Dfs.search] using h
    exact hs
  | cons node nodes ih =>
    have hrest : ∀ t, Dfs.Visited (adj config) s t → Dfs.Live (adj config) t →
        dagSearch (buildAdj config) fuel nodes t = okOr (Dfs.search (adj config) fuel nodes t) .fuel ∧
          ∀ s', Dfs.search (adj config) fuel nodes t = some s' → Dfs.Live (adj config) s' :=
      fun t hvisited hlive => ih hlive (hvisited.closed hclosed)
        (fun x hx hnone => hkeys x (List.mem_cons_of_mem _ hx) ((hvisited.keys x).mp hnone))
        (hvisited.path.trans hpath)
    obtain ⟨c, hc⟩ := Option.ne_none_iff_exists'.mp (hkeys node List.mem_cons_self)
    unfold dagSearch Dfs.search at hrest ⊢
    rw [List.foldlM_cons, List.foldlM_cons, hc]
    by_cases hwhite : c = .white
    · subst hwhite
      have hleads : Dfs.Leads (adj config) s node := fun last hlast => by simp [hpath] at hlast
      obtain ⟨hsame, hlive⟩ := dfs_eq fuel node s hs hclosed hc hleads
      simp only [okOr, bind, Except.bind, if_true, hsame, Option.bind]
      rcases ht : Dfs.visit (adj config) fuel node s with _ | t
      · exact ⟨rfl, fun s' h => by cases h⟩
      · exact hrest t (Dfs.visit_visited fuel node s t hclosed hc ht).1 (hlive t ht)
    · have hne : some c ≠ some Dfs.Color.white := fun h => hwhite (Option.some.inj h)
      simp only [okOr, bind, Except.bind, if_neg hwhite, if_neg hne, Option.bind]
      exact hrest s (.refl s) hs

end Search

/-! ### Cycles -/

section Exact

variable (config : CiConfig)

/-- A task waits for one that is defined. -/
def WaitsFor (task dep : String) : Prop :=
  ∃ t ∈ config.tasks, t.name = task ∧ dep ∈ t.deps ∧ dep ∈ config.names

/-- What an error names: a way around a cycle, read from the task that waits
last, on which no task but the first comes twice. -/
def NamesCycle (cycle : List String) : Prop :=
  ∃ first rest, cycle = first :: rest ++ [first] ∧ (first :: rest).Nodup ∧
    cycle.reverse.IsChain (WaitsFor config)

variable {config}

theorem mem_adj_iff {task dep : String} : task ∈ adj config dep ↔ WaitsFor config task dep := by
  rw [mem_adj]
  constructor
  · rintro ⟨hdep, t, ht, hmem, rfl⟩
    exact ⟨t, ht, rfl, hmem, hdep⟩
  · rintro ⟨t, ht, rfl, hmem, hdep⟩
    exact ⟨hdep, t, ht, hmem, rfl⟩

theorem namesCycle_of_cycle {cycle : List String} (h : Dfs.Cycle (adj config) cycle) :
    NamesCycle config cycle := by
  obtain ⟨hwalk, hclosed, hedges, hsimple⟩ := h
  cases cycle with
  | nil => simp at hedges
  | cons first tail =>
    have hne : tail ≠ [] := by
      rintro rfl
      simp at hedges
    have hlast : tail.getLast hne = first := by
      rw [List.head?_cons, List.getLast?_cons_of_ne_nil hne, List.getLast?_eq_some_getLast hne] at hclosed
      exact (Option.some.inj hclosed).symm
    have htail : tail = tail.dropLast ++ [first] := by
      rw [← hlast, List.dropLast_append_getLast hne]
    refine ⟨first, tail.dropLast, congrArg (first :: ·) htail, ?_, ?_⟩
    · rw [List.tail_cons, htail] at hsimple
      exact (List.perm_append_singleton first _).nodup_iff.mp hsimple
    · rw [List.isChain_reverse]
      exact hwalk.imp fun dep task => mem_adj_iff.mp

theorem adj_keys (order : KeyOrder config) : ∀ x, ∀ y ∈ adj config x, y ∈ order.val := by
  intro x y hy
  obtain ⟨-, task, htask, -, rfl⟩ := mem_adj.mp hy
  exact order.mem.mpr (List.mem_map_of_mem htask)

/-- What a run searches, it searches without a panic, and what it records are
cycles. -/
theorem exists_dagSearch_live (order : KeyOrder config) :
    ∃ s, Dfs.search (adj config) order.val.length order.val (Dfs.init order.val) = some s ∧
      Dfs.Live (adj config) s ∧
      ∀ extra, dagSearch (buildAdj config) (order.val.length + extra) order.val
        (Dfs.init order.val) = .ok s := by
  have hkeys : ∀ x ∈ order.val, (Dfs.init order.val).color x ≠ none := fun x hx => by
    simp [Dfs.init, hx]
  have hrun := fun fuel => dagSearch_eq fuel (Dfs.Live.init order.val)
    (Dfs.closed_init (adj_keys order)) hkeys rfl
  obtain ⟨s, hsearch⟩ := Dfs.exists_search (adj_keys order)
  refine ⟨s, hsearch, (hrun _).2 s hsearch, fun extra => ?_⟩
  rw [(hrun _).1, Dfs.search_add extra hsearch]
  rfl

/-- **The cycle check.** In whichever order the map yields its keys, `check_dag`
comes to an end without a panic, once it can go as deep as there are names.
It returns no error exactly if no task waits for itself through others, and
each error names a cycle. -/
theorem checkDag_exact (config : CiConfig) (order : KeyOrder config) :
    (∀ extra, checkDagRun config (order.val.length + extra) order.val =
        .ok (checkDag config order)) ∧
      (checkDag config order = [] ↔ ¬ ∃ task, Relation.TransGen (WaitsFor config) task task) ∧
      ∀ error ∈ checkDag config order,
        ∃ cycle, error = cycleError cycle ∧ NamesCycle config cycle := by
  obtain ⟨s, hsearch, hlive, hrun⟩ := exists_dagSearch_live order
  have herrors : checkDag config order = s.cycles.map cycleError := by
    unfold checkDag
    rw [Option.get_of_eq_some _ hsearch]
    rfl
  rw [herrors]
  refine ⟨fun extra => ?_, ?_, ?_⟩
  · unfold checkDagRun
    rw [hrun]
    rfl
  · rw [List.map_eq_nil_iff]
    constructor
    · rintro hnone ⟨task, hcycle⟩
      have hacc := Dfs.search_acc (adj_keys order) hsearch hnone
      have hnext : Relation.TransGen (Dfs.Next (adj config)) task task :=
        Relation.TransGen.mono (fun x y hxy => mem_adj_iff.mpr hxy) _ _ hcycle
      exact hacc.transGen.irrefl.irrefl task hnext
    · intro hacyclic
      rw [List.eq_nil_iff_forall_not_mem]
      intro cycle hmem
      obtain ⟨task, hcycle⟩ := (hlive.cycles cycle hmem).transGen
      refine hacyclic ⟨task, Relation.transGen_swap.mp ?_⟩
      exact Relation.TransGen.mono (fun x y hy => mem_adj_iff.mp hy) _ _ hcycle
  · intro error herror
    obtain ⟨cycle, hmem, rfl⟩ := List.mem_map.mp herror
    exact ⟨cycle, rfl, namesCycle_of_cycle (hlive.cycles cycle hmem)⟩

/-- A task that waits for itself. -/
example : checkDagRun ⟨[⟨.pullRequest, ["a"]⟩], [⟨"a", "echo a", some ["a"]⟩]⟩ 1 ["a"] =
    .ok ["cyclical dependency detected: a -> a"] := rfl

end Exact

end Ci
end Gitdot
