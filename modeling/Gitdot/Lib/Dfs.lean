/-
# Depth-first search for cycles

A graph is given by the list of successors of each node. The search paints
nodes: white ones are yet to be visited, gray ones are on the path to where
it is, black ones are done. An edge to a gray node closes a cycle, which it
records; a white node it visits, and a black one it leaves.

If a search records no cycle, each node that is black at its end can only be
followed finitely far (`Settled`), so a search over all nodes that records
none shows that the graph has no cycle (`search_acc`, `search_wellFounded`).
What a search records is a `Cycle` of the graph as long as it is `Live`: the
gray nodes are those of the path. `visit` takes fuel, one unit a level, and as
many as there are white nodes are enough (`exists_visit`, `exists_search`).

Key definitions: `Color`, `Search`, `visit`, `search`, `Visited`, `Cycle`,
`Live`.
Key theorems: `visit_visited`, `exists_visit`, `exists_search`,
`search_wellFounded`, `Live.enter`, `Live.close`.
-/
import Mathlib.Data.List.Basic
import Mathlib.Logic.Function.Basic
import Mathlib.Order.WellFoundedSet
import Mathlib.Tactic.Common

namespace Lib
namespace Dfs

inductive Color where
  | white
  | gray
  | black
  deriving DecidableEq

/-- The state of a search: the colors, the path to where it is, and the
cycles found. -/
structure Search (V : Type) where
  color : V → Option Color
  path : List V
  cycles : List (List V)

section Search

variable {V : Type} [DecidableEq V]

def Search.paint (s : Search V) (node : V) (c : Color) : Search V :=
  { s with color := Function.update s.color node (some c) }

/-- A visit starts: the node is on the path. -/
def Search.enter (s : Search V) (node : V) : Search V :=
  { s.paint node .gray with path := s.path ++ [node] }

/-- A visit ends: the node is done. -/
def Search.leave (s : Search V) (node : V) : Search V :=
  { s.paint node .black with path := s.path.dropLast }

/-- The cycle that an edge to `next` closes: the path from `next` on, and `next`
again. -/
def Search.close (s : Search V) (next : V) : Search V :=
  { s with cycles := s.cycles ++ [s.path.dropWhile (fun n => decide (n ≠ next)) ++ [next]] }

theorem color_enter (s : Search V) (node x : V) :
    (s.enter node).color x = if x = node then some .gray else s.color x := by
  simp [Search.enter, Search.paint, Function.update_apply]

theorem color_leave (s : Search V) (node x : V) :
    (s.leave node).color x = if x = node then some .black else s.color x := by
  simp [Search.leave, Search.paint, Function.update_apply]

variable (adj : V → List V)

/-- What the search does with an edge to `next`. -/
def follow (visit : V → Search V → Option (Search V)) (s : Search V) (next : V) :
    Option (Search V) :=
  match s.color next with
  | some .gray => some (s.close next)
  | some .white => visit next s
  | _ => some s

/-- A visit of a node, at most `fuel` levels deep. -/
def visit : ℕ → V → Search V → Option (Search V)
  | 0, _, _ => none
  | fuel + 1, node, s =>
    ((adj node).foldlM (follow (visit fuel)) (s.enter node)).map fun s => s.leave node

/-- The search from each of the nodes that is still white. -/
def search (fuel : ℕ) (nodes : List V) (s : Search V) : Option (Search V) :=
  nodes.foldlM (fun s node => if s.color node = some .white then visit adj fuel node s else some s) s

end Search

/-! ### What a visit does -/

section Visited

variable {V : Type} (adj : V → List V)

/-- `y` succeeds `x`: the order in which a search is founded. -/
def Next (y x : V) : Prop := y ∈ adj x

/-- From a black node the graph can only be followed finitely far. -/
def Settled (s : Search V) : Prop := ∀ x, s.color x = some .black → Acc (Next adj) x

/-- The edges lead to nodes that the search knows. -/
def Closed (s : Search V) : Prop := ∀ x, ∀ y ∈ adj x, s.color y ≠ none

/-- A search went from `s` to `s'`: the path is where it was, cycles were only
added, and so were black nodes, and if none was found what is black is
settled. -/
structure Visited (s s' : Search V) : Prop where
  path : s'.path = s.path
  cycles : s.cycles <+: s'.cycles
  keys : ∀ x, s'.color x = none ↔ s.color x = none
  gray : ∀ x, s'.color x = some .gray ↔ s.color x = some .gray
  black : ∀ x, s.color x = some .black → s'.color x = some .black
  settled : s'.cycles = [] → Settled adj s → Settled adj s'

variable {adj} {s s' s'' : Search V} {node : V}

theorem Visited.refl (s : Search V) : Visited adj s s where
  path := rfl
  cycles := List.prefix_refl _
  keys _ := Iff.rfl
  gray _ := Iff.rfl
  black _ h := h
  settled _ h := h

theorem Visited.trans (h : Visited adj s s') (h' : Visited adj s' s'') : Visited adj s s'' where
  path := h'.path.trans h.path
  cycles := h.cycles.trans h'.cycles
  keys x := (h'.keys x).trans (h.keys x)
  gray x := (h'.gray x).trans (h.gray x)
  black x hx := h'.black x (h.black x hx)
  settled hnone hs := by
    have hnone' : s'.cycles = [] := List.prefix_nil.mp (hnone ▸ h'.cycles)
    exact h'.settled hnone (h.settled hnone' hs)

/-- What is white after a search was white before. -/
theorem Visited.white (h : Visited adj s s') {x : V} (hx : s'.color x = some .white) :
    s.color x = some .white := by
  rcases hc : s.color x with _ | c
  · have := (h.keys x).mpr hc
    simp [this] at hx
  · cases c with
    | white => rfl
    | gray =>
      have := (h.gray x).mpr hc
      simp [this] at hx
    | black =>
      have := h.black x hc
      simp [this] at hx

theorem Visited.closed (h : Visited adj s s') (hs : Closed adj s) : Closed adj s' :=
  fun x y hy hnone => hs x y hy ((h.keys y).mp hnone)

end Visited

/-! ### Visits -/

section Visit

variable {V : Type} [DecidableEq V] {adj : V → List V} {s s' : Search V} {node : V}

/-- An edge that closes a cycle changes nothing else. -/
theorem visited_close (s : Search V) (next : V) : Visited adj s (s.close next) where
  path := rfl
  cycles := List.prefix_append _ _
  keys _ := Iff.rfl
  gray _ := Iff.rfl
  black _ h := h
  settled hnone := by simp [Search.close] at hnone

/-- What `visit` does, of a visit of a white node. -/
def Blackens (adj : V → List V) (visit : V → Search V → Option (Search V)) : Prop :=
  ∀ node s s', Closed adj s → s.color node = some .white → visit node s = some s' →
    Visited adj s s' ∧ s'.color node = some .black

/-- An edge leads to a black node, unless it closes a cycle. -/
theorem follow_visited {visit : V → Search V → Option (Search V)} (hvisit : Blackens adj visit)
    {next : V} (hs : Closed adj s) (hkey : s.color next ≠ none) (h : follow visit s next = some s') :
    Visited adj s s' ∧ (s'.cycles = [] → s'.color next = some .black) := by
  unfold follow at h
  split at h
  · obtain rfl := Option.some.inj h
    exact ⟨visited_close s next, fun hnone => by simp [Search.close] at hnone⟩
  · next hwhite =>
    obtain ⟨hvisited, hblack⟩ := hvisit next s s' hs hwhite h
    exact ⟨hvisited, fun _ => hblack⟩
  · next hgray hwhite =>
    obtain rfl := Option.some.inj h
    refine ⟨.refl s, fun _ => ?_⟩
    rcases hc : s.color next with _ | c
    · exact absurd hc hkey
    · cases c with
      | white => exact absurd hc hwhite
      | gray => exact absurd hc hgray
      | black => rfl

/-- The edges out of a node all lead to black nodes, unless one closes a
cycle. -/
theorem foldlM_follow {visit : V → Search V → Option (Search V)} (hvisit : Blackens adj visit)
    {ys : List V} (hs : Closed adj s) (hkeys : ∀ y ∈ ys, s.color y ≠ none)
    (h : ys.foldlM (follow visit) s = some s') :
    Visited adj s s' ∧ (s'.cycles = [] → ∀ y ∈ ys, s'.color y = some .black) := by
  induction ys generalizing s with
  | nil =>
    obtain rfl : s = s' := by simpa using h
    exact ⟨.refl s, fun _ _ hy => absurd hy List.not_mem_nil⟩
  | cons y ys ih =>
    simp only [List.foldlM_cons, Option.bind_eq_bind, Option.bind_eq_some_iff] at h
    obtain ⟨t, hedge, hrest⟩ := h
    obtain ⟨hy, hblack⟩ := follow_visited hvisit hs (hkeys y List.mem_cons_self) hedge
    have hkeys' : ∀ z ∈ ys, t.color z ≠ none := fun z hz hnone =>
      hkeys z (List.mem_cons_of_mem _ hz) ((hy.keys z).mp hnone)
    obtain ⟨hys, hblacks⟩ := ih (hy.closed hs) hkeys' hrest
    refine ⟨hy.trans hys, fun hnone z hz => ?_⟩
    rcases List.mem_cons.mp hz with rfl | hz
    · have hnone' : t.cycles = [] := List.prefix_nil.mp (hnone ▸ hys.cycles)
      exact hys.black z (hblack hnone')
    · exact hblacks hnone z hz

/-- A visit, given what the edges out of its node did. -/
theorem visited_leave {t : Search V} (hwhite : s.color node = some .white)
    (hedges : Visited adj (s.enter node) t)
    (hblack : t.cycles = [] → ∀ y ∈ adj node, t.color y = some .black) :
    Visited adj s (t.leave node) where
  path := by
    show t.path.dropLast = s.path
    rw [hedges.path]
    exact List.dropLast_concat
  cycles := hedges.cycles
  keys x := by
    rw [color_leave]
    split_ifs with hx
    · simp [hx, hwhite]
    · rw [hedges.keys, color_enter, if_neg hx]
  gray x := by
    rw [color_leave]
    split_ifs with hx
    · simp [hx, hwhite]
    · rw [hedges.gray, color_enter, if_neg hx]
  black x hx := by
    rw [color_leave]
    split_ifs with hxn
    · rfl
    · exact hedges.black x (by rw [color_enter, if_neg hxn, hx])
  settled hnone hs := by
    have hnone : t.cycles = [] := hnone
    have henter : Settled adj (s.enter node) := by
      intro x hx
      rw [color_enter] at hx
      split_ifs at hx
      · cases hx
      · exact hs x hx
    have ht : Settled adj t := hedges.settled hnone henter
    intro x hx
    rw [color_leave] at hx
    split_ifs at hx with hxn
    · subst hxn
      exact .intro x fun y hy => ht y (hblack hnone y hy)
    · exact ht x hx

theorem Closed.enter (hs : Closed adj s) (node : V) : Closed adj (s.enter node) := by
  intro x y hy
  rw [color_enter]
  split_ifs
  · simp
  · exact hs x y hy

/-- **Visits.** A visit of a white node leaves it black. -/
theorem visit_visited : ∀ fuel : ℕ, Blackens adj (visit adj fuel)
  | 0, _, _, _, _, _, h => by cases h
  | fuel + 1, node, s, s', hs, hwhite, h => by
    obtain ⟨t, hedges, rfl⟩ := Option.map_eq_some_iff.mp h
    have henter := hs.enter node
    obtain ⟨hvisited, hblack⟩ :=
      foldlM_follow (visit_visited fuel) henter (fun y hy => henter node y hy) hedges
    refine ⟨visited_leave hwhite hvisited hblack, ?_⟩
    rw [color_leave, if_pos rfl]

/-! ### Enough fuel -/

/-- More fuel does not change what the edges out of a node do. -/
theorem foldlM_follow_mono {visit visit' : V → Search V → Option (Search V)}
    (hvisit : ∀ node s s', visit node s = some s' → visit' node s = some s') {ys : List V}
    (h : ys.foldlM (follow visit) s = some s') : ys.foldlM (follow visit') s = some s' := by
  induction ys generalizing s with
  | nil => exact h
  | cons y ys ih =>
    simp only [List.foldlM_cons, Option.bind_eq_bind, Option.bind_eq_some_iff] at h ⊢
    obtain ⟨t, hedge, hrest⟩ := h
    refine ⟨t, ?_, ih hrest⟩
    unfold follow at hedge ⊢
    split at hedge
    · exact hedge
    · exact hvisit y s t hedge
    · exact hedge

theorem visit_succ : ∀ (fuel : ℕ) (node : V) (s s' : Search V), visit adj fuel node s = some s' →
    visit adj (fuel + 1) node s = some s'
  | 0, _, _, _, h => by cases h
  | fuel + 1, node, s, s', h => by
    obtain ⟨t, hedges, rfl⟩ := Option.map_eq_some_iff.mp h
    exact Option.map_eq_some_iff.mpr ⟨t, foldlM_follow_mono (visit_succ fuel) hedges, rfl⟩

/-- Nor what a visit does. -/
theorem visit_add {fuel : ℕ} (extra : ℕ) (h : visit adj fuel node s = some s') :
    visit adj (fuel + extra) node s = some s' := by
  induction extra with
  | zero => exact h
  | succ extra ih => exact visit_succ _ _ _ _ ih

/-- How many of the nodes are white. -/
def whites (nodes : List V) (s : Search V) : ℕ := nodes.countP fun n => s.color n = some .white

omit [DecidableEq V] in
theorem whites_le {nodes : List V} (h : ∀ x, s'.color x = some .white → s.color x = some .white) :
    whites nodes s' ≤ whites nodes s :=
  List.countP_mono_left fun x _ hx => by
    simp only [decide_eq_true_eq] at hx ⊢
    exact h x hx

theorem white_enter {x : V} (hx : (s.enter node).color x = some .white) :
    x ≠ node ∧ s.color x = some .white := by
  rw [color_enter] at hx
  split_ifs at hx with hxn
  · cases hx
  · exact ⟨hxn, hx⟩

/-- Entering a white node leaves fewer. -/
theorem whites_enter {nodes : List V} (hmem : node ∈ nodes) (hwhite : s.color node = some .white) :
    whites nodes (s.enter node) < whites nodes s := by
  obtain ⟨before, after, rfl⟩ := List.append_of_mem hmem
  have hbefore : whites before (s.enter node) ≤ whites before s :=
    whites_le fun x hx => (white_enter hx).2
  have hafter : whites after (s.enter node) ≤ whites after s :=
    whites_le fun x hx => (white_enter hx).2
  have hgray : (s.enter node).color node ≠ some .white := fun h => (white_enter h).1 rfl
  unfold whites at hbefore hafter ⊢
  simp only [List.countP_append, List.countP_cons, hwhite, hgray, decide_true, decide_false,
    if_true, Bool.false_eq_true, if_false]
  omega

/-- The edges out of a node, with fuel for the visits of what is white. -/
theorem exists_foldlM_follow {visit : V → Search V → Option (Search V)} {nodes : List V} {fuel : ℕ}
    (hblackens : Blackens adj visit)
    (hvisit : ∀ node s, Closed adj s → (∀ x, s.color x = some .white → x ∈ nodes) →
      s.color node = some .white → whites nodes s ≤ fuel → ∃ s', visit node s = some s')
    {ys : List V} (hs : Closed adj s) (hnodes : ∀ x, s.color x = some .white → x ∈ nodes)
    (hkeys : ∀ y ∈ ys, s.color y ≠ none) (hfuel : whites nodes s ≤ fuel) :
    ∃ s', ys.foldlM (follow visit) s = some s' := by
  induction ys generalizing s with
  | nil => exact ⟨s, rfl⟩
  | cons y ys ih =>
    have hedge : ∃ t, follow visit s y = some t := by
      unfold follow
      split
      · exact ⟨_, rfl⟩
      · next hwhite => exact hvisit y s hs hnodes hwhite hfuel
      · exact ⟨_, rfl⟩
    obtain ⟨t, hedge⟩ := hedge
    have ht := (follow_visited hblackens hs (hkeys y List.mem_cons_self) hedge).1
    obtain ⟨s', hrest⟩ := ih (ht.closed hs) (fun x hx => hnodes x (ht.white hx))
      (fun z hz hnone => hkeys z (List.mem_cons_of_mem _ hz) ((ht.keys z).mp hnone))
      (Nat.le_trans (whites_le fun x => ht.white) hfuel)
    exact ⟨s', by rw [List.foldlM_cons, hedge]; exact hrest⟩

theorem exists_visit {nodes : List V} : ∀ (fuel : ℕ) (node : V) (s : Search V), Closed adj s →
    (∀ x, s.color x = some .white → x ∈ nodes) → s.color node = some .white →
    whites nodes s ≤ fuel → ∃ s', visit adj fuel node s = some s'
  | 0, node, s, _, hnodes, hwhite, hfuel => by
    have hlt := whites_enter (hnodes node hwhite) hwhite
    omega
  | fuel + 1, node, s, hs, hnodes, hwhite, hfuel => by
    have hlt := whites_enter (hnodes node hwhite) hwhite
    have henter := hs.enter node
    obtain ⟨t, ht⟩ := exists_foldlM_follow (visit_visited fuel)
      (exists_visit fuel) henter (fun x hx => hnodes x (white_enter hx).2)
      (fun y hy => henter node y hy) (by omega)
    exact ⟨t.leave node, by rw [visit, ht]; rfl⟩

/-! ### Searches -/

/-- What a search from some nodes does when nothing is gray: they all end
black. -/
theorem search_visited {fuel : ℕ} {nodes : List V} (hs : Closed adj s)
    (hgray : ∀ x, s.color x ≠ some .gray) (hkeys : ∀ x ∈ nodes, s.color x ≠ none)
    (h : search adj fuel nodes s = some s') :
    Visited adj s s' ∧ ∀ x ∈ nodes, s'.color x = some .black := by
  induction nodes generalizing s with
  | nil =>
    obtain rfl : s = s' := by simpa [search] using h
    exact ⟨.refl s, fun _ hx => absurd hx List.not_mem_nil⟩
  | cons node nodes ih =>
    simp only [search, List.foldlM_cons, Option.bind_eq_bind, Option.bind_eq_some_iff] at h
    obtain ⟨t, hnode, hrest⟩ := h
    have ht : Visited adj s t ∧ t.color node = some .black := by
      split_ifs at hnode with hwhite
      · exact visit_visited fuel node s t hs hwhite hnode
      · obtain rfl := Option.some.inj hnode
        refine ⟨.refl s, ?_⟩
        rcases hc : s.color node with _ | c
        · exact absurd hc (hkeys node List.mem_cons_self)
        · cases c with
          | white => exact absurd hc hwhite
          | gray => exact absurd hc (hgray node)
          | black => rfl
    obtain ⟨hvisited, hblack⟩ := ih (ht.1.closed hs) (fun x hx => hgray x ((ht.1.gray x).mp hx))
      (fun x hx hnone => hkeys x (List.mem_cons_of_mem _ hx) ((ht.1.keys x).mp hnone)) hrest
    refine ⟨ht.1.trans hvisited, fun x hx => ?_⟩
    rcases List.mem_cons.mp hx with rfl | hx
    · exact hvisited.black x ht.2
    · exact hblack x hx

/-- Where a search starts: the nodes are white. -/
def init (nodes : List V) : Search V where
  color x := if x ∈ nodes then some .white else none
  path := []
  cycles := []

theorem closed_init {nodes : List V} (hadj : ∀ x, ∀ y ∈ adj x, y ∈ nodes) :
    Closed adj (init nodes) := by
  intro x y hy
  simp [init, hadj x y hy]

theorem gray_init (nodes : List V) (x : V) : (init nodes).color x ≠ some .gray := by
  unfold init
  dsimp only
  split_ifs <;> simp

/-- **No cycle found, none there.** If the search over the nodes of a graph
records no cycle, the graph can only be followed finitely far. -/
theorem search_acc {fuel : ℕ} {nodes : List V} (hadj : ∀ x, ∀ y ∈ adj x, y ∈ nodes)
    (h : search adj fuel nodes (init nodes) = some s') (hnone : s'.cycles = []) :
    WellFounded (Next adj) := by
  have hkeys : ∀ x ∈ nodes, (init nodes).color x ≠ none := fun x hx => by simp [init, hx]
  obtain ⟨hvisited, hblack⟩ := search_visited (closed_init hadj) (gray_init nodes) hkeys h
  have hinit : Settled adj (init nodes) := by
    intro x hx
    unfold init at hx
    dsimp only at hx
    split_ifs at hx
    cases hx
  have hsettled : Settled adj s' := hvisited.settled hnone hinit
  exact ⟨fun x => .intro x fun y hy => hsettled y (hblack y (hadj x y hy))⟩

/-- With fuel for the white nodes a search comes to an end. -/
theorem exists_search_of_whites {fuel : ℕ} {all nodes : List V} (hs : Closed adj s)
    (hall : ∀ x, s.color x = some .white → x ∈ all) (hfuel : whites all s ≤ fuel) :
    ∃ s', search adj fuel nodes s = some s' := by
  induction nodes generalizing s with
  | nil => exact ⟨s, rfl⟩
  | cons node nodes ih =>
    have hnode : ∃ t, (if s.color node = some .white then visit adj fuel node s else some s) = some t ∧
        Visited adj s t := by
      split_ifs with hwhite
      · obtain ⟨t, ht⟩ := exists_visit fuel node s hs hall hwhite hfuel
        exact ⟨t, ht, (visit_visited fuel node s t hs hwhite ht).1⟩
      · exact ⟨s, rfl, .refl s⟩
    obtain ⟨t, hnode, ht⟩ := hnode
    obtain ⟨s', hrest⟩ := ih (ht.closed hs) (fun x hx => hall x (ht.white hx))
      (Nat.le_trans (whites_le fun x => ht.white) hfuel)
    exact ⟨s', by unfold search at hrest ⊢; rw [List.foldlM_cons, hnode]; exact hrest⟩

/-- Nor does more fuel change a search. -/
theorem search_add {fuel : ℕ} {nodes : List V} (extra : ℕ) (h : search adj fuel nodes s = some s') :
    search adj (fuel + extra) nodes s = some s' := by
  induction nodes generalizing s with
  | nil => exact h
  | cons node nodes ih =>
    simp only [search, List.foldlM_cons, Option.bind_eq_bind, Option.bind_eq_some_iff] at h ⊢
    obtain ⟨t, hnode, hrest⟩ := h
    refine ⟨t, ?_, ih hrest⟩
    split_ifs at hnode ⊢ with hwhite
    · exact visit_add extra hnode
    · exact hnode

/-- Fuel for every node is enough. -/
theorem exists_search {nodes : List V} (hadj : ∀ x, ∀ y ∈ adj x, y ∈ nodes) :
    ∃ s', search adj nodes.length nodes (init nodes) = some s' := by
  have hall : ∀ x, (init nodes).color x = some .white → x ∈ nodes := by
    intro x hx
    unfold init at hx
    dsimp only at hx
    split_ifs at hx with hmem
    exact hmem
  exact exists_search_of_whites (closed_init hadj) hall List.countP_le_length

end Visit

/-- A relation between finitely many things that is founded is founded the
other way round. -/
theorem wellFounded_swap {V : Type} {r : V → V → Prop} {nodes : List V} (hr : WellFounded r)
    (hmem : ∀ x y, r y x → x ∈ nodes ∧ y ∈ nodes) : WellFounded fun x y => r y x := by
  have hirrefl : ∀ x, ¬ Relation.TransGen r x x := fun x h =>
    hr.transGen.irrefl.irrefl x h
  have hstrict : IsStrictOrder V fun x y => Relation.TransGen r y x :=
    { irrefl := hirrefl, trans := fun _ _ _ hxy hyz => hyz.trans hxy }
  have hon := (List.finite_toSet nodes).wellFoundedOn (r := fun x y => Relation.TransGen r y x)
  refine Subrelation.wf ?_ (Set.wellFoundedOn_iff.mp hon)
  intro x y hxy
  exact ⟨.single hxy, hmem x y hxy⟩

/-- If the search records no cycle, what leads to a node can only be followed
back finitely far. -/
theorem search_wellFounded {V : Type} [DecidableEq V] {adj : V → List V} {fuel : ℕ} {nodes : List V}
    {s : Search V} (hadj : ∀ x, ∀ y ∈ adj x, x ∈ nodes ∧ y ∈ nodes)
    (h : search adj fuel nodes (init nodes) = some s) (hnone : s.cycles = []) :
    WellFounded fun x y => y ∈ adj x :=
  wellFounded_swap (search_acc (fun x y hy => (hadj x y hy).2) h hnone) fun x y => hadj x y

/-! ### What is recorded -/

section Recorded

variable {V : Type} (adj : V → List V)

/-- A way around a cycle, back to where it began, along which each node
succeeds the one before it and none but the first comes twice. -/
structure Cycle (c : List V) : Prop where
  walk : c.IsChain fun x y => y ∈ adj x
  closed : c.head? = c.getLast?
  edges : 2 ≤ c.length
  simple : c.tail.Nodup

/-- What holds wherever a search is: the gray nodes are those of the path, which
follows the edges and meets no node twice, and what was recorded are cycles. -/
structure Live (s : Search V) : Prop where
  gray : ∀ x, s.color x = some .gray ↔ x ∈ s.path
  walk : s.path.IsChain fun x y => y ∈ adj x
  nodup : s.path.Nodup
  cycles : ∀ c ∈ s.cycles, Cycle adj c

/-- An edge leads from where the search is to `next`. -/
def Leads (s : Search V) (next : V) : Prop := ∀ last ∈ s.path.getLast?, next ∈ adj last

variable {adj} {s s' : Search V} {node next : V}

/-- A cycle leads from a node back to it. -/
theorem Cycle.transGen {c : List V} (h : Cycle adj c) :
    ∃ x, Relation.TransGen (fun x y => y ∈ adj x) x x := by
  obtain ⟨hwalk, hclosed, hedges, -⟩ := h
  cases c with
  | nil => simp at hedges
  | cons x l =>
    cases l with
    | nil => simp at hedges
    | cons y l =>
      have hxy := (List.isChain_cons_cons.mp hwalk).1
      have hrest := (List.isChain_cons_cons.mp hwalk).2
      have hlast : (y :: l).getLast (List.cons_ne_nil y l) = x := by
        rw [List.head?_cons, List.getLast?_cons_cons,
          List.getLast?_eq_some_getLast (List.cons_ne_nil y l)] at hclosed
        exact (Option.some.inj hclosed).symm
      have hback := List.relationReflTransGen_of_exists_isChain _ hrest (List.cons_ne_nil y l)
      rw [List.head_cons, hlast] at hback
      exact ⟨x, Relation.TransGen.head' hxy hback⟩

/-- What a search does keeps it live, if all that it recorded are cycles. -/
theorem Live.of_visited (hs : Live adj s) (h : Visited adj s s')
    (hcycles : ∀ c ∈ s'.cycles, Cycle adj c) : Live adj s' where
  gray x := by rw [h.gray, h.path, hs.gray]
  walk := h.path ▸ hs.walk
  nodup := h.path ▸ hs.nodup
  cycles := hcycles

theorem Leads.of_visited (h : Visited adj s s') (hs : Leads adj s next) : Leads adj s' next := by
  unfold Leads
  rw [h.path]
  exact hs

variable [DecidableEq V]

theorem Live.init (nodes : List V) : Live adj (init nodes) where
  gray x := by simp [Dfs.init]
  walk := List.isChain_nil
  nodup := List.nodup_nil
  cycles _ h := absurd h List.not_mem_nil

/-- A white node is entered along an edge. -/
theorem Live.enter (hs : Live adj s) (hwhite : s.color node = some .white)
    (hedge : Leads adj s node) : Live adj (s.enter node) where
  gray x := by
    rw [color_enter]
    split_ifs with hx
    · simp [Search.enter, Search.paint, hx]
    · rw [hs.gray]
      simp [Search.enter, Search.paint, hx]
  walk := hs.walk.append (List.isChain_singleton node) fun x hx y hy => by
    obtain rfl : node = y := by simpa using hy
    exact hedge x hx
  nodup := by
    have hnew : node ∉ s.path := fun hmem => by
      have hgray := (hs.gray node).mpr hmem
      rw [hwhite] at hgray
      cases hgray
    show (s.path ++ [node]).Nodup
    rw [← List.concat_eq_append]
    exact hs.nodup.concat hnew
  cycles := hs.cycles

/-- All edges of the node entered lead on. -/
theorem leads_enter {s : Search V} (hnext : next ∈ adj node) : Leads adj (s.enter node) next := by
  intro last hlast
  obtain rfl : node = last := by simpa [Search.enter, Search.paint] using hlast
  exact hnext

/-- The path from a node of it on. -/
theorem exists_dropWhile {l : List V} (h : next ∈ l) :
    ∃ before after, l = before ++ next :: after ∧
      l.dropWhile (fun n => decide (n ≠ next)) = next :: after := by
  induction l with
  | nil => cases h
  | cons a l ih =>
    by_cases ha : a = next
    · subst ha
      exact ⟨[], l, rfl, by simp⟩
    · have hmem : next ∈ l := (List.mem_cons.mp h).resolve_left fun h => ha h.symm
      obtain ⟨before, after, hl, hdrop⟩ := ih hmem
      refine ⟨a :: before, after, by rw [hl]; rfl, ?_⟩
      rw [List.dropWhile_cons_of_pos (by simpa using ha)]
      exact hdrop

/-- An edge back to a node of the path closes a cycle. -/
theorem Live.close (hs : Live adj s) (hgray : s.color next = some .gray)
    (hedge : Leads adj s next) : Live adj (s.close next) where
  gray := hs.gray
  walk := hs.walk
  nodup := hs.nodup
  cycles c hc := by
    rcases List.mem_append.mp hc with hc | hc
    · exact hs.cycles c hc
    obtain rfl := List.mem_singleton.mp hc
    obtain ⟨before, after, hpath, hdrop⟩ := exists_dropWhile ((hs.gray next).mp hgray)
    rw [hdrop]
    have hsuffix : (next :: after) <:+ s.path := ⟨before, hpath.symm⟩
    have hlast : (next :: after).getLast? = s.path.getLast? := by
      rw [hpath, List.getLast?_append_of_ne_nil _ (List.cons_ne_nil next after)]
    have hnodup : (next :: after).Nodup := hs.nodup.sublist hsuffix.sublist
    refine ⟨?_, ?_, ?_, ?_⟩
    · refine (hs.walk.suffix hsuffix).append (List.isChain_singleton next) fun x hx y hy => ?_
      obtain rfl : next = y := by simpa using hy
      exact hedge x (hlast ▸ hx)
    · rw [List.getLast?_concat]
      rfl
    · simp
    · rw [List.cons_append, List.tail_cons, ← List.concat_eq_append]
      exact (List.nodup_cons.mp hnodup).2.concat (List.nodup_cons.mp hnodup).1

end Recorded

end Dfs
end Lib
