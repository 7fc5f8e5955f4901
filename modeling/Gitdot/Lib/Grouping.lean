/-
# Groups of a list by key, split one level at a time

`groupAt` puts the elements of a list into groups by their key, in the order in
which the keys first occur, as a map does that keeps insertion order. Elements
have a key at every depth, and where their keys agree at some depths they agree
at every depth above both (`Hierarchy`): the directories of a file, the
prefixes of a word.

A list of groups is a partition if its groups hold the elements, each group has
the key of its members, and any two groups lie apart at the coarser of their
depths (`IsPartition`). Splitting one group a level deeper keeps a partition
(`IsPartition.split`), whichever group is taken, so a run of splits does
(`IsPartition.run`). The groups of a partition have different keys
(`IsPartition.keys_nodup`), although they were formed at different depths. Each
split of a group with an element left below it takes up some of the depth that
is left (`work_split_lt`), so a run of such splits ends.

Key definitions: `Group`, `groupAt`, `Hierarchy`, `IsPartition`, `Splits`,
`work`.
Key theorems: `isPartition_groupAt`, `IsPartition.split`, `IsPartition.run`,
`IsPartition.keys_nodup`, `work_split_lt`.
-/
import Mathlib.Algebra.Order.BigOperators.Group.List
import Mathlib.Algebra.Order.Group.Nat
import Mathlib.Algebra.Ring.Nat
import Mathlib.Data.List.Perm.Basic
import Mathlib.Logic.Relation
import Mathlib.Tactic.Common

namespace Lib
namespace Grouping

variable {κ α : Type}

/-- The elements of one key at one depth. -/
structure Group (κ α : Type) where
  key : κ
  depth : ℕ
  members : List α
  deriving DecidableEq

/-- All that is in the groups. -/
def held (gs : List (Group κ α)) : List α := gs.flatMap Group.members

@[simp]
theorem held_cons (g : Group κ α) (gs : List (Group κ α)) :
    held (g :: gs) = g.members ++ held gs := rfl

@[simp]
theorem held_append (gs hs : List (Group κ α)) : held (gs ++ hs) = held gs ++ held hs :=
  List.flatMap_append

theorem held_perm {gs hs : List (Group κ α)} (h : gs.Perm hs) : (held gs).Perm (held hs) :=
  h.flatMap fun _ _ => List.Perm.refl _

/-! ### Partitions -/

/-- Keys at every depth, coarser the smaller the depth is. -/
structure Hierarchy (κ α : Type) where
  key : ℕ → α → κ
  coarser : ∀ {d e c : ℕ} {x y : α}, c ≤ d → c ≤ e → key d x = key e y → key c x = key c y

variable (H : Hierarchy κ α)

/-- No member of one group has the key of a member of the other, at the
coarser of the two depths. -/
def Apart (g h : Group κ α) : Prop :=
  ∀ x ∈ g.members, ∀ y ∈ h.members, H.key (min g.depth h.depth) x ≠ H.key (min g.depth h.depth) y

theorem Apart.symm {g h : Group κ α} (a : Apart H g h) : Apart H h g := by
  intro x hx y hy
  rw [Nat.min_comm]
  exact (a y hy x hx).symm

/-- A group has members, with its key at its depth. -/
def WellKeyed (g : Group κ α) : Prop := g.members ≠ [] ∧ ∀ x ∈ g.members, H.key g.depth x = g.key

/-- The groups hold the elements of `xs`, each once, and lie apart. -/
structure IsPartition (xs : List α) (gs : List (Group κ α)) : Prop where
  held : (held gs).Perm xs
  keyed : ∀ g ∈ gs, WellKeyed H g
  apart : gs.Pairwise (Apart H)

variable {H}

/-- Elements whose keys agree where their groups were formed are not apart. -/
theorem Apart.key_ne {g h : Group κ α} (a : Apart H g h) (hg : WellKeyed H g) (hh : WellKeyed H h) :
    g.key ≠ h.key := by
  obtain ⟨x, hx⟩ := List.exists_mem_of_ne_nil _ hg.1
  obtain ⟨y, hy⟩ := List.exists_mem_of_ne_nil _ hh.1
  intro heq
  have hkeys : H.key g.depth x = H.key h.depth y := by rw [hg.2 x hx, hh.2 y hy, heq]
  exact a x hx y hy (H.coarser (Nat.min_le_left _ _) (Nat.min_le_right _ _) hkeys)

/-- **The groups of a partition have different keys**, whatever their depths. -/
theorem IsPartition.keys_nodup {xs : List α} {gs : List (Group κ α)} (h : IsPartition H xs gs) :
    (gs.map Group.key).Nodup := by
  rw [List.Nodup, List.pairwise_map]
  exact h.apart.imp_of_mem fun hg hh a => a.key_ne (h.keyed _ hg) (h.keyed _ hh)

/-- What is apart from a group is apart from the groups that it is split in. -/
theorem Apart.split {g h s : Group κ α} (a : Apart H h g) (hs : s.members ⊆ g.members)
    (hd : g.depth ≤ s.depth) : Apart H h s := by
  intro x hx y hy heq
  have hmin : min h.depth g.depth ≤ min h.depth s.depth := by omega
  exact a x hx y (hs hy) (H.coarser hmin hmin heq)

theorem IsPartition.perm {xs : List α} {gs hs : List (Group κ α)} (h : IsPartition H xs gs)
    (p : gs.Perm hs) : IsPartition H xs hs where
  held := (held_perm p).symm.trans h.held
  keyed g hg := h.keyed g (p.mem_iff.mpr hg)
  apart := (p.pairwise_iff fun a => a.symm).mp h.apart

/-- The depth that is left below the groups, for elements of these heights. -/
def work (height : α → ℕ) (gs : List (Group κ α)) : ℕ :=
  (gs.map fun g => (g.members.map fun x => height x - g.depth).sum).sum

theorem work_perm (height : α → ℕ) {gs hs : List (Group κ α)} (p : gs.Perm hs) :
    work height gs = work height hs := (p.map _).sum_eq

theorem work_append (height : α → ℕ) (gs hs : List (Group κ α)) :
    work height (gs ++ hs) = work height gs + work height hs := by simp [work]

/-! ### Groups at one depth -/

variable [DecidableEq κ]

/-- `x` joins the group of its key, or starts one behind the others. -/
def insert (key : α → κ) (depth : ℕ) (x : α) : List (Group κ α) → List (Group κ α)
  | [] => [⟨key x, depth, [x]⟩]
  | g :: gs =>
    if g.key = key x then { g with members := g.members ++ [x] } :: gs
    else g :: insert key depth x gs

/-- The groups of a list at one depth. -/
def groupAt (key : α → κ) (depth : ℕ) (xs : List α) : List (Group κ α) :=
  xs.foldl (fun gs x => insert key depth x gs) []

/-- The groups of `xs` by `key`, at `depth`. -/
structure IsGrouping (key : α → κ) (depth : ℕ) (xs : List α) (gs : List (Group κ α)) : Prop where
  held : (held gs).Perm xs
  keys : (gs.map Group.key).Nodup
  members : ∀ g ∈ gs, g.members ≠ [] ∧ g.depth = depth ∧ ∀ x ∈ g.members, key x = g.key

theorem held_insert (key : α → κ) (depth : ℕ) (x : α) :
    ∀ gs : List (Group κ α), (held (insert key depth x gs)).Perm (held gs ++ [x])
  | [] => List.Perm.refl _
  | g :: gs => by
    unfold insert
    split
    · simp only [held_cons, List.append_assoc]
      exact List.perm_append_comm.append_left _
    · simp only [held_cons, List.append_assoc]
      exact (held_insert key depth x gs).append_left _

theorem keys_insert (key : α → κ) (depth : ℕ) (x : α) :
    ∀ gs : List (Group κ α), (insert key depth x gs).map Group.key =
      if key x ∈ gs.map Group.key then gs.map Group.key else gs.map Group.key ++ [key x]
  | [] => rfl
  | g :: gs => by
    unfold insert
    by_cases hg : g.key = key x
    · simp [hg]
    · rw [if_neg hg, List.map_cons, keys_insert key depth x gs]
      by_cases hx : key x ∈ gs.map Group.key
      · have hin : key x ∈ (g :: gs).map Group.key := List.mem_cons_of_mem _ hx
        rw [if_pos hx, if_pos hin, List.map_cons]
      · have hnot : key x ∉ (g :: gs).map Group.key := by
          simpa [Ne.symm hg] using hx
        rw [if_neg hx, if_neg hnot, List.map_cons, List.cons_append]

theorem mem_insert {key : α → κ} {depth : ℕ} {x : α} {g : Group κ α} :
    ∀ {gs : List (Group κ α)}, g ∈ insert key depth x gs → g ∈ gs ∨ g = ⟨key x, depth, [x]⟩ ∨
      ∃ g' ∈ gs, g'.key = key x ∧ g = { g' with members := g'.members ++ [x] }
  | [], h => .inr (.inl (List.mem_singleton.mp h))
  | g' :: gs, h => by
    unfold insert at h
    split at h
    case isTrue hkey =>
      rcases List.mem_cons.mp h with rfl | h
      · exact .inr (.inr ⟨g', List.mem_cons_self, hkey, rfl⟩)
      · exact .inl (List.mem_cons_of_mem _ h)
    case isFalse =>
      rcases List.mem_cons.mp h with rfl | h
      · exact .inl List.mem_cons_self
      · rcases mem_insert h with h | h | ⟨g₀, h₀, hkey, rfl⟩
        · exact .inl (List.mem_cons_of_mem _ h)
        · exact .inr (.inl h)
        · exact .inr (.inr ⟨g₀, List.mem_cons_of_mem _ h₀, hkey, rfl⟩)

theorem IsGrouping.insert {key : α → κ} {depth : ℕ} {xs : List α} {gs : List (Group κ α)}
    (h : IsGrouping key depth xs gs) (x : α) :
    IsGrouping key depth (xs ++ [x]) (insert key depth x gs) where
  held := (held_insert key depth x gs).trans (h.held.append_right _)
  keys := by
    rw [keys_insert]
    split
    · exact h.keys
    · next hx => exact List.nodup_append.mpr ⟨h.keys, by simp, by grind⟩
  members g hg := by
    rcases mem_insert hg with hg | rfl | ⟨g', hg', hkey, rfl⟩
    · exact h.members g hg
    · simp
    · obtain ⟨-, hdepth, hkeys⟩ := h.members g' hg'
      refine ⟨by simp, hdepth, fun y hy => ?_⟩
      rcases List.mem_append.mp hy with hy | hy
      · exact hkeys y hy
      · rw [List.mem_singleton.mp hy, hkey]

theorem isGrouping_groupAt (key : α → κ) (depth : ℕ) (xs : List α) :
    IsGrouping key depth xs (groupAt key depth xs) := by
  suffices h : ∀ (ys done : List α) (gs : List (Group κ α)), IsGrouping key depth done gs →
      IsGrouping key depth (done ++ ys) (ys.foldl (fun gs x => Grouping.insert key depth x gs) gs) by
    exact h xs [] [] ⟨List.Perm.refl _, List.nodup_nil, by simp⟩
  intro ys
  induction ys with
  | nil => intro done gs h; simpa using h
  | cons y ys ih =>
    intro done gs h
    simpa using ih (done ++ [y]) _ (h.insert y)

theorem isPartition_groupAt (depth : ℕ) (xs : List α) :
    IsPartition H xs (groupAt (H.key depth) depth xs) := by
  have h := isGrouping_groupAt (H.key depth) depth xs
  refine ⟨h.held, fun g hg => ?_, ?_⟩
  · obtain ⟨hne, rfl, hkeys⟩ := h.members g hg
    exact ⟨hne, hkeys⟩
  · have hkeys := h.keys
    rw [List.Nodup, List.pairwise_map] at hkeys
    refine hkeys.imp_of_mem fun {g g'} hg hg' hne x hx y hy => ?_
    obtain ⟨-, hd, hg⟩ := h.members g hg
    obtain ⟨-, hd', hg'⟩ := h.members g' hg'
    rw [hd, hd', Nat.min_self, hg x hx, hg' y hy]
    exact hne

/-! ### Splits -/

/-- **A group may be split a level deeper.** -/
theorem IsPartition.split {xs : List α} {g : Group κ α} {rest : List (Group κ α)}
    (h : IsPartition H xs (g :: rest)) :
    IsPartition H xs (rest ++ groupAt (H.key (g.depth + 1)) (g.depth + 1) g.members) := by
  have hsub := isPartition_groupAt (H := H) (g.depth + 1) g.members
  have hone := isGrouping_groupAt (H.key (g.depth + 1)) (g.depth + 1) g.members
  refine ⟨?_, fun s hs => ?_, ?_⟩
  · rw [held_append]
    exact ((hsub.held.append_left _).trans List.perm_append_comm).trans h.held
  · rcases List.mem_append.mp hs with hs | hs
    · exact h.keyed s (List.mem_cons_of_mem _ hs)
    · exact hsub.keyed s hs
  · obtain ⟨hg, hrest⟩ := List.pairwise_cons.mp h.apart
    refine List.pairwise_append.mpr ⟨hrest, hsub.apart, fun r hr s hs => ?_⟩
    refine (hg r hr).symm.split (fun x hx => ?_) ?_
    · exact hsub.held.mem_iff.mp (List.mem_flatMap.mpr ⟨s, hs, hx⟩)
    · rw [(hone.members s hs).2.1]
      exact Nat.le_succ _

variable (H) in
/-- One group is split a level deeper, its parts behind the others. -/
inductive Splits : List (Group κ α) → List (Group κ α) → Prop where
  | split {gs rest : List (Group κ α)} {g : Group κ α} (p : gs.Perm (g :: rest)) :
      Splits gs (rest ++ groupAt (H.key (g.depth + 1)) (g.depth + 1) g.members)

theorem IsPartition.step {xs : List α} {gs hs : List (Group κ α)} (h : IsPartition H xs gs)
    (s : Splits H gs hs) : IsPartition H xs hs := by
  cases s with
  | split p => exact (h.perm p).split

/-- Any run of splits keeps a partition. -/
theorem IsPartition.run {xs : List α} {gs hs : List (Group κ α)} (h : IsPartition H xs gs)
    (run : Relation.ReflTransGen (Splits H) gs hs) : IsPartition H xs hs := by
  induction run with
  | refl => exact h
  | tail _ s ih => exact ih.step s

/-! ### Splitting ends -/

theorem work_groupAt (height : α → ℕ) (key : α → κ) (depth : ℕ) (xs : List α) :
    work height (groupAt key depth xs) = (xs.map fun x => height x - depth).sum := by
  have h := isGrouping_groupAt key depth xs
  have hdepth : ∀ gs : List (Group κ α), (∀ g ∈ gs, g.depth = depth) →
      work height gs = ((held gs).map fun x => height x - depth).sum := by
    intro gs
    induction gs with
    | nil => intro _; rfl
    | cons g gs ih =>
      intro hgs
      have hg := hgs g List.mem_cons_self
      have ih := ih fun g' hg' => hgs g' (List.mem_cons_of_mem _ hg')
      rw [held_cons, List.map_append, List.sum_append, ← ih, work, List.map_cons, List.sum_cons, hg]
      rfl
  rw [hdepth _ fun g hg => (h.members g hg).2.1]
  exact (h.held.map _).sum_eq

/-- **A split takes up some of the work** if an element of the group lies
deeper than the group. -/
theorem work_split_lt (height : α → ℕ) (key : α → κ) {g : Group κ α} {gs rest : List (Group κ α)}
    (p : gs.Perm (g :: rest)) (hg : ∃ x ∈ g.members, g.depth < height x) :
    work height (rest ++ groupAt key (g.depth + 1) g.members) < work height gs := by
  have hless : (g.members.map fun x => height x - (g.depth + 1)).sum <
      (g.members.map fun x => height x - g.depth).sum := by
    obtain ⟨x, hx, hlt⟩ := hg
    refine List.sum_lt_sum _ _ (fun y _ => Nat.sub_le_sub_left (Nat.le_succ _) _) ⟨x, hx, ?_⟩
    omega
  rw [work_perm height p, work_append, work_groupAt]
  have hcons : work height (g :: rest) =
      (g.members.map fun x => height x - g.depth).sum + work height rest := rfl
  omega

end Grouping
end Lib
