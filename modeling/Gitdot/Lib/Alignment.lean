/-
# Alignments of two lists

Two lists side by side, as pairs of positions of which either may be missing.
A `Block` shows a stretch of both lists completely and in order: the
positions in its two change sets are removed or added, the others are paired
with an equal member on the other side. Blocks that meet are one block
(`Block.append`), and a stretch in which the lists agree is a block without
changes (`Block.same`). A `Trail` goes through both lists from end to end, by
blocks and by stretches in which the lists agree.

Key definitions: `SameStretch`, `Block`, `Trail`.
Key theorems: `Block.append`, `Trail.swap`, `Trail.pairwise_lefts`,
`Trail.count_lefts`, `Trail.balance`.
-/
import Mathlib.Data.Finset.Card
import Mathlib.Data.List.Range

namespace Lib

variable {α β : Type}

/-- A position on the left and one on the right, where they are. -/
abbrev Facing := Option ℕ × Option ℕ

def lefts (pairs : List Facing) : List ℕ := pairs.filterMap Prod.fst

def rights (pairs : List Facing) : List ℕ := pairs.filterMap Prod.snd

@[simp] theorem lefts_append (p q : List Facing) : lefts (p ++ q) = lefts p ++ lefts q :=
  List.filterMap_append

@[simp] theorem rights_append (p q : List Facing) : rights (p ++ q) = rights p ++ rights q :=
  List.filterMap_append

theorem mem_lefts {pairs : List Facing} {l : ℕ} {r : Option ℕ} (h : (some l, r) ∈ pairs) :
    l ∈ lefts pairs := List.mem_filterMap.mpr ⟨_, h, rfl⟩

theorem lefts_map_swap (pairs : List Facing) : lefts (pairs.map Prod.swap) = rights pairs := by
  rw [lefts, List.filterMap_map]
  rfl

theorem rights_map_swap (pairs : List Facing) : rights (pairs.map Prod.swap) = lefts pairs := by
  rw [rights, List.filterMap_map]
  rfl

theorem mem_map_swap {pairs : List Facing} {l r : Option ℕ} :
    (l, r) ∈ pairs.map Prod.swap ↔ (r, l) ∈ pairs := by
  rw [List.mem_map]
  constructor
  · rintro ⟨⟨r', l'⟩, hp, heq⟩
    cases heq
    exact hp
  · exact fun hp => ⟨(r, l), hp, rfl⟩

/-- From `i` and `j` the lists agree for `g` members. -/
structure SameStretch (L R : List α) (i j g : ℕ) : Prop where
  left : i + g ≤ L.length
  right : j + g ≤ R.length
  same : ∀ k < g, L[i + k]? = R[j + k]?

theorem SameStretch.swap {L R : List α} {i j g : ℕ} (h : SameStretch L R i j g) :
    SameStretch R L j i g := ⟨h.right, h.left, fun k hk => (h.same k hk).symm⟩

/-- The pairs show `a` members of the left list from `i` and `b` of the right
one from `j`. -/
structure Block (L R : List α) (removed added : Finset ℕ) (pairs : List Facing) (i j a b : ℕ) :
    Prop where
  left : lefts pairs = List.range' i a
  right : rights pairs = List.range' j b
  inLeft : i + a ≤ L.length
  inRight : j + b ≤ R.length
  removed_bound : ∀ n ∈ removed, i ≤ n ∧ n < i + a
  added_bound : ∀ n ∈ added, j ≤ n ∧ n < j + b
  paired : ∀ l r, (some l, some r) ∈ pairs →
    (l ∈ removed ∧ r ∈ added) ∨ (l ∉ removed ∧ r ∉ added ∧ L[l]? = R[r]?)
  onlyLeft : ∀ l, (some l, none) ∈ pairs → l ∈ removed
  onlyRight : ∀ r, (none, some r) ∈ pairs → r ∈ added
  balance : a + added.card = b + removed.card

namespace Block

variable {L R : List α} {removed added removed' added' : Finset ℕ} {pairs pairs' : List Facing}
  {i j a b a' b' g : ℕ}

theorem left_bound (h : Block L R removed added pairs i j a b) {l : ℕ} {r : Option ℕ}
    (hl : (some l, r) ∈ pairs) : i ≤ l ∧ l < i + a := by
  have := mem_lefts hl
  rw [h.left] at this
  simpa using List.mem_range'_1.mp this

/-- A block seen from the other side. -/
theorem swap (h : Block L R removed added pairs i j a b) :
    Block R L added removed (pairs.map Prod.swap) j i b a where
  left := (lefts_map_swap pairs).trans h.right
  right := (rights_map_swap pairs).trans h.left
  inLeft := h.inRight
  inRight := h.inLeft
  removed_bound := h.added_bound
  added_bound := h.removed_bound
  paired := fun l r hp => (h.paired r l (mem_map_swap.mp hp)).imp And.symm
    fun hs => ⟨hs.2.1, hs.1, hs.2.2.symm⟩
  onlyLeft := fun l hp => h.onlyRight l (mem_map_swap.mp hp)
  onlyRight := fun r hp => h.onlyLeft r (mem_map_swap.mp hp)
  balance := h.balance.symm

theorem right_bound (h : Block L R removed added pairs i j a b) {l : Option ℕ} {r : ℕ}
    (hr : (l, some r) ∈ pairs) : j ≤ r ∧ r < j + b := h.swap.left_bound (mem_map_swap.mpr hr)

theorem empty (hi : i ≤ L.length) (hj : j ≤ R.length) : Block L R ∅ ∅ [] i j 0 0 where
  left := rfl
  right := rfl
  inLeft := hi
  inRight := hj
  removed_bound := fun _ h => absurd h (Finset.notMem_empty _)
  added_bound := fun _ h => absurd h (Finset.notMem_empty _)
  paired := fun _ _ h => absurd h List.not_mem_nil
  onlyLeft := fun _ h => absurd h List.not_mem_nil
  onlyRight := fun _ h => absurd h List.not_mem_nil
  balance := rfl

theorem remove (hi : i < L.length) (hj : j ≤ R.length) : Block L R {i} ∅ [(some i, none)] i j 1 0 where
  left := rfl
  right := rfl
  inLeft := hi
  inRight := hj
  removed_bound := fun n hn => by
    rw [Finset.mem_singleton.mp hn]
    omega
  added_bound := fun _ h => absurd h (Finset.notMem_empty _)
  paired := fun _ _ h => by cases List.mem_singleton.mp h
  onlyLeft := fun _ h => by
    cases List.mem_singleton.mp h
    exact Finset.mem_singleton_self i
  onlyRight := fun _ h => by cases List.mem_singleton.mp h
  balance := rfl

theorem add (hi : i ≤ L.length) (hj : j < R.length) : Block L R ∅ {j} [(none, some j)] i j 0 1 where
  left := rfl
  right := rfl
  inLeft := hi
  inRight := hj
  removed_bound := fun _ h => absurd h (Finset.notMem_empty _)
  added_bound := fun n hn => by
    rw [Finset.mem_singleton.mp hn]
    omega
  paired := fun _ _ h => by cases List.mem_singleton.mp h
  onlyLeft := fun _ h => by cases List.mem_singleton.mp h
  onlyRight := fun _ h => by
    cases List.mem_singleton.mp h
    exact Finset.mem_singleton_self j
  balance := rfl

/-- A stretch in which the lists agree, member by member. -/
theorem same (h : SameStretch L R i j g) :
    Block L R ∅ ∅ ((List.range g).map fun k => (some (i + k), some (j + k))) i j g g where
  left := by
    rw [lefts, List.filterMap_map, List.range'_eq_map_range]
    show List.filterMap (some ∘ fun k => i + k) _ = _
    rw [List.filterMap_eq_map]
  right := by
    rw [rights, List.filterMap_map, List.range'_eq_map_range]
    show List.filterMap (some ∘ fun k => j + k) _ = _
    rw [List.filterMap_eq_map]
  inLeft := h.left
  inRight := h.right
  removed_bound := fun _ h => absurd h (Finset.notMem_empty _)
  added_bound := fun _ h => absurd h (Finset.notMem_empty _)
  paired := fun l r hp => by
    obtain ⟨k, hk, heq⟩ := List.mem_map.mp hp
    obtain ⟨rfl, rfl⟩ : i + k = l ∧ j + k = r := by simpa using heq
    exact .inr ⟨Finset.notMem_empty _, Finset.notMem_empty _, h.same k (List.mem_range.mp hk)⟩
  onlyLeft := fun _ h => by
    obtain ⟨k, _, heq⟩ := List.mem_map.mp h
    cases heq
  onlyRight := fun _ h => by
    obtain ⟨k, _, heq⟩ := List.mem_map.mp h
    cases heq
  balance := rfl

/-- Two blocks that meet. -/
theorem append (h : Block L R removed added pairs i j a b)
    (h' : Block L R removed' added' pairs' (i + a) (j + b) a' b') :
    Block L R (removed ∪ removed') (added ∪ added') (pairs ++ pairs') i j (a + a') (b + b') where
  left := by rw [lefts_append, h.left, h'.left, List.range'_append_1]
  right := by rw [rights_append, h.right, h'.right, List.range'_append_1]
  inLeft := by have := h'.inLeft; omega
  inRight := by have := h'.inRight; omega
  removed_bound := fun n hn => by
    rcases Finset.mem_union.mp hn with hn | hn
    · have := h.removed_bound n hn
      omega
    · have := h'.removed_bound n hn
      omega
  added_bound := fun n hn => by
    rcases Finset.mem_union.mp hn with hn | hn
    · have := h.added_bound n hn
      omega
    · have := h'.added_bound n hn
      omega
  paired := fun l r hp => by
    rcases List.mem_append.mp hp with hp | hp
    · have hl := h.left_bound hp
      have hr := h.right_bound hp
      have hl' : l ∉ removed' := fun hn => by have := h'.removed_bound l hn; omega
      have hr' : r ∉ added' := fun hn => by have := h'.added_bound r hn; omega
      simpa [hl', hr'] using h.paired l r hp
    · have hl := h'.left_bound hp
      have hr := h'.right_bound hp
      have hl' : l ∉ removed := fun hn => by have := h.removed_bound l hn; omega
      have hr' : r ∉ added := fun hn => by have := h.added_bound r hn; omega
      simpa [hl', hr'] using h'.paired l r hp
  onlyLeft := fun l hp => (List.mem_append.mp hp).elim
    (fun hp => Finset.mem_union_left _ (h.onlyLeft l hp))
    (fun hp => Finset.mem_union_right _ (h'.onlyLeft l hp))
  onlyRight := fun r hp => (List.mem_append.mp hp).elim
    (fun hp => Finset.mem_union_left _ (h.onlyRight r hp))
    (fun hp => Finset.mem_union_right _ (h'.onlyRight r hp))
  balance := by
    have hl : Disjoint removed removed' := Finset.disjoint_left.mpr fun n hn hn' => by
      have := h.removed_bound n hn
      have := h'.removed_bound n hn'
      omega
    have hr : Disjoint added added' := Finset.disjoint_left.mpr fun n hn hn' => by
      have := h.added_bound n hn
      have := h'.added_bound n hn'
      omega
    have hb := h.balance
    have hb' := h'.balance
    rw [Finset.card_union_of_disjoint hl, Finset.card_union_of_disjoint hr]
    omega

/-- The first pair, if it has a left position. -/
theorem first (h : Block L R removed added pairs i j a b) {l : ℕ} {r : Option ℕ}
    (hfirst : pairs.head? = some (some l, r)) : l = i := by
  have hleft := congrArg List.head? h.left
  cases pairs with
  | nil => cases hfirst
  | cons p pairs =>
    obtain rfl : p = (some l, r) := Option.some.inj hfirst
    rw [List.head?_range'] at hleft
    split_ifs at hleft
    · cases hleft
    · exact Option.some.inj hleft

/-- The last pair, if it has both positions. -/
theorem last (h : Block L R removed added pairs i j a b) {l r : ℕ}
    (hlast : pairs.getLast? = some (some l, some r)) : l + 1 = i + a ∧ r + 1 = j + b := by
  obtain ⟨init, rfl⟩ := List.getLast?_eq_some_iff.mp hlast
  have hleft := congrArg List.getLast? h.left
  have hright := congrArg List.getLast? h.right
  rw [lefts_append, List.getLast?_range', show lefts [(some l, some r)] = [l] from rfl,
    List.getLast?_concat] at hleft
  rw [rights_append, List.getLast?_range', show rights [(some l, some r)] = [r] from rfl,
    List.getLast?_concat] at hright
  constructor
  · split_ifs at hleft
    have := Option.some.inj hleft
    omega
  · split_ifs at hright
    have := Option.some.inj hright
    omega

/-- The same positions shown with other pairs. -/
theorem rearrange (h : Block L R removed added pairs i j a b)
    (hleft : lefts pairs' = lefts pairs) (hright : rights pairs' = rights pairs)
    (hpaired : ∀ l r, (some l, some r) ∈ pairs' →
      (some l, some r) ∈ pairs ∨ (some l, none) ∈ pairs ∧ (none, some r) ∈ pairs)
    (honlyLeft : ∀ l, (some l, none) ∈ pairs' → (some l, none) ∈ pairs)
    (honlyRight : ∀ r, (none, some r) ∈ pairs' → (none, some r) ∈ pairs) :
    Block L R removed added pairs' i j a b where
  left := hleft.trans h.left
  right := hright.trans h.right
  inLeft := h.inLeft
  inRight := h.inRight
  removed_bound := h.removed_bound
  added_bound := h.added_bound
  paired := fun l r hp => (hpaired l r hp).elim (h.paired l r) fun hs =>
    .inl ⟨h.onlyLeft l hs.1, h.onlyRight r hs.2⟩
  onlyLeft := fun l hp => h.onlyLeft l (honlyLeft l hp)
  onlyRight := fun r hp => h.onlyRight r (honlyRight r hp)
  balance := h.balance

end Block

/-! ### From end to end -/

/-- Blocks, each behind a stretch in which the lists agree, and such a stretch
to the ends of both lists. -/
inductive Trail (L R : List α) (pairs : β → List Facing) (removed added : β → Finset ℕ) :
    ℕ → ℕ → List β → Prop where
  | last {i j g} (hsame : SameStretch L R i j g) (hl : i + g = L.length) (hr : j + g = R.length) :
    Trail L R pairs removed added i j []
  | next {i j g a b x xs} (hsame : SameStretch L R i j g)
    (hblock : Block L R (removed x) (added x) (pairs x) (i + g) (j + g) a b)
    (htrail : Trail L R pairs removed added (i + g + a) (j + g + b) xs) :
    Trail L R pairs removed added i j (x :: xs)

namespace Trail

variable {L R : List α} {pairs : β → List Facing} {removed added : β → Finset ℕ} {i j : ℕ}
  {xs : List β}

/-- A trail seen from the other side. -/
theorem swap (h : Trail L R pairs removed added i j xs) :
    Trail R L (fun x => (pairs x).map Prod.swap) added removed j i xs := by
  induction h with
  | last hsame hl hr => exact .last hsame.swap hr hl
  | next hsame hblock _ ih => exact .next hsame.swap hblock.swap ih

theorem pairwise_lefts (h : Trail L R pairs removed added i j xs) :
    (lefts (xs.flatMap pairs)).Pairwise (· < ·) ∧ ∀ n ∈ lefts (xs.flatMap pairs), i ≤ n := by
  induction h with
  | last _ _ _ => exact ⟨.nil, fun _ h => absurd h List.not_mem_nil⟩
  | @next i j g a b x xs _ hblock _ ih =>
    rw [List.flatMap_cons, lefts_append, hblock.left]
    have hfirst : ∀ n ∈ List.range' (i + g) a, i + g ≤ n ∧ n < i + g + a := fun n hn => by
      simpa using List.mem_range'_1.mp hn
    refine ⟨List.pairwise_append.mpr ⟨List.pairwise_lt_range', ih.1, fun m hm n hn => ?_⟩,
      fun n hn => ?_⟩
    · have := hfirst m hm
      have := ih.2 n hn
      omega
    · rcases List.mem_append.mp hn with hn | hn
      · have := hfirst n hn
        omega
      · have := ih.2 n hn
        omega

theorem pairwise_rights (h : Trail L R pairs removed added i j xs) :
    (rights (xs.flatMap pairs)).Pairwise (· < ·) ∧ ∀ n ∈ rights (xs.flatMap pairs), j ≤ n := by
  have hswap := h.swap.pairwise_lefts
  rwa [← List.map_flatMap, lefts_map_swap] at hswap

/-- Each of the blocks. -/
theorem block_of_mem (h : Trail L R pairs removed added i j xs) {x : β} (hx : x ∈ xs) :
    ∃ i' j' a b, Block L R (removed x) (added x) (pairs x) i' j' a b := by
  induction h with
  | last _ _ _ => cases hx
  | next _ hblock _ ih =>
    rcases List.mem_cons.mp hx with rfl | hx
    · exact ⟨_, _, _, _, hblock⟩
    · exact ih hx

/-- A removed member is shown once. -/
theorem count_lefts (h : Trail L R pairs removed added i j xs) {x : β} (hx : x ∈ xs) {n : ℕ}
    (hn : n ∈ removed x) : (lefts (xs.flatMap pairs)).count n = 1 := by
  obtain ⟨i', j', a, b, hblock⟩ := h.block_of_mem hx
  have hmem : n ∈ lefts (pairs x) := by
    rw [hblock.left]
    exact List.mem_range'_1.mpr (hblock.removed_bound n hn)
  refine List.count_eq_one_of_mem (h.pairwise_lefts.1.imp fun hlt => hlt.ne) ?_
  obtain ⟨p, hp, hpn⟩ := List.mem_filterMap.mp hmem
  exact List.mem_filterMap.mpr ⟨p, List.mem_flatMap.mpr ⟨x, hx, hp⟩, hpn⟩

/-- An added member is shown once. -/
theorem count_rights (h : Trail L R pairs removed added i j xs) {x : β} (hx : x ∈ xs) {n : ℕ}
    (hn : n ∈ added x) : (rights (xs.flatMap pairs)).count n = 1 := by
  have hswap := h.swap.count_lefts hx hn
  rwa [← List.map_flatMap, lefts_map_swap] at hswap

end Trail

/-- All that the blocks have in their sets. -/
def unionOf (sets : β → Finset ℕ) (xs : List β) : Finset ℕ := xs.foldr (fun x s => sets x ∪ s) ∅

theorem mem_unionOf {sets : β → Finset ℕ} {n : ℕ} {xs : List β} :
    n ∈ unionOf sets xs ↔ ∃ x ∈ xs, n ∈ sets x := by
  induction xs with
  | nil => simp [unionOf]
  | cons x xs ih =>
    unfold unionOf at ih ⊢
    simp [ih]

namespace Trail

variable {L R : List α} {pairs : β → List Facing} {removed added : β → Finset ℕ} {i j : ℕ}
  {xs : List β}

theorem bounds (h : Trail L R pairs removed added i j xs) :
    (∀ n ∈ unionOf removed xs, i ≤ n) ∧ ∀ n ∈ unionOf added xs, j ≤ n := by
  refine ⟨fun n hn => ?_, fun n hn => ?_⟩
  · obtain ⟨x, hx, hn⟩ := mem_unionOf.mp hn
    have hone := h.count_lefts hx hn
    exact h.pairwise_lefts.2 n (List.count_pos_iff.mp (by omega))
  · obtain ⟨x, hx, hn⟩ := mem_unionOf.mp hn
    have hone := h.count_rights hx hn
    exact h.pairwise_rights.2 n (List.count_pos_iff.mp (by omega))

/-- What is left of the lists differs in length by what is added and removed. -/
theorem balance (h : Trail L R pairs removed added i j xs) :
    L.length + j + (unionOf added xs).card = R.length + i + (unionOf removed xs).card := by
  induction h with
  | last hsame hl hr =>
    simp only [unionOf, List.foldr_nil, Finset.card_empty]
    omega
  | @next i j g a b x xs hsame hblock htrail ih =>
    obtain ⟨hlow, hhigh⟩ := htrail.bounds
    have hl : Disjoint (removed x) (unionOf removed xs) :=
      Finset.disjoint_left.mpr fun n hn hn' => by
        have := hblock.removed_bound n hn
        have := hlow n hn'
        omega
    have hr : Disjoint (added x) (unionOf added xs) :=
      Finset.disjoint_left.mpr fun n hn hn' => by
        have := hblock.added_bound n hn
        have := hhigh n hn'
        omega
    have hb := hblock.balance
    show _ + (added x ∪ unionOf added xs).card = _ + (removed x ∪ unionOf removed xs).card
    rw [Finset.card_union_of_disjoint hl, Finset.card_union_of_disjoint hr]
    omega

end Trail
end Lib
