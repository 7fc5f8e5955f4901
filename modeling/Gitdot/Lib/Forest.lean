/-
# Forests given by parent links

Nodes with distinct keys, some with the key of a node they hang from. The
link may also name a key that no node has; such a node is a top, like one
without a link. Along links nodes get older, so that climbing ends at a top.

The branch of a top follows, from each node, the last of the nodes that hang
from it, and takes in all that hang from a node it passes. The branches of
the tops share no node, and they take in every node exactly when only last
children have children (`gather_perm_iff`).

Key definitions: `Linked`, `kids`, `Topmost`, `Spine`, `LastOnly`, `Gather`.
Key theorems: `Spine.exists`, `Gather.nodup`, `Gather.parentFirst`,
`gather_perm_iff`.
-/
import Mathlib.Algebra.Order.BigOperators.Group.List
import Mathlib.Algebra.Order.Group.Nat
import Mathlib.Data.List.Forall2
import Mathlib.Data.List.Nodup
import Mathlib.Data.List.Perm.Subperm
import Mathlib.Logic.Relation

namespace Lib

variable {α κ : Type}

/-- Distinct keys, and links from the younger to the older. -/
structure Linked (key : α → κ) (up : α → Option κ) (nodes : List α) : Prop where
  nodup : (nodes.map key).Nodup
  aged : ∃ age : κ → ℕ, ∀ c ∈ nodes, ∀ p ∈ nodes, up c = some (key p) → age (key p) < age (key c)

namespace Linked

variable {key : α → κ} {up : α → Option κ} {nodes nodes' : List α}

theorem nil : Linked key up [] := ⟨.nil, fun _ => 0, fun _ h => absurd h List.not_mem_nil⟩

theorem subset (h : Linked key up nodes) (hn : (nodes'.map key).Nodup) (hs : nodes' ⊆ nodes) :
    Linked key up nodes' := by
  obtain ⟨age, hage⟩ := h.aged
  exact ⟨hn, age, fun c hc p hp => hage c (hs hc) p (hs hp)⟩

theorem key_inj (h : Linked key up nodes) {a b : α} (ha : a ∈ nodes) (hb : b ∈ nodes)
    (hk : key a = key b) : a = b :=
  List.inj_on_of_nodup_map h.nodup ha hb hk

/-- A new node hangs from one that is there, and nothing hangs from it yet. -/
theorem cons (h : Linked key up nodes) {c : α} (hnew : key c ∉ nodes.map key)
    (hfree : ∀ d ∈ c :: nodes, up d ≠ some (key c)) : Linked key up (c :: nodes) := by
  classical
  obtain ⟨age, hage⟩ := h.aged
  have hne : ∀ d ∈ nodes, key d ≠ key c := fun d hd he => hnew (he ▸ List.mem_map_of_mem hd)
  refine ⟨List.nodup_cons.mpr ⟨hnew, h.nodup⟩,
    fun k => if k = key c then ((nodes.map fun d => age (key d)).sum + 1) else age k, ?_⟩
  intro d hd p hp hup
  rcases List.mem_cons.mp hp with rfl | hpn
  · exact absurd hup (hfree d hd)
  dsimp only
  rw [if_neg (hne p hpn)]
  rcases List.mem_cons.mp hd with rfl | hdn
  · have hle : age (key p) ≤ (nodes.map fun d => age (key d)).sum :=
      List.single_le_sum (fun _ _ => Nat.zero_le _) _ (List.mem_map.mpr ⟨p, hpn, rfl⟩)
    rw [if_pos rfl]
    omega
  · rw [if_neg (hne d hdn)]
    exact hage d hdn p hpn hup

/-- Rewriting nodes without their keys and links. -/
theorem map (h : Linked key up nodes) {f : α → α} (hkey : ∀ a, key (f a) = key a)
    (hup : ∀ a, up (f a) = up a) : Linked key up (nodes.map f) := by
  obtain ⟨age, hage⟩ := h.aged
  refine ⟨?_, age, fun c hc p hp => ?_⟩
  · rw [List.map_map, show key ∘ f = key from funext hkey]
    exact h.nodup
  · obtain ⟨d, hd, rfl⟩ := List.mem_map.mp hc
    obtain ⟨q, hq, rfl⟩ := List.mem_map.mp hp
    rw [hup, hkey, hkey]
    exact hage d hd q hq

end Linked

/-! ### Tops, children and branches -/

section

variable [DecidableEq κ] (key : α → κ) (up : α → Option κ) (nodes : List α)

/-- What hangs from the key, in the order of the nodes. -/
def kids (k : κ) : List α := nodes.filter fun c => decide (up c = some k)

/-- Hanging from none of the nodes. -/
def Topmost (c : α) : Prop := ∀ p ∈ nodes, up c ≠ some (key p)

instance Topmost.decide (c : α) : Decidable (Topmost key up nodes c) :=
  inferInstanceAs (Decidable (∀ p ∈ nodes, up c ≠ some (key p)))

/-- The nodes passed when the last child is followed for as long as there is
one. -/
inductive Spine (next : α → List α) : α → List α → Prop where
  | stop {a} (h : next a = []) : Spine next a [a]
  | step {a b l} (h : (next a).getLast? = some b) (hs : Spine next b l) : Spine next a (a :: l)

/-- Only last children have children. -/
def LastOnly : Prop :=
  ∀ c ∈ nodes, kids up nodes (key c) ≠ [] → ∀ p ∈ nodes, up c = some (key p) →
    (kids up nodes (key p)).getLast? = some c

/-- The branches of these tops: each top, then what hangs from its spine. -/
def Gather (tops : List α) (branches : List (List α)) : Prop :=
  List.Forall₂ (fun a branch => ∃ l, Spine (fun c => kids up nodes (key c)) a l ∧
    branch = a :: l.flatMap fun c => kids up nodes (key c)) tops branches

/-- In a branch every node stands behind the one it hangs from. -/
def ParentFirst (branch : List α) : Prop :=
  ∀ (i : ℕ) (c : α), branch[i]? = some c → ∀ p ∈ nodes, up c = some (key p) → p ∈ branch.take i

end

section

variable {key : α → κ} {up : α → Option κ} {nodes : List α}

/-- Climbing along one link. -/
def Climbs (key : α → κ) (up : α → Option κ) (nodes : List α) (c p : α) : Prop :=
  c ∈ nodes ∧ p ∈ nodes ∧ up c = some (key p)

theorem climbs_unique (h : Linked key up nodes) : Relator.RightUnique (Climbs key up nodes) :=
  fun _ _ _ hp hq => h.key_inj hp.2.1 hq.2.1 (Option.some.inj (hp.2.2.symm.trans hq.2.2))

/-- One climbs to one top only. -/
theorem top_unique (h : Linked key up nodes) {a b c : α} (ha : Topmost key up nodes a)
    (hb : Topmost key up nodes b) (hca : Relation.ReflTransGen (Climbs key up nodes) c a)
    (hcb : Relation.ReflTransGen (Climbs key up nodes) c b) : a = b := by
  rcases Relation.ReflTransGen.total_of_right_unique (climbs_unique h) hca hcb with hab | hba
  · rcases hab.cases_head with rfl | ⟨d, hd, _⟩
    · rfl
    · exact absurd hd.2.2 (ha d hd.2.1)
  · rcases hba.cases_head with rfl | ⟨d, hd, _⟩
    · rfl
    · exact absurd hd.2.2 (hb d hd.2.1)

theorem ParentFirst.append (h : Linked key up nodes) {done new : List α}
    (hdone : ParentFirst key up nodes done) {p : α} (hp : p ∈ nodes) (hin : p ∈ done)
    (hnew : ∀ c ∈ new, up c = some (key p)) : ParentFirst key up nodes (done ++ new) := by
  intro i c hi q hq hup
  rcases Nat.lt_or_ge i done.length with hlt | hge
  · rw [List.getElem?_append_left hlt] at hi
    rw [List.take_append_of_le_length hlt.le]
    exact hdone i c hi q hq hup
  · rw [List.getElem?_append_right hge] at hi
    have hc := hnew c (List.mem_of_getElem? hi)
    obtain rfl : p = q := h.key_inj hp hq (Option.some.inj (hc.symm.trans hup))
    rw [List.take_append, List.take_of_length_le hge]
    exact List.mem_append_left _ hin

end

section

variable [DecidableEq κ] {key : α → κ} {up : α → Option κ} {nodes : List α}

theorem mem_kids {k : κ} {c : α} : c ∈ kids up nodes k ↔ c ∈ nodes ∧ up c = some k := by
  simp [kids]

theorem nodup_kids (h : Linked key up nodes) (k : κ) : (kids up nodes k).Nodup :=
  (List.Nodup.of_map _ h.nodup).filter _

theorem disjoint_kids {j k : κ} (hjk : j ≠ k) : (kids up nodes j).Disjoint (kids up nodes k) :=
  fun _ hj hk => hjk (Option.some.inj ((mem_kids.mp hj).2.symm.trans (mem_kids.mp hk).2))

namespace Spine

variable {next : α → List α} {a b : α} {l l' : List α}

theorem head_mem (h : Spine next a l) : a ∈ l := by
  cases h <;> exact List.mem_cons_self

theorem last_mem (h : Spine next a l) {x : α} (hx : x ∈ l) (hb : (next x).getLast? = some b) :
    b ∈ l := by
  induction h with
  | stop hnil =>
    rw [List.mem_singleton.mp hx, hnil] at hb
    cases hb
  | step hlast hs ih =>
    rcases List.mem_cons.mp hx with rfl | hx
    · rw [← Option.some.inj (hlast.symm.trans hb)]
      exact List.mem_cons_of_mem _ hs.head_mem
    · exact List.mem_cons_of_mem _ (ih hx)

/-- A node of the spine is its start or the last child of another. -/
theorem prev (h : Spine next a l) {x : α} (hx : x ∈ l) :
    x = a ∨ ∃ y ∈ l, (next y).getLast? = some x := by
  induction h with
  | stop hnil => exact .inl (List.mem_singleton.mp hx)
  | @step a b l hlast hs ih =>
    rcases List.mem_cons.mp hx with rfl | hx
    · exact .inl rfl
    · refine .inr ?_
      rcases ih hx with rfl | ⟨y, hy, hyx⟩
      · exact ⟨a, List.mem_cons_self, hlast⟩
      · exact ⟨y, List.mem_cons_of_mem _ hy, hyx⟩

theorem mem_nodes (h : Spine (fun c => kids up nodes (key c)) a l) (ha : a ∈ nodes) :
    ∀ x ∈ l, x ∈ nodes := by
  intro x hx
  rcases h.prev hx with rfl | ⟨y, _, hy⟩
  · exact ha
  · exact (mem_kids.mp (List.mem_of_getLast? hy)).1

/-- Along the spine nodes get younger. -/
theorem pairwise_age {age : κ → ℕ}
    (hage : ∀ c ∈ nodes, ∀ p ∈ nodes, up c = some (key p) → age (key p) < age (key c))
    (h : Spine (fun c => kids up nodes (key c)) a l) (ha : a ∈ nodes) :
    (∀ x ∈ l, age (key a) ≤ age (key x)) ∧ l.Pairwise fun x y => age (key x) < age (key y) := by
  induction h with
  | stop hnil => exact ⟨fun x hx => by rw [List.mem_singleton.mp hx], List.pairwise_singleton _ _⟩
  | @step a b l hlast hs ih =>
    obtain ⟨hb, hup⟩ := mem_kids.mp (List.mem_of_getLast? hlast)
    have hlt : age (key a) < age (key b) := hage b hb a ha hup
    obtain ⟨hle, hpair⟩ := ih hb
    refine ⟨fun x hx => ?_, List.pairwise_cons.mpr ⟨fun x hx => hlt.trans_le (hle x hx), hpair⟩⟩
    rcases List.mem_cons.mp hx with rfl | hx
    · exact le_rfl
    · exact hlt.le.trans (hle x hx)

theorem length_le (h : Linked key up nodes) (hs : Spine (fun c => kids up nodes (key c)) a l)
    (ha : a ∈ nodes) : l.length ≤ nodes.length := by
  obtain ⟨age, hage⟩ := h.aged
  have hnodup : l.Nodup := (hs.pairwise_age hage ha).2.imp fun hlt he => by rw [he] at hlt; omega
  exact (List.subperm_of_subset hnodup (hs.mem_nodes ha)).length_le

/-- Following last children ends: they get younger, and no node is younger
than all the nodes. -/
theorem «exists» (h : Linked key up nodes) (ha : a ∈ nodes) :
    ∃ l, Spine (fun c => kids up nodes (key c)) a l := by
  obtain ⟨age, hage⟩ := h.aged
  have hbound : ∀ x ∈ nodes, age (key x) ≤ (nodes.map fun d => age (key d)).sum := fun x hx =>
    List.single_le_sum (fun _ _ => Nat.zero_le _) _ (List.mem_map.mpr ⟨x, hx, rfl⟩)
  generalize (nodes.map fun d => age (key d)).sum = top at hbound
  induction hn : top - age (key a) using Nat.strong_induction_on generalizing a with
  | _ n ih =>
    cases hlast : (kids up nodes (key a)).getLast? with
    | none => exact ⟨[a], .stop (List.getLast?_eq_none_iff.mp hlast)⟩
    | some b =>
      obtain ⟨hb, hup⟩ := mem_kids.mp (List.mem_of_getLast? hlast)
      have hlt : age (key a) < age (key b) := hage b hb a ha hup
      have hle := hbound b hb
      obtain ⟨l, hl⟩ := ih (top - age (key b)) (by omega) hb rfl
      exact ⟨a :: l, .step hlast hl⟩

end Spine

/-! ### What the branches take in -/

/-- The branch of `a` along the spine `l`. -/
theorem mem_branch {a : α} {l : List α} {c : α} :
    c ∈ a :: l.flatMap (fun c => kids up nodes (key c)) ↔
      c = a ∨ c ∈ nodes ∧ ∃ x ∈ l, up c = some (key x) := by
  simp only [List.mem_cons, List.mem_flatMap, mem_kids]
  exact or_congr_right ⟨fun ⟨x, hx, hc, hup⟩ => ⟨hc, x, hx, hup⟩, fun ⟨hc, x, hx, hup⟩ =>
    ⟨x, hx, hc, hup⟩⟩

theorem Spine.climbs {a : α} {l : List α} (hs : Spine (fun c => kids up nodes (key c)) a l)
    (ha : a ∈ nodes) : ∀ x ∈ l, Relation.ReflTransGen (Climbs key up nodes) x a := by
  induction hs with
  | stop hnil => exact fun x hx => by rw [List.mem_singleton.mp hx]
  | @step a b l hlast hs ih =>
    obtain ⟨hb, hup⟩ := mem_kids.mp (List.mem_of_getLast? hlast)
    intro x hx
    rcases List.mem_cons.mp hx with rfl | hx
    · exact .refl
    · exact (ih hb x hx).tail ⟨hb, ha, hup⟩

/-- From everything in its branch one climbs to the top. -/
theorem climbs_of_mem_branch {a : α} {l : List α}
    (hs : Spine (fun c => kids up nodes (key c)) a l) (ha : a ∈ nodes) {c : α}
    (hc : c ∈ a :: l.flatMap fun c => kids up nodes (key c)) :
    Relation.ReflTransGen (Climbs key up nodes) c a := by
  rcases mem_branch.mp hc with rfl | ⟨hc, x, hx, hup⟩
  · exact .refl
  · exact .head ⟨hc, hs.mem_nodes ha x hx, hup⟩ (hs.climbs ha x hx)

theorem nodup_branch (h : Linked key up nodes) {a : α} {l : List α} (ha : a ∈ nodes)
    (htop : Topmost key up nodes a) (hs : Spine (fun c => kids up nodes (key c)) a l) :
    (a :: l.flatMap fun c => kids up nodes (key c)).Nodup := by
  obtain ⟨age, hage⟩ := h.aged
  refine List.nodup_cons.mpr ⟨fun hmem => ?_, List.nodup_flatMap.mpr ⟨fun c _ => nodup_kids h _, ?_⟩⟩
  · obtain ⟨x, hx, hax⟩ := List.mem_flatMap.mp hmem
    exact htop x (hs.mem_nodes ha x hx) (mem_kids.mp hax).2
  · exact (hs.pairwise_age hage ha).2.imp fun hlt => disjoint_kids fun he => by rw [he] at hlt; omega

theorem ParentFirst.flatMap (h : Linked key up nodes) : ∀ {a : α} {l done : List α}, a ∈ nodes →
    a ∈ done → Spine (fun c => kids up nodes (key c)) a l → ParentFirst key up nodes done →
    ParentFirst key up nodes (done ++ l.flatMap fun c => kids up nodes (key c)) := by
  intro a l done ha hin hs
  induction hs generalizing done with
  | stop hnil =>
    intro hdone
    rw [List.flatMap_cons, List.flatMap_nil, hnil]
    simpa using hdone
  | @step a b l hlast hs ih =>
    intro hdone
    have hb := List.mem_of_getLast? hlast
    rw [List.flatMap_cons, ← List.append_assoc]
    exact ih (mem_kids.mp hb).1 (List.mem_append_right _ hb)
      (hdone.append h ha hin fun c hc => (mem_kids.mp hc).2)

/-- The tops in some order. -/
def Tops (key : α → κ) (up : α → Option κ) (nodes tops : List α) : Prop :=
  tops.Perm (nodes.filter fun c => decide (Topmost key up nodes c))

theorem Tops.mem_iff {tops : List α} (ht : Tops key up nodes tops) {a : α} :
    a ∈ tops ↔ a ∈ nodes ∧ Topmost key up nodes a := by
  rw [List.Perm.mem_iff ht]
  simp

namespace Gather

variable {tops : List α} {branches : List (List α)}

theorem exists_of_mem {P : α → List α → Prop} {as : List α} {bs : List (List α)}
    (h : List.Forall₂ P as bs) : (∀ b ∈ bs, ∃ a ∈ as, P a b) ∧ ∀ a ∈ as, ∃ b ∈ bs, P a b := by
  induction h with
  | nil => exact ⟨fun _ h => absurd h List.not_mem_nil, fun _ h => absurd h List.not_mem_nil⟩
  | @cons a b as bs hab _ ih =>
    refine ⟨List.forall_mem_cons.mpr ⟨⟨a, List.mem_cons_self, hab⟩, fun b hb => ?_⟩,
      List.forall_mem_cons.mpr ⟨⟨b, List.mem_cons_self, hab⟩, fun a ha => ?_⟩⟩
    · obtain ⟨a, ha, hab⟩ := ih.1 b hb
      exact ⟨a, List.mem_cons_of_mem _ ha, hab⟩
    · obtain ⟨b, hb, hab⟩ := ih.2 a ha
      exact ⟨b, List.mem_cons_of_mem _ hb, hab⟩

theorem mem_nodes (hg : Gather key up nodes tops branches) (ht : Tops key up nodes tops) :
    ∀ c ∈ branches.flatten, c ∈ nodes := by
  intro c hc
  obtain ⟨branch, hb, hc⟩ := List.mem_flatten.mp hc
  obtain ⟨a, ha, l, hs, rfl⟩ := (exists_of_mem hg).1 branch hb
  rcases mem_branch.mp hc with rfl | ⟨hc, _⟩
  · exact (ht.mem_iff.mp ha).1
  · exact hc

/-- No node is in two branches, or twice in one. -/
theorem nodup (h : Linked key up nodes) (hg : Gather key up nodes tops branches)
    (ht : Tops key up nodes tops) : branches.flatten.Nodup := by
  have htops : tops.Nodup := by
    rw [List.Perm.nodup_iff ht]
    exact (List.Nodup.of_map _ h.nodup).filter _
  have hmem : ∀ a ∈ tops, a ∈ nodes ∧ Topmost key up nodes a := fun a ha => ht.mem_iff.mp ha
  clear ht
  induction hg with
  | nil => exact .nil
  | @cons a branch tops branches hbranch hg ih =>
    obtain ⟨l, hs, rfl⟩ := hbranch
    obtain ⟨ha, htop⟩ := hmem a List.mem_cons_self
    obtain ⟨hnot, htops⟩ := List.nodup_cons.mp htops
    rw [List.flatten_cons, List.nodup_append']
    refine ⟨nodup_branch h ha htop hs,
      ih htops fun b hb => hmem b (List.mem_cons_of_mem _ hb), fun c hc hc' => ?_⟩
    obtain ⟨branch, hmem', hc'⟩ := List.mem_flatten.mp hc'
    obtain ⟨b, hb, l', hs', rfl⟩ := (exists_of_mem hg).1 branch hmem'
    obtain ⟨hbn, hbt⟩ := hmem b (List.mem_cons_of_mem _ hb)
    obtain rfl := top_unique h htop hbt (climbs_of_mem_branch hs ha hc)
      (climbs_of_mem_branch hs' hbn hc')
    exact hnot hb

theorem parentFirst (h : Linked key up nodes) (hg : Gather key up nodes tops branches)
    (ht : Tops key up nodes tops) : ∀ branch ∈ branches, ParentFirst key up nodes branch := by
  intro branch hb
  obtain ⟨a, ha, l, hs, rfl⟩ := (exists_of_mem hg).1 branch hb
  obtain ⟨hmem, htop⟩ := ht.mem_iff.mp ha
  refine ParentFirst.flatMap h hmem (List.mem_singleton_self a) hs ?_
  intro i c hi p hp hup
  obtain rfl : c = a := List.mem_singleton.mp (List.mem_of_getElem? hi)
  exact absurd hup (htop p hp)

/-- Where only last children have children, climbing from a node leads
through the spine of its top. -/
theorem mem_of_lastOnly (h : Linked key up nodes) (hg : Gather key up nodes tops branches)
    (ht : Tops key up nodes tops) (honly : LastOnly key up nodes) :
    ∀ c ∈ nodes, c ∈ branches.flatten := by
  obtain ⟨age, hage⟩ := h.aged
  intro c hc
  induction hn : age (key c) using Nat.strong_induction_on generalizing c with
  | _ n ih =>
    by_cases htop : Topmost key up nodes c
    · obtain ⟨branch, hb, l, _, rfl⟩ := (exists_of_mem hg).2 c (ht.mem_iff.mpr ⟨hc, htop⟩)
      exact List.mem_flatten.mpr ⟨_, hb, List.mem_cons_self⟩
    · have hparent : ∃ p ∈ nodes, up c = some (key p) := by
        by_contra hno
        exact htop fun p hp hup => hno ⟨p, hp, hup⟩
      obtain ⟨p, hp, hup⟩ := hparent
      obtain ⟨branch, hb, hpb⟩ := List.mem_flatten.mp
        (ih (age (key p)) (hn ▸ hage c hc p hp hup) p hp rfl)
      obtain ⟨a, ha, l, hs, rfl⟩ := (exists_of_mem hg).1 branch hb
      have hkids : kids up nodes (key p) ≠ [] := List.ne_nil_of_mem (mem_kids.mpr ⟨hc, hup⟩)
      have hspine : p ∈ l := by
        rcases mem_branch.mp hpb with rfl | ⟨_, x, hx, hpx⟩
        · exact hs.head_mem
        · exact hs.last_mem hx
            (honly p hp hkids x (hs.mem_nodes (ht.mem_iff.mp ha).1 x hx) hpx)
      exact List.mem_flatten.mpr ⟨_, hb, mem_branch.mpr (.inr ⟨hc, p, hspine, hup⟩)⟩

/-- A node with children whose children are taken in was followed. -/
theorem lastOnly_of_mem (h : Linked key up nodes) (hg : Gather key up nodes tops branches)
    (ht : Tops key up nodes tops) (hall : ∀ c ∈ nodes, c ∈ branches.flatten) :
    LastOnly key up nodes := by
  intro c hc hkids p hp hup
  obtain ⟨d, hd⟩ := List.exists_mem_of_ne_nil _ hkids
  obtain ⟨hdn, hdc⟩ := mem_kids.mp hd
  obtain ⟨branch, hb, hdb⟩ := List.mem_flatten.mp (hall d hdn)
  obtain ⟨a, ha, l, hs, rfl⟩ := (exists_of_mem hg).1 branch hb
  obtain ⟨han, hat⟩ := ht.mem_iff.mp ha
  have hcl : c ∈ l := by
    rcases mem_branch.mp hdb with rfl | ⟨_, x, hx, hdx⟩
    · exact absurd hdc (hat c hc)
    · rwa [h.key_inj hc (hs.mem_nodes han x hx) (Option.some.inj (hdc.symm.trans hdx))]
  rcases hs.prev hcl with rfl | ⟨y, hy, hyc⟩
  · exact absurd hup (hat p hp)
  · have hcy : up c = some (key y) := (mem_kids.mp (List.mem_of_getLast? hyc)).2
    rwa [h.key_inj hp (hs.mem_nodes han y hy) (Option.some.inj (hup.symm.trans hcy))]

end Gather

/-- The branches hold every node once exactly when only last children have
children. -/
theorem gather_perm_iff {tops : List α} {branches : List (List α)} (h : Linked key up nodes)
    (hg : Gather key up nodes tops branches) (ht : Tops key up nodes tops) :
    branches.flatten.Perm nodes ↔ LastOnly key up nodes := by
  constructor
  · exact fun hp => hg.lastOnly_of_mem h ht fun c hc => hp.mem_iff.mpr hc
  · intro honly
    exact (List.perm_ext_iff_of_nodup (hg.nodup h ht) (List.Nodup.of_map _ h.nodup)).mpr fun c =>
      ⟨hg.mem_nodes ht c, hg.mem_of_lastOnly h ht honly c⟩

end
end Lib
