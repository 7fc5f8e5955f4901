/-
# The comment threads of a diff

How `ReviewProvider` groups the comments of the active diff: a comment
without a parent in the list is a root, the others go to the bucket of their
parent, and the thread of a root is built by taking in the bucket of the
current comment and going on with the last comment of that bucket. The list
may be in any order.

The loop ends for all parent links that the server can store, and the
threads hold every comment once, behind its parent, exactly when a comment
that has replies is a root or the last of the replies to its parent
(`threads_partition_iff`). The replies to an earlier sibling are in no
thread (`not_threads_partition`).

Key definitions: `groupComments`, `compareRoots`, `chainLoop`,
`activeDiffCommentThreads`, `Partition`.
Key theorems: `linked_talk`, `threads_partition_iff`, `not_threads_partition`.
-/
import Gitdot.Server.Conversations

namespace Gitdot

open Lib

/-! ### The grouping -/

/-- The roots and the map of the replies. -/
structure CommentGroups where
  roots : List ReviewComment
  replies : Uuid → Option (List ReviewComment)

/-- One turn of the loop over the comments. `byId` is `byId.has`. -/
def groupComment (byId : Uuid → Bool) (groups : CommentGroups) (c : ReviewComment) :
    CommentGroups :=
  match c.parentId with
  | none => { groups with roots := groups.roots ++ [c] }
  | some parent =>
    if byId parent then
      let bucket := (groups.replies parent).getD []
      { groups with replies := fun k => if k = parent then some (bucket ++ [c]) else groups.replies k }
    else { groups with roots := groups.roots ++ [c] }

def groupComments (comments : List ReviewComment) : CommentGroups :=
  comments.foldl (groupComment fun k => comments.any fun c => c.id = k) ⟨[], fun _ => none⟩

/-- The comparator of the roots: by path, then by line, a root without a line
behind the others. `localeCompare` is the collation of the browser. -/
def compareRoots (localeCompare : String → String → Ordering) (a b : ReviewComment) : Ordering :=
  let pathA := a.place.filePath.getD ""
  let pathB := b.place.filePath.getD ""
  if pathA ≠ pathB then localeCompare pathA pathB
  else
    match a.place.lineNumberStart, b.place.lineNumberStart with
    | none, none => .eq
    | none, some _ => .gt
    | some _, none => .lt
    | some lineA, some lineB => compare lineA lineB

/-- The `while` loop that builds the thread of a root. -/
def chainLoop (replies : Uuid → Option (List ReviewComment)) :
    ℕ → ReviewComment → List ReviewComment → Option (List ReviewComment)
  | 0, _, _ => none
  | fuel + 1, current, chain =>
    let children := (replies current.id).getD []
    match children.getLast? with
    | none => some chain
    | some last => chainLoop replies fuel last (chain ++ children)

def activeDiffCommentThreads (localeCompare : String → String → Ordering) (fuel : ℕ)
    (comments : List ReviewComment) : Option (List (List ReviewComment)) :=
  let groups := groupComments comments
  let roots := groups.roots.mergeSort fun a b => (compareRoots localeCompare a b).isLE
  roots.mapM fun root => chainLoop groups.replies fuel root [root]

/-! ### What the loops build -/

/-- The comments of a diff as a forest. -/
abbrev LinkedComments (comments : List ReviewComment) : Prop :=
  Linked ReviewComment.id ReviewComment.parentId comments

section Groups

variable {comments : List ReviewComment} {byId : Uuid → Bool}

theorem foldl_groupComment (byId : Uuid → Bool) :
    ∀ (comments : List ReviewComment) (groups : CommentGroups),
      (comments.foldl (groupComment byId) groups).roots =
        groups.roots ++ comments.filter (fun c => c.parentId.all fun p => !byId p) ∧
      ∀ k, byId k = true →
        ((comments.foldl (groupComment byId) groups).replies k).getD [] =
          (groups.replies k).getD [] ++ kids ReviewComment.parentId comments k
  | [], groups => by simp [kids]
  | c :: comments, groups => by
    obtain ⟨hroots, hreplies⟩ := foldl_groupComment byId comments (groupComment byId groups c)
    rw [List.foldl_cons]
    cases hc : c.parentId with
    | none =>
      simp only [groupComment, hc] at hroots hreplies ⊢
      refine ⟨by simp [hroots, hc], fun k hk => ?_⟩
      simp [hreplies k hk, kids, hc]
    | some parent =>
      cases hp : byId parent with
      | false =>
        simp only [groupComment, hc, hp, Bool.false_eq_true, if_false] at hroots hreplies ⊢
        refine ⟨by simp [hroots, hc, hp], fun k hk => ?_⟩
        have hne : parent ≠ k := fun he => by rw [he, hk] at hp; cases hp
        simp [hreplies k hk, kids, hc, hne]
      | true =>
        simp only [groupComment, hc, hp, if_true] at hroots hreplies ⊢
        refine ⟨by simp [hroots, hc, hp], fun k hk => ?_⟩
        rw [hreplies k hk]
        by_cases hkp : k = parent
        · subst hkp
          simp [kids, hc]
        · have hne : parent ≠ k := fun he => hkp he.symm
          simp [kids, hc, hkp, hne]

theorem roots_groupComments (comments : List ReviewComment) :
    (groupComments comments).roots = comments.filter fun c =>
      decide (Topmost ReviewComment.id ReviewComment.parentId comments c) := by
  rw [groupComments, (foldl_groupComment _ comments _).1, List.nil_append]
  refine List.filter_congr fun c _ => Bool.eq_iff_iff.mpr ?_
  rw [decide_eq_true_iff]
  cases hc : c.parentId with
  | none => simp [Topmost, hc]
  | some parent =>
    simp only [Option.all_some, Bool.not_eq_true', List.any_eq_false, decide_eq_true_eq, Topmost, hc,
      ne_eq, Option.some.injEq]
    exact forall₂_congr fun _ _ => not_congr eq_comm

theorem replies_groupComments {c : ReviewComment} (hc : c ∈ comments) :
    ((groupComments comments).replies c.id).getD [] =
      kids ReviewComment.parentId comments c.id := by
  rw [groupComments, (foldl_groupComment _ comments _).2]
  · rfl
  · exact List.any_eq_true.mpr ⟨c, hc, by simp⟩

/-- The loop takes in what hangs from the spine of its comment. -/
theorem chainLoop_spine {replies : Uuid → Option (List ReviewComment)} {current : ReviewComment}
    {l : List ReviewComment}
    (hs : Spine (fun c => kids ReviewComment.parentId comments c.id) current l)
    (hreplies : ∀ c ∈ l, (replies c.id).getD [] = kids ReviewComment.parentId comments c.id) :
    ∀ (fuel : ℕ) (chain : List ReviewComment), l.length ≤ fuel →
      chainLoop replies fuel current chain =
        some (chain ++ l.flatMap fun c => kids ReviewComment.parentId comments c.id) := by
  induction hs with
  | @stop a hnil =>
    intro fuel chain hfuel
    obtain ⟨fuel, rfl⟩ := Nat.exists_eq_add_of_le' hfuel
    have ha := hreplies a List.mem_cons_self
    show chainLoop replies (fuel + 1) a chain = _
    rw [chainLoop, ha, hnil]
    simp [hnil]
  | @step a b l hlast hs ih =>
    intro fuel chain hfuel
    rw [List.length_cons] at hfuel
    obtain ⟨fuel, rfl⟩ := Nat.exists_eq_add_of_le' (Nat.le_trans (Nat.le_add_left 1 _) hfuel)
    have ha := hreplies a List.mem_cons_self
    rw [chainLoop, ha]
    simp only [hlast]
    rw [ih (fun c hc => hreplies c (List.mem_cons_of_mem _ hc)) fuel _ (by omega)]
    rw [List.flatMap_cons, List.append_assoc]

/-- The threads of these roots, once there is fuel for the longest. -/
theorem exists_gather (h : LinkedComments comments) : ∀ {roots : List ReviewComment},
    (∀ c ∈ roots, c ∈ comments) → ∃ threads,
      Gather ReviewComment.id ReviewComment.parentId comments roots threads ∧
      ∀ fuel, comments.length ≤ fuel →
        roots.mapM (fun root => chainLoop (groupComments comments).replies fuel root [root]) =
          some threads
  | [], _ => ⟨[], .nil, fun _ _ => rfl⟩
  | root :: roots, hroots => by
    have hroot := hroots root List.mem_cons_self
    obtain ⟨l, hs⟩ := Spine.exists h hroot
    obtain ⟨threads, hg, hthreads⟩ :=
      exists_gather h fun c hc => hroots c (List.mem_cons_of_mem _ hc)
    refine ⟨_, .cons ⟨l, hs, rfl⟩ hg, fun fuel hfuel => ?_⟩
    rw [List.mapM_cons, hthreads fuel hfuel, chainLoop_spine hs
      (fun c hc => replies_groupComments (hs.mem_nodes hroot c hc)) fuel [root]
      ((hs.length_le h hroot).trans hfuel)]
    rfl

end Groups

/-! ### Whether the threads are a partition -/

/-- Every comment is in one thread, once, and behind the one it replies to. -/
structure Partition (comments : List ReviewComment) (threads : List (List ReviewComment)) : Prop where
  once : threads.flatten.Perm comments
  after : ∀ thread ∈ threads, ParentFirst ReviewComment.id ReviewComment.parentId comments thread

theorem exists_threads (localeCompare : String → String → Ordering) {comments : List ReviewComment}
    (h : LinkedComments comments) :
    ∃ threads,
      (∀ fuel, comments.length ≤ fuel →
        activeDiffCommentThreads localeCompare fuel comments = some threads) ∧
      (threads.flatten.Perm comments ↔ LastOnly ReviewComment.id ReviewComment.parentId comments) ∧
      ∀ thread ∈ threads,
        ParentFirst ReviewComment.id ReviewComment.parentId comments thread := by
  have htops : Tops ReviewComment.id ReviewComment.parentId comments
      ((groupComments comments).roots.mergeSort fun a b =>
        (compareRoots localeCompare a b).isLE) := by
    rw [Tops, ← roots_groupComments]
    exact List.mergeSort_perm _ _
  obtain ⟨threads, hg, hthreads⟩ := exists_gather h fun c hc => (htops.mem_iff.mp hc).1
  exact ⟨threads, hthreads, gather_perm_iff h hg htops, hg.parentFirst h htops⟩

/-- **When every comment is in a thread.** For every list of comments with
distinct ids whose parent links do not go in circles the grouping ends; its
threads are a partition exactly when only roots and last replies are replied
to. -/
theorem threads_partition_iff (localeCompare : String → String → Ordering)
    (comments : List ReviewComment) (h : LinkedComments comments) :
    ∃ threads,
      (∀ fuel, comments.length ≤ fuel →
        activeDiffCommentThreads localeCompare fuel comments = some threads) ∧
      (Partition comments threads ↔
        LastOnly ReviewComment.id ReviewComment.parentId comments) := by
  obtain ⟨threads, hthreads, honce, hafter⟩ := exists_threads localeCompare h
  exact ⟨threads, hthreads, fun hp => honce.mp hp.once, fun honly => ⟨honce.mpr honly, hafter⟩⟩

/-- The comments of a diff that any run of requests leaves behind, in any
order. -/
theorem linked_talk {w : World} (h : w.Conversing) (events : List CommentEvent) (diff : DiffId)
    {comments : List ReviewComment}
    (hc : comments.Perm ((w.talk events).comments.rows.filter fun c => decide (c.diffId = diff))) :
    LinkedComments comments := by
  have hlinked := (conversing_talk events h).linked
  refine hlinked.subset ?_ fun c hmem => (List.mem_filter.mp (hc.mem_iff.mp hmem)).1
  rw [(hc.map _).nodup_iff]
  exact hlinked.nodup.sublist (List.filter_sublist.map _)

/-- Two answers to comment 40, then one to the first of them. -/
def repliesToFirst : List CommentEvent :=
  [⟨.reply ⟨"bob", "two", 1, 40, 2, "one"⟩, fun n => Fin.ofNat _ (50 + n), []⟩,
    ⟨.reply ⟨"bob", "two", 1, 40, 2, "two"⟩, fun n => Fin.ofNat _ (50 + n), []⟩,
    ⟨.reply ⟨"bob", "two", 1, 51, 2, "three"⟩, fun n => Fin.ofNat _ (50 + n), []⟩]

theorem conversing_twoRepositories : twoRepositories.Conversing := by
  have hrows : twoRepositories.comments.rows =
      [⟨40, 31, ⟨31, 1⟩, ⟨⟨31, 1⟩, 1⟩, 2, none, "", .none, false⟩] := by decide +kernel
  refine ⟨?_, fun c hc p hp => ?_⟩
  · rw [hrows]
    exact Linked.nil.cons List.not_mem_nil fun d hd => by
      rw [List.mem_singleton.mp hd]
      exact fun h => by cases h
  · rw [hrows] at hc
    rw [List.mem_singleton.mp hc] at hp
    cases hp

theorem threads_partition_iff_repliesToFirst : ∃ threads,
    (∀ fuel, ((twoRepositories.talk repliesToFirst).comments.rows.filter fun c =>
        decide (c.diffId = ⟨31, 1⟩)).length ≤ fuel →
      activeDiffCommentThreads (fun _ _ => .eq) fuel
        ((twoRepositories.talk repliesToFirst).comments.rows.filter fun c =>
          decide (c.diffId = ⟨31, 1⟩)) = some threads) ∧
    (Partition ((twoRepositories.talk repliesToFirst).comments.rows.filter fun c =>
        decide (c.diffId = ⟨31, 1⟩)) threads ↔
      LastOnly ReviewComment.id ReviewComment.parentId
        ((twoRepositories.talk repliesToFirst).comments.rows.filter fun c =>
          decide (c.diffId = ⟨31, 1⟩))) :=
  threads_partition_iff _ _
    (linked_talk conversing_twoRepositories repliesToFirst ⟨31, 1⟩ (.refl _))

/-- Comment 53 answers 51, which is not the last answer to 40. -/
theorem not_threads_partition :
    ¬ ∀ (localeCompare : String → String → Ordering) (w : World) (events : List CommentEvent)
      (diff : DiffId) (comments : List ReviewComment), w.Conversing →
      comments.Perm ((w.talk events).comments.rows.filter fun c => decide (c.diffId = diff)) →
      ∃ threads,
        (∀ fuel, comments.length ≤ fuel →
          activeDiffCommentThreads localeCompare fuel comments = some threads) ∧
        Partition comments threads := by
  intro h
  let answer (id parent : Uuid) (body : String) : ReviewComment :=
    ⟨id, 31, ⟨31, 1⟩, ⟨⟨31, 1⟩, 1⟩, 2, some parent, body, .none, false⟩
  let root : ReviewComment := ⟨40, 31, ⟨31, 1⟩, ⟨⟨31, 1⟩, 1⟩, 2, none, "", .none, false⟩
  have hrows : ((twoRepositories.talk repliesToFirst).comments.rows.filter fun c =>
      decide (c.diffId = ⟨31, 1⟩)) =
      [root, answer 51 40 "one", answer 52 40 "two", answer 53 51 "three"] := by decide +kernel
  obtain ⟨threads, hthreads, hpart⟩ :=
    h (fun _ _ => .eq) twoRepositories repliesToFirst ⟨31, 1⟩ _ conversing_twoRepositories (.refl _)
  obtain ⟨threads', hthreads', honce, _⟩ := exists_threads (fun _ _ => .eq)
    (linked_talk conversing_twoRepositories repliesToFirst ⟨31, 1⟩ (.refl _))
  obtain rfl : threads = threads' :=
    Option.some.inj ((hthreads _ le_rfl).symm.trans (hthreads' _ le_rfl))
  have honly := honce.mp hpart.once
  rw [hrows] at honly
  have hlast := honly (answer 51 40 "one") (by decide) (by decide) root (by decide) rfl
  exact absurd hlast (by decide)

end Gitdot
