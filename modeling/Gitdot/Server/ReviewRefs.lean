/-
# The refs that the command line pushes for review

`push_for_review` pushes `HEAD` to `refs/for/<branch>`, for a new review, or to
`refs/for/<branch>/<number>`. The server takes what is behind the last slash for
the number of a review whenever it reads as one (`parse_ref`), and a branch may
end so: a new review for `release/2024` is pushed to the ref of review 2024 for
`release` (`reviewRefspec_collides`).

The server reads what the command line has built exactly if a number is pushed
to or the branch has no last segment that reads as a number
(`review_refs_agree_iff`).

Key definitions: `reviewRefspec`, `pushedRef`, `ReadsAs`, `EndsInNumber`.
Key theorems: `review_refs_agree_iff`, `reviewRefspec_collides`.
-/
import Gitdot.RefNames
import Gitdot.Server.PushedRefs

namespace Gitdot

open Lib Lib.Text

/-- The refspec of `push_for_review`. -/
def reviewRefspec (branch : String) (reviewNumber : Option Int32) : String :=
  match reviewNumber with
  | some number => "HEAD:refs/for/" ++ branch ++ "/" ++ toString number.toInt
  | none => "HEAD:refs/for/" ++ branch

/-- The ref that a push of the refspec is for: what is behind the last colon. -/
def pushedRef (refspec : String) : Option String :=
  (rsplitOnce ':' refspec.toList).map fun sides => String.ofList sides.2

/-- The server reads the branch and the number from the ref that is pushed for them. -/
def ReadsAs (branch : BranchName) (reviewNumber : Option Int32) : Prop :=
  ∃ refName, pushedRef (reviewRefspec branch.name reviewNumber) = some refName ∧
    parseRef refName = .ok (branch.name, reviewNumber.map Int32.toInt)

/-- Behind the last slash of the name is what `parse::<i64>` accepts. -/
def EndsInNumber (branch : String) : Prop :=
  ∃ front numeral, rsplitOnce '/' branch.toList = some (front, numeral) ∧ (parseI64 numeral).isSome

/-- A branch that ends in a number and its front with that number are pushed to one ref. -/
theorem reviewRefspec_collides (branch : String) (number : Int32) :
    reviewRefspec (branch ++ "/" ++ toString number.toInt) none = reviewRefspec branch (some number) := by
  have hassoc : "HEAD:refs/for/" ++ (branch ++ "/" ++ toString number.toInt) =
      "HEAD:refs/for/" ++ branch ++ "/" ++ toString number.toInt := by
    rw [String.append_assoc, String.append_assoc, String.append_assoc]
  exact hassoc

section Refs

variable (branch : BranchName)

/-- What stands behind the colon, if nothing in it is a colon. -/
theorem pushedRef_eq {name : String} (h : ':' ∉ name.toList) :
    pushedRef ("HEAD:refs/for/" ++ name) = some (magicRefPrefix ++ ("/" ++ name)) := by
  have hform : ("HEAD:refs/for/" ++ name).toList =
      "HEAD".toList ++ ':' :: (magicRefPrefix ++ ("/" ++ name)).toList := by
    have hfront : "HEAD:refs/for/".toList = "HEAD".toList ++ ':' :: (magicRefPrefix.toList ++ "/".toList) := by
      decide
    rw [String.toList_append, hfront, String.toList_append, String.toList_append, List.append_assoc,
      List.cons_append, List.append_assoc]
  have hcolon : ':' ∉ (magicRefPrefix ++ ("/" ++ name)).toList := by
    rw [String.toList_append, String.toList_append, List.mem_append, List.mem_append]
    rintro (hmem | hmem | hmem)
    · exact absurd hmem (by decide)
    · exact absurd hmem (by decide)
    · exact h hmem
  have hsplit : rsplitOnce ':' ("HEAD:refs/for/" ++ name).toList =
      some ("HEAD".toList, (magicRefPrefix ++ ("/" ++ name)).toList) :=
    rsplitOnce_eq_some.mpr ⟨hform, hcolon⟩
  rw [pushedRef, hsplit, Option.map_some, String.ofList_toList]

theorem BranchName.colon_not_mem : ':' ∉ branch.name.toList := branch.not_mem (by decide)

/-- The ref of a branch without a number. -/
theorem parseRef_branch :
    parseRef (magicRefPrefix ++ ("/" ++ branch.name)) = .ok (branch.name, none) ↔
      ¬ EndsInNumber branch.name := by
  have hstrip : stripPrefix magicRefPrefix (magicRefPrefix ++ ("/" ++ branch.name)) =
      some ("/" ++ branch.name) := stripPrefix_eq_some.mpr rfl
  have hslash : stripPrefix "/" ("/" ++ branch.name) = some branch.name := stripPrefix_eq_some.mpr rfl
  unfold parseRef EndsInNumber
  rw [hstrip, Option.bind_some, hslash]
  simp only [Option.filter_some, branch.ne_empty, ne_eq, not_false_eq_true, decide_true, if_true]
  cases rsplitOnce '/' branch.name.toList with
  | none => exact iff_of_true rfl fun ⟨front, numeral, hsplit, _⟩ => by cases hsplit
  | some sides =>
    obtain ⟨front, numeral⟩ := sides
    dsimp only
    cases hnumber : parseI64 numeral with
    | none =>
      refine iff_of_true rfl ?_
      rintro ⟨front', numeral', hsplit, hsome⟩
      obtain ⟨rfl, rfl⟩ := Prod.mk.inj (Option.some.inj hsplit)
      rw [hnumber] at hsome
      cases hsome
    | some n =>
      refine iff_of_false (fun h => ?_) fun h => h ⟨front, numeral, rfl, by rw [hnumber]; rfl⟩
      dsimp only at h
      split_ifs at h
      cases congrArg Prod.snd (Except.ok.inj h)

theorem isI64_toInt (number : Int32) : IsI64 number.toInt := by
  have hlo := number.le_toInt
  have hhi := number.toInt_lt
  exact ⟨by omega, by omega⟩

/-- The ref of a branch with a number. -/
theorem readsAs_number (number : Int32) : ReadsAs branch (some number) := by
  have hcolon : ':' ∉ (branch.name ++ "/" ++ toString number.toInt).toList := by
    have hnumber : ':' ∉ (toString number.toInt).toList :=
      not_mem_of_parseI64 (parseI64_toString (isI64_toInt number)) (by decide) (by decide) (by decide)
    rw [String.toList_append, String.toList_append, List.mem_append, List.mem_append]
    rintro ((hmem | hmem) | hmem)
    · exact branch.colon_not_mem hmem
    · exact absurd hmem (by decide)
    · exact hnumber hmem
  refine ⟨magicRefPrefix ++ ("/" ++ (branch.name ++ "/" ++ toString number.toInt)), ?_,
    parseRef_number branch.ne_empty (isI64_toInt number)⟩
  rw [← reviewRefspec_collides]
  exact pushedRef_eq hcolon

theorem readsAs_branch : ReadsAs branch none ↔ ¬ EndsInNumber branch.name := by
  have hpushed : pushedRef (reviewRefspec branch.name none) =
      some (magicRefPrefix ++ ("/" ++ branch.name)) := pushedRef_eq branch.colon_not_mem
  rw [← parseRef_branch branch]
  constructor
  · rintro ⟨refName, href, hparse⟩
    rwa [Option.some.inj (hpushed.symm.trans href)]
  · exact fun hparse => ⟨_, hpushed, hparse⟩

/-- **Review refs.** For every branch and every number. -/
theorem review_refs_agree_iff (branch : BranchName) (reviewNumber : Option Int32) :
    ReadsAs branch reviewNumber ↔ reviewNumber.isSome ∨ ¬ EndsInNumber branch.name := by
  cases reviewNumber with
  | some number => exact iff_of_true (readsAs_number branch number) (.inl rfl)
  | none => rw [Option.isSome_none, or_iff_right Bool.false_ne_true, readsAs_branch]

end Refs

/-! ### A branch that ends in a number -/

def release2024 : BranchName where
  name := "release/2024"
  accepted := {
    slash := by decide
    chars := by decide
    components := by decide
    dots := by decide
    last := by decide
    atBrace := by decide }

theorem not_review_refs_agree :
    ¬ ∀ (branch : BranchName) (reviewNumber : Option Int32), ReadsAs branch reviewNumber := by
  intro h
  refine (readsAs_branch release2024).mp (h release2024 none) ?_
  exact ⟨['r', 'e', 'l', 'e', 'a', 's', 'e'], ['2', '0', '2', '4'], by decide, by decide⟩

end Gitdot
