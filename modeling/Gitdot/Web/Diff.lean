/-
# The hunks of a rendered diff

`diffFiles` reads the hunks of a patch into pairs of line indices, zips the
removals and additions between two context lines (`alignPairs`) and merges
hunks that hide only a few lines between them (`mergeHunks`). The patch is
jsdiff's `structuredPatch` and comes from outside: `CorrectPatch` says what
its documentation promises, a patch of the two texts with four lines of
context around each hunk, fewer only at the ends of the file.

On such a patch the hunks are a correct edit script (`diffFiles_correct`):
`mergeHunks` never meets a missing index, since the hunks it merges end and
begin with context.

Key definitions: `DiffHunk`, `PatchHunk`, `diffFiles`, `alignPairs`,
`mergeHunks`, `CorrectPatch`, `CorrectScript`.
Key theorems: `block_spells`, `block_alignPairs`, `mergeLoop_trail`, `diffFiles_trail`,
`diffFiles_correct`.
-/
import Gitdot.Lib.Alignment

namespace Gitdot

open Lib

/-! ### The code -/

/-- `[number | null, number | null]`. -/
abbrev DiffPair := Facing

structure DiffHunk where
  pairs : List DiffPair
  removedLines : Finset ℕ
  addedLines : Finset ℕ
  deriving DecidableEq

/-- What `diffFiles` reads of a hunk of the patch. Lines are counted from one. -/
structure PatchHunk where
  oldStart : ℕ
  newStart : ℕ
  lines : List (List Char)

/-- The variables of the loop over the lines of a hunk. -/
structure HunkReading where
  oldLine : ℕ
  newLine : ℕ
  pairs : List DiffPair
  removedLines : Finset ℕ
  addedLines : Finset ℕ

def readLine (s : HunkReading) (raw : List Char) : HunkReading :=
  let marker := raw.head?
  if marker = some '-' then
    { s with
      pairs := s.pairs ++ [(some s.oldLine, none)]
      removedLines := insert s.oldLine s.removedLines
      oldLine := s.oldLine + 1 }
  else if marker = some '+' then
    { s with
      pairs := s.pairs ++ [(none, some s.newLine)]
      addedLines := insert s.newLine s.addedLines
      newLine := s.newLine + 1 }
  else if marker = some ' ' then
    { s with
      pairs := s.pairs ++ [(some s.oldLine, some s.newLine)]
      oldLine := s.oldLine + 1
      newLine := s.newLine + 1 }
  else s

/-- The variables of `alignPairs`. -/
structure Aligning where
  result : List DiffPair
  pendingLhs : List ℕ
  pendingRhs : List ℕ

def Aligning.flush (s : Aligning) : Aligning :=
  { result := s.result ++ (List.range (max s.pendingLhs.length s.pendingRhs.length)).map
      fun i => (s.pendingLhs[i]?, s.pendingRhs[i]?)
    pendingLhs := []
    pendingRhs := [] }

def Aligning.step (s : Aligning) : DiffPair → Aligning
  | (some l, some r) => { s.flush with result := s.flush.result ++ [(some l, some r)] }
  | (some l, none) => { s with pendingLhs := s.pendingLhs ++ [l] }
  | (none, some r) => { s with pendingRhs := s.pendingRhs ++ [r] }
  | (none, none) => s

def alignPairs (pairs : List DiffPair) : List DiffPair :=
  (pairs.foldl Aligning.step ⟨[], [], []⟩).flush.result

def readHunk (hunk : PatchHunk) : DiffHunk :=
  let s := hunk.lines.foldl readLine ⟨hunk.oldStart - 1, hunk.newStart - 1, [], ∅, ∅⟩
  ⟨alignPairs s.pairs, s.removedLines, s.addedLines⟩

def mergeThreshold : ℤ := 8

/-- The loop of `mergeHunks`: `result` is `done` with `prev` behind it. Taking
apart the pair of a hunk that has none throws, and an index that is `null`
counts as zero in the arithmetic. -/
def mergeLoop (done : List DiffHunk) (prev : DiffHunk) : List DiffHunk → Option (List DiffHunk)
  | [] => some (done ++ [prev])
  | next :: hunks =>
    match prev.pairs.getLast?, next.pairs.head? with
    | some (prevL, prevR), some (nextL, _) =>
      let gap : ℤ := nextL.getD 0 - prevL.getD 0 - 1
      if gap ≤ 0 ∨ mergeThreshold < gap then mergeLoop (done ++ [prev]) next hunks
      else
        let fill : List DiffPair := (List.range gap.toNat).map fun k =>
          (some (prevL.getD 0 + (k + 1)), some (prevR.getD 0 + (k + 1)))
        mergeLoop done
          { pairs := prev.pairs ++ fill ++ next.pairs
            removedLines := prev.removedLines ∪ next.removedLines
            addedLines := prev.addedLines ∪ next.addedLines } hunks
    | _, _ => none

def mergeHunks : List DiffHunk → Option (List DiffHunk)
  | [] => some []
  | hunk :: hunks => mergeLoop [] hunk hunks

/-- `diffFiles`, where `structuredPatch` is jsdiff's with four lines of
context. -/
def diffFiles (structuredPatch : List Char → List Char → List PatchHunk)
    (leftContent rightContent : List Char) : Option (List DiffHunk) :=
  mergeHunks ((structuredPatch leftContent rightContent).map readHunk)

/-! ### A correct patch -/

/-- The lines of a text, each with the newline that ends it. -/
def splitLines : List Char → List (List Char)
  | [] => []
  | c :: text =>
    if c = '\n' then [c] :: splitLines text
    else
      match splitLines text with
      | [] => [[c]]
      | line :: lines => (c :: line) :: lines

/-- A line without its newline, as a patch has it. -/
def chomp (line : List Char) : List Char :=
  if line.getLast? = some '\n' then line.dropLast else line

/-- The lines of a hunk spell the way through the two texts from line `i` and
line `j` to `i'` and `j'`. -/
inductive Spells (L R : List (List Char)) : ℕ → ℕ → List (List Char) → ℕ → ℕ → Prop where
  | nil (i j) : Spells L R i j [] i j
  | keep {i j i' j' line raws} (hl : L[i]? = some line) (hr : R[j]? = some line)
    (h : Spells L R (i + 1) (j + 1) raws i' j') : Spells L R i j ((' ' :: chomp line) :: raws) i' j'
  | remove {i j i' j' line raws} (hl : L[i]? = some line) (h : Spells L R (i + 1) j raws i' j') :
    Spells L R i j (('-' :: chomp line) :: raws) i' j'
  | add {i j i' j' line raws} (hr : R[j]? = some line) (h : Spells L R i (j + 1) raws i' j') :
    Spells L R i j (('+' :: chomp line) :: raws) i' j'
  | noNewline {i j i' j' raws} (h : Spells L R i j raws i' j') :
    Spells L R i j ("\\ No newline at end of file".toList :: raws) i' j'

def IsContext (raw : List Char) : Prop := raw.head? = some ' '

instance (raw : List Char) : Decidable (IsContext raw) :=
  inferInstanceAs (Decidable (raw.head? = some ' '))

/-- A line that is no remark on the one before it. -/
def IsLine (raw : List Char) : Prop := raw.head? ≠ some '\\'

instance (raw : List Char) : Decidable (IsLine raw) :=
  inferInstanceAs (Decidable (raw.head? ≠ some '\\'))

/-- The lines of context at the start of a hunk. -/
def leadingContext (raws : List (List Char)) : ℕ :=
  (raws.takeWhile fun raw => decide (IsContext raw)).length

/-- The lines of context at its end. -/
def trailingContext (raws : List (List Char)) : ℕ :=
  ((raws.filter fun raw => decide (IsLine raw)).reverse.takeWhile
    fun raw => decide (IsContext raw)).length

/-- The hunks are in order, the lines between them agree, each has a change and
four lines of context on either side, fewer only at the ends of the texts. -/
inductive CorrectPatch (L R : List (List Char)) : ℕ → ℕ → List PatchHunk → Prop where
  | done {i j g} (hsame : SameStretch L R i j g) (hl : i + g = L.length) (hr : j + g = R.length) :
    CorrectPatch L R i j []
  | hunk {i j g i' j' hunk hunks} (hsame : SameStretch L R i j g)
    (hold : hunk.oldStart = i + g + 1) (hnew : hunk.newStart = j + g + 1)
    (hlines : Spells L R (i + g) (j + g) hunk.lines i' j')
    (hchange : ∃ raw ∈ hunk.lines, raw.head? = some '-' ∨ raw.head? = some '+')
    (hlead : 4 ≤ leadingContext hunk.lines ∨ (i + g = 0 ∧ j + g = 0))
    (htrail : 4 ≤ trailingContext hunk.lines ∨ (i' = L.length ∧ j' = R.length))
    (hrest : CorrectPatch L R i' j' hunks) : CorrectPatch L R i j (hunk :: hunks)

/-- The lines that a hunk of a patch removes, from line `i` on. -/
def removedFrom : ℕ → List (List Char) → List ℕ
  | _, [] => []
  | i, raw :: raws =>
    if raw.head? = some '-' then i :: removedFrom (i + 1) raws
    else if raw.head? = some ' ' then removedFrom (i + 1) raws
    else removedFrom i raws

/-- The lines that it adds, from line `j` on. -/
def addedFrom : ℕ → List (List Char) → List ℕ
  | _, [] => []
  | j, raw :: raws =>
    if raw.head? = some '+' then j :: addedFrom (j + 1) raws
    else if raw.head? = some ' ' then addedFrom (j + 1) raws
    else addedFrom j raws

/-- The lines a patch removes. -/
def removedBy (patch : List PatchHunk) : List ℕ :=
  patch.flatMap fun hunk => removedFrom (hunk.oldStart - 1) hunk.lines

/-- The lines it adds. -/
def addedBy (patch : List PatchHunk) : List ℕ :=
  patch.flatMap fun hunk => addedFrom (hunk.newStart - 1) hunk.lines

/-! ### Reading a hunk -/

/-- The pairs that the lines of a hunk are read into. -/
def pairsFrom : ℕ → ℕ → List (List Char) → List DiffPair
  | _, _, [] => []
  | i, j, raw :: raws =>
    if raw.head? = some '-' then (some i, none) :: pairsFrom (i + 1) j raws
    else if raw.head? = some '+' then (none, some j) :: pairsFrom i (j + 1) raws
    else if raw.head? = some ' ' then (some i, some j) :: pairsFrom (i + 1) (j + 1) raws
    else pairsFrom i j raws

theorem foldl_readLine : ∀ (raws : List (List Char)) (s : HunkReading),
    (raws.foldl readLine s).pairs = s.pairs ++ pairsFrom s.oldLine s.newLine raws ∧
    (raws.foldl readLine s).removedLines =
      s.removedLines ∪ (removedFrom s.oldLine raws).toFinset ∧
    (raws.foldl readLine s).addedLines = s.addedLines ∪ (addedFrom s.newLine raws).toFinset
  | [], s => by simp [pairsFrom, removedFrom, addedFrom]
  | raw :: raws, s => by
    obtain ⟨hpairs, hremoved, hadded⟩ := foldl_readLine raws (readLine s raw)
    rw [List.foldl_cons, hpairs, hremoved, hadded]
    rw [pairsFrom, removedFrom, addedFrom]
    unfold readLine
    by_cases hminus : raw.head? = some '-'
    · simp [hminus]
    by_cases hplus : raw.head? = some '+'
    · simp [hplus]
    by_cases hspace : raw.head? = some ' '
    · simp [hspace]
    · simp [hminus, hplus, hspace]

section Spelled

variable {L R : List (List Char)} {i j i' j' : ℕ} {raws : List (List Char)}

/-- What a hunk spells is a block of the two texts. -/
theorem block_spells (h : Spells L R i j raws i' j') (hi : i ≤ L.length) (hj : j ≤ R.length) :
    ∃ a b, i' = i + a ∧ j' = j + b ∧
      Block L R (removedFrom i raws).toFinset (addedFrom j raws).toFinset (pairsFrom i j raws)
        i j a b := by
  induction h with
  | nil i j => exact ⟨0, 0, rfl, rfl, .empty hi hj⟩
  | @keep i j i' j' line raws hl hr h ih =>
    have hil := (List.getElem?_eq_some_iff.mp hl).1
    have hjr := (List.getElem?_eq_some_iff.mp hr).1
    obtain ⟨a, b, rfl, rfl, hb⟩ := ih hil hjr
    have hone : SameStretch L R i j 1 := ⟨hil, hjr, fun k hk => by
      obtain rfl : k = 0 := by omega
      rw [Nat.add_zero, Nat.add_zero, hl, hr]⟩
    refine ⟨1 + a, 1 + b, by omega, by omega, ?_⟩
    have := (Block.same hone).append hb
    simpa [removedFrom, addedFrom, pairsFrom] using this
  | @remove i j i' j' line raws hl h ih =>
    have hil := (List.getElem?_eq_some_iff.mp hl).1
    obtain ⟨a, b, rfl, rfl, hb⟩ := ih hil hj
    refine ⟨1 + a, 0 + b, by omega, by omega, ?_⟩
    have := (Block.remove hil hj).append (hb : Block L R _ _ _ (i + 1) (j + 0) a b)
    simpa [removedFrom, addedFrom, pairsFrom] using this
  | @add i j i' j' line raws hr h ih =>
    have hjr := (List.getElem?_eq_some_iff.mp hr).1
    obtain ⟨a, b, rfl, rfl, hb⟩ := ih hi hjr
    refine ⟨0 + a, 1 + b, by omega, by omega, ?_⟩
    have := (Block.add hi hjr).append (hb : Block L R _ _ _ (i + 0) (j + 1) a b)
    simpa [removedFrom, addedFrom, pairsFrom] using this
  | @noNewline i j i' j' raws h ih =>
    obtain ⟨a, b, rfl, rfl, hb⟩ := ih hi hj
    refine ⟨a, b, rfl, rfl, ?_⟩
    simpa [removedFrom, addedFrom, pairsFrom] using hb

/-- A hunk that begins with context begins with a pair. -/
theorem head?_pairsFrom (h : 0 < leadingContext raws) :
    (pairsFrom i j raws).head? = some (some i, some j) := by
  cases raws with
  | nil => simp [leadingContext] at h
  | cons raw raws =>
    have hraw : IsContext raw := by
      by_contra hno
      simp [leadingContext, hno] at h
    have hhead : raw.head? = some ' ' := hraw
    simp [pairsFrom, hhead]

theorem Spells.le (h : Spells L R i j raws i' j') : i ≤ i' ∧ j ≤ j' := by
  induction h with
  | nil i j => exact ⟨le_rfl, le_rfl⟩
  | keep _ _ _ ih => omega
  | remove _ _ ih => omega
  | add _ _ ih => omega
  | noNewline _ ih => exact ih

/-- A hunk with a change shows a line. -/
theorem Spells.moves (h : Spells L R i j raws i' j')
    (hchange : ∃ raw ∈ raws, raw.head? = some '-' ∨ raw.head? = some '+') :
    i + j < i' + j' := by
  induction h with
  | nil i j =>
    obtain ⟨_, h, _⟩ := hchange
    cases h
  | keep _ _ h _ => have := h.le; omega
  | remove _ h _ => have := h.le; omega
  | add _ h _ => have := h.le; omega
  | noNewline _ ih =>
    obtain ⟨raw, hmem, hraw⟩ := hchange
    rcases List.mem_cons.mp hmem with rfl | hmem
    · rcases hraw with hraw | hraw <;> cases hraw
    · exact ih ⟨raw, hmem, hraw⟩

theorem Spells.filter_nil (h : Spells L R i j raws i' j')
    (hnil : raws.filter (fun raw => decide (IsLine raw)) = []) :
    i' = i ∧ j' = j ∧ pairsFrom i j raws = [] := by
  induction h with
  | nil i j => exact ⟨rfl, rfl, rfl⟩
  | keep _ _ _ _ => simp [IsLine] at hnil
  | remove _ _ _ => simp [IsLine] at hnil
  | add _ _ _ => simp [IsLine] at hnil
  | noNewline _ ih =>
    obtain ⟨hi, hj, hp⟩ := ih (by simpa [IsLine] using hnil)
    exact ⟨hi, hj, by simpa [pairsFrom] using hp⟩

theorem getLast?_cons_cases {β : Type} {x y : β} {l : List β} (h : (x :: l).getLast? = some y) :
    l = [] ∧ x = y ∨ l.getLast? = some y := by
  rw [List.getLast?_cons] at h
  cases hl : l.getLast? with
  | none =>
    rw [hl] at h
    exact .inl ⟨List.getLast?_eq_none_iff.mp hl, Option.some.inj h⟩
  | some z =>
    rw [hl] at h
    exact .inr h

theorem getLast?_cons_of_some {β : Type} {x y : β} {l : List β} (h : l.getLast? = some y) :
    (x :: l).getLast? = some y := by
  rw [List.getLast?_cons, h]
  rfl

/-- The last line of a hunk, if it is context, is its last pair. -/
theorem Spells.last (h : Spells L R i j raws i' j') {last : List Char}
    (hlast : (raws.filter fun raw => decide (IsLine raw)).getLast? = some last)
    (hctx : IsContext last) :
    ∃ l r, (pairsFrom i j raws).getLast? = some (some l, some r) ∧ l + 1 = i' ∧ r + 1 = j' := by
  induction h with
  | nil i j => cases hlast
  | @keep i j i' j' line raws hl hr h ih =>
    have hpairs : pairsFrom i j ((' ' :: chomp line) :: raws) =
        (some i, some j) :: pairsFrom (i + 1) (j + 1) raws := by simp [pairsFrom]
    rw [List.filter_cons_of_pos (by simp [IsLine])] at hlast
    rw [hpairs]
    rcases getLast?_cons_cases hlast with ⟨hnil, _⟩ | hrest
    · obtain ⟨rfl, rfl, hp⟩ := h.filter_nil hnil
      rw [hp]
      exact ⟨i, j, rfl, rfl, rfl⟩
    · obtain ⟨l, r, hp, hi, hj⟩ := ih hrest
      exact ⟨l, r, getLast?_cons_of_some hp, hi, hj⟩
  | @remove i j i' j' line raws hl h ih =>
    have hpairs : pairsFrom i j (('-' :: chomp line) :: raws) =
        (some i, none) :: pairsFrom (i + 1) j raws := by simp [pairsFrom]
    rw [List.filter_cons_of_pos (by simp [IsLine])] at hlast
    rw [hpairs]
    rcases getLast?_cons_cases hlast with ⟨_, rfl⟩ | hrest
    · cases hctx
    · obtain ⟨l, r, hp, hi, hj⟩ := ih hrest
      exact ⟨l, r, getLast?_cons_of_some hp, hi, hj⟩
  | @add i j i' j' line raws hr h ih =>
    have hpairs : pairsFrom i j (('+' :: chomp line) :: raws) =
        (none, some j) :: pairsFrom i (j + 1) raws := by simp [pairsFrom]
    rw [List.filter_cons_of_pos (by simp [IsLine])] at hlast
    rw [hpairs]
    rcases getLast?_cons_cases hlast with ⟨_, rfl⟩ | hrest
    · cases hctx
    · obtain ⟨l, r, hp, hi, hj⟩ := ih hrest
      exact ⟨l, r, getLast?_cons_of_some hp, hi, hj⟩
  | noNewline _ ih =>
    obtain ⟨l, r, hp, hi, hj⟩ := ih (by simpa [IsLine] using hlast)
    exact ⟨l, r, by simpa [pairsFrom] using hp, hi, hj⟩

/-- A hunk that ends with context ends with a pair. -/
theorem getLast?_pairsFrom (h : Spells L R i j raws i' j') (hpos : 0 < trailingContext raws) :
    ∃ l r, (pairsFrom i j raws).getLast? = some (some l, some r) ∧ l + 1 = i' ∧ r + 1 = j' := by
  unfold trailingContext at hpos
  cases hlast : (raws.filter fun raw => decide (IsLine raw)).getLast? with
  | none =>
    rw [List.getLast?_eq_none_iff.mp hlast] at hpos
    exact absurd hpos (lt_irrefl 0)
  | some last =>
    refine h.last hlast ?_
    obtain ⟨init, hinit⟩ := List.getLast?_eq_some_iff.mp hlast
    by_contra hno
    rw [hinit] at hpos
    simp [hno] at hpos

end Spelled

/-! ### Zipping the changes -/

theorem filterMap_range_getElem? {β : Type} (l : List β) : ∀ (n : ℕ), l.length ≤ n →
    (List.range n).filterMap (fun i => l[i]?) = l := by
  induction l with
  | nil => intro n _; simp
  | cons x l ih =>
    intro n hn
    obtain ⟨n, rfl⟩ := Nat.exists_eq_add_of_le' (Nat.le_trans (Nat.le_add_left 1 l.length) hn)
    rw [List.range_succ_eq_map, List.filterMap_cons, List.filterMap_map]
    have := ih n (by simpa using hn)
    simpa [Function.comp_def] using this

/-- What the loop of `alignPairs` keeps: on each side the indices taken in so
far, in their order, those of the change that is open pending. -/
structure AlignInv (seen : List DiffPair) (s : Aligning) : Prop where
  left : lefts s.result ++ s.pendingLhs = lefts seen
  right : rights s.result ++ s.pendingRhs = rights seen
  paired : ∀ l r, (some l, some r) ∈ s.result →
    (some l, some r) ∈ seen ∨ (some l, none) ∈ seen ∧ (none, some r) ∈ seen
  onlyLeft : ∀ l, (some l, none) ∈ s.result → (some l, none) ∈ seen
  onlyRight : ∀ r, (none, some r) ∈ s.result → (none, some r) ∈ seen
  pendingLhs : ∀ l ∈ s.pendingLhs, (some l, none) ∈ seen
  pendingRhs : ∀ r ∈ s.pendingRhs, (none, some r) ∈ seen

namespace AlignInv

variable {seen : List DiffPair} {s : Aligning}

theorem flush (h : AlignInv seen s) : AlignInv seen s.flush where
  left := by
    rw [← h.left]
    simp only [Aligning.flush, lefts_append, List.append_nil]
    congr 1
    rw [lefts, List.filterMap_map]
    exact filterMap_range_getElem? _ _ (le_max_left _ _)
  right := by
    rw [← h.right]
    simp only [Aligning.flush, rights_append, List.append_nil]
    congr 1
    rw [rights, List.filterMap_map]
    exact filterMap_range_getElem? _ _ (le_max_right _ _)
  paired := fun l r hp => by
    rcases List.mem_append.mp hp with hp | hp
    · exact h.paired l r hp
    · obtain ⟨k, _, heq⟩ := List.mem_map.mp hp
      obtain ⟨hl, hr⟩ := Prod.mk.inj heq
      exact .inr ⟨h.pendingLhs l (List.mem_of_getElem? hl), h.pendingRhs r (List.mem_of_getElem? hr)⟩
  onlyLeft := fun l hp => by
    rcases List.mem_append.mp hp with hp | hp
    · exact h.onlyLeft l hp
    · obtain ⟨k, _, heq⟩ := List.mem_map.mp hp
      exact h.pendingLhs l (List.mem_of_getElem? (Prod.mk.inj heq).1)
  onlyRight := fun r hp => by
    rcases List.mem_append.mp hp with hp | hp
    · exact h.onlyRight r hp
    · obtain ⟨k, _, heq⟩ := List.mem_map.mp hp
      exact h.pendingRhs r (List.mem_of_getElem? (Prod.mk.inj heq).2)
  pendingLhs := fun _ h => absurd h List.not_mem_nil
  pendingRhs := fun _ h => absurd h List.not_mem_nil

/-- What has come from the pairs seen has come from them and another one. -/
theorem sources (h : AlignInv seen s) (p : DiffPair) :
    (∀ l r, (some l, some r) ∈ s.result → (some l, some r) ∈ seen ++ [p] ∨
      (some l, none) ∈ seen ++ [p] ∧ (none, some r) ∈ seen ++ [p]) ∧
    (∀ l, (some l, none) ∈ s.result → (some l, none) ∈ seen ++ [p]) ∧
    (∀ r, (none, some r) ∈ s.result → (none, some r) ∈ seen ++ [p]) ∧
    (∀ l ∈ s.pendingLhs, (some l, none) ∈ seen ++ [p]) ∧
    ∀ r ∈ s.pendingRhs, (none, some r) ∈ seen ++ [p] := by
  have old : ∀ {q : DiffPair}, q ∈ seen → q ∈ seen ++ [p] := fun hq => List.mem_append_left _ hq
  exact ⟨fun l r hp => (h.paired l r hp).imp old fun hs => ⟨old hs.1, old hs.2⟩,
    fun l hp => old (h.onlyLeft l hp), fun r hp => old (h.onlyRight r hp),
    fun l hp => old (h.pendingLhs l hp), fun r hp => old (h.pendingRhs r hp)⟩

theorem step (h : AlignInv seen s) (p : DiffPair) : AlignInv (seen ++ [p]) (s.step p) := by
  have new : p ∈ seen ++ [p] := List.mem_append_right _ List.mem_cons_self
  obtain ⟨hpaired, honlyLeft, honlyRight, hpendingLhs, hpendingRhs⟩ := h.sources p
  obtain ⟨l, r⟩ := p
  cases l with
  | none =>
    cases r with
    | none =>
      exact ⟨by simpa [lefts, Aligning.step] using h.left, by simpa [rights, Aligning.step] using h.right,
        hpaired, honlyLeft, honlyRight, hpendingLhs, hpendingRhs⟩
    | some r =>
      refine ⟨by simpa [lefts, Aligning.step] using h.left, ?_, hpaired, honlyLeft, honlyRight,
        hpendingLhs, fun x hp => ?_⟩
      · rw [rights_append, ← h.right, Aligning.step, List.append_assoc]
        rfl
      · rcases List.mem_append.mp hp with hp | hp
        · exact hpendingRhs x hp
        · rw [List.mem_singleton.mp hp]
          exact new
  | some l =>
    cases r with
    | none =>
      refine ⟨?_, by simpa [rights, Aligning.step] using h.right, hpaired, honlyLeft, honlyRight,
        fun x hp => ?_, hpendingRhs⟩
      · rw [lefts_append, ← h.left, Aligning.step, List.append_assoc]
        rfl
      · rcases List.mem_append.mp hp with hp | hp
        · exact hpendingLhs x hp
        · rw [List.mem_singleton.mp hp]
          exact new
    | some r =>
      -- the pending change is zipped first, and then the pair itself is shown
      have hf := h.flush
      have hleft : lefts s.flush.result = lefts seen := by simpa [Aligning.flush] using hf.left
      have hright : rights s.flush.result = rights seen := by simpa [Aligning.flush] using hf.right
      obtain ⟨hpaired, honlyLeft, honlyRight, hpendingLhs, hpendingRhs⟩ := hf.sources (some l, some r)
      refine ⟨?_, ?_, fun x y hp => ?_, fun x hp => ?_, fun y hp => ?_, hpendingLhs, hpendingRhs⟩
      · rw [Aligning.step, lefts_append, lefts_append, hleft]
        exact List.append_nil _
      · rw [Aligning.step, rights_append, rights_append, hright]
        exact List.append_nil _
      · rcases List.mem_append.mp hp with hp | hp
        · exact hpaired x y hp
        · rw [List.mem_singleton.mp hp]
          exact .inl new
      · rcases List.mem_append.mp hp with hp | hp
        · exact honlyLeft x hp
        · cases List.mem_singleton.mp hp
      · rcases List.mem_append.mp hp with hp | hp
        · exact honlyRight y hp
        · cases List.mem_singleton.mp hp

theorem foldl : ∀ (pairs : List DiffPair) {seen : List DiffPair} {s : Aligning}, AlignInv seen s →
    AlignInv (seen ++ pairs) (pairs.foldl Aligning.step s)
  | [], seen, s, h => by rwa [List.append_nil]
  | p :: pairs, seen, s, h => by
    have := foldl pairs (h.step p)
    rwa [List.append_assoc] at this

end AlignInv

theorem alignInv_alignPairs (pairs : List DiffPair) :
    AlignInv pairs (pairs.foldl Aligning.step ⟨[], [], []⟩).flush := by
  have hstart : AlignInv [] ⟨[], [], []⟩ := ⟨rfl, rfl, fun _ _ h => absurd h List.not_mem_nil,
    fun _ h => absurd h List.not_mem_nil, fun _ h => absurd h List.not_mem_nil,
    fun _ h => absurd h List.not_mem_nil, fun _ h => absurd h List.not_mem_nil⟩
  exact (AlignInv.foldl pairs hstart).flush

/-- Zipping shows the same block. -/
theorem block_alignPairs {L R : List (List Char)} {removed added : Finset ℕ} {pairs : List DiffPair}
    {i j a b : ℕ} (h : Block L R removed added pairs i j a b) :
    Block L R removed added (alignPairs pairs) i j a b := by
  have hinv := alignInv_alignPairs pairs
  have hleft := hinv.left
  have hright := hinv.right
  rw [show (pairs.foldl Aligning.step ⟨[], [], []⟩).flush.pendingLhs = [] from rfl,
    List.append_nil] at hleft
  rw [show (pairs.foldl Aligning.step ⟨[], [], []⟩).flush.pendingRhs = [] from rfl,
    List.append_nil] at hright
  exact h.rearrange hleft hright hinv.paired hinv.onlyLeft hinv.onlyRight

/-- What is in the result stays at its start. -/
theorem result_foldl : ∀ (pairs : List DiffPair) (s : Aligning),
    ∃ more, (pairs.foldl Aligning.step s).flush.result = s.result ++ more
  | [], s => ⟨_, rfl⟩
  | p :: pairs, s => by
    obtain ⟨more, h⟩ := result_foldl pairs (s.step p)
    have hstep : ∃ new, (s.step p).result = s.result ++ new := by
      rcases p with ⟨_ | l, _ | r⟩
      · exact ⟨[], (List.append_nil _).symm⟩
      · exact ⟨[], (List.append_nil _).symm⟩
      · exact ⟨[], (List.append_nil _).symm⟩
      · exact ⟨_, by rw [Aligning.step, Aligning.flush, List.append_assoc]⟩
    obtain ⟨new, hnew⟩ := hstep
    exact ⟨new ++ more, by rw [List.foldl_cons, h, hnew, List.append_assoc]⟩

/-- A pair of context at the start stays there. -/
theorem head?_alignPairs {pairs : List DiffPair} {l r : ℕ}
    (h : pairs.head? = some (some l, some r)) :
    (alignPairs pairs).head? = some (some l, some r) := by
  cases pairs with
  | nil => cases h
  | cons p pairs =>
    obtain rfl : p = (some l, some r) := Option.some.inj h
    obtain ⟨more, hmore⟩ := result_foldl pairs (Aligning.step ⟨[], [], []⟩ (some l, some r))
    rw [alignPairs, List.foldl_cons, hmore]
    rfl

/-- A pair of context at the end stays there. -/
theorem getLast?_alignPairs {pairs : List DiffPair} {l r : ℕ}
    (h : pairs.getLast? = some (some l, some r)) :
    (alignPairs pairs).getLast? = some (some l, some r) := by
  obtain ⟨init, rfl⟩ := List.getLast?_eq_some_iff.mp h
  rw [alignPairs, List.foldl_append, List.foldl_cons, List.foldl_nil]
  show (_ ++ [(some l, some r)] ++ []).getLast? = _
  rw [List.append_nil, List.getLast?_append]
  rfl

/-! ### Merging hunks -/

section Merging

variable {L R : List (List Char)} {i j : ℕ}

/-- A hunk that shows `a` lines from `i` and `b` lines from `j`. -/
abbrev DiffHunk.Shows (L R : List (List Char)) (hunk : DiffHunk) (i j a b : ℕ) : Prop :=
  Block L R hunk.removedLines hunk.addedLines hunk.pairs i j a b

/-- The way through both texts by hunks. -/
abbrev DiffTrail (L R : List (List Char)) (i j : ℕ) (hunks : List DiffHunk) : Prop :=
  Trail L R DiffHunk.pairs DiffHunk.removedLines DiffHunk.addedLines i j hunks

/-- The hunk ends with a pair, or the texts do. -/
def DiffHunk.EndsAt (L R : List (List Char)) (hunk : DiffHunk) (i j : ℕ) : Prop :=
  (∃ l r, hunk.pairs.getLast? = some (some l, some r) ∧ l + 1 = i ∧ r + 1 = j) ∨
    i = L.length ∧ j = R.length

/-- The hunks before they are merged: each begins and ends with a pair, except
where the texts do. -/
inductive Pieces (L R : List (List Char)) : ℕ → ℕ → List DiffHunk → Prop where
  | last {i j g} (hsame : SameStretch L R i j g) (hl : i + g = L.length) (hr : j + g = R.length) :
    Pieces L R i j []
  | next {i j g a b hunk hunks} (hsame : SameStretch L R i j g)
    (hshows : hunk.Shows L R (i + g) (j + g) a b) (hmoves : 0 < a + b)
    (hstarts : hunk.pairs.head? = some (some (i + g), some (j + g)) ∨ i + j = 0)
    (hends : hunk.EndsAt L R (i + g + a) (j + g + b))
    (hrest : Pieces L R (i + g + a) (j + g + b) hunks) : Pieces L R i j (hunk :: hunks)

theorem readHunk_eq (hunk : PatchHunk) : readHunk hunk =
    ⟨alignPairs (pairsFrom (hunk.oldStart - 1) (hunk.newStart - 1) hunk.lines),
      (removedFrom (hunk.oldStart - 1) hunk.lines).toFinset,
      (addedFrom (hunk.newStart - 1) hunk.lines).toFinset⟩ := by
  obtain ⟨hpairs, hremoved, hadded⟩ :=
    foldl_readLine hunk.lines ⟨hunk.oldStart - 1, hunk.newStart - 1, [], ∅, ∅⟩
  rw [readHunk, hpairs, hremoved, hadded, List.nil_append, Finset.empty_union, Finset.empty_union]

theorem pieces_readHunk {patch : List PatchHunk} (h : CorrectPatch L R i j patch) :
    Pieces L R i j (patch.map readHunk) := by
  induction h with
  | done hsame hl hr => exact .last hsame hl hr
  | @hunk i j g i' j' hunk hunks hsame hold hnew hlines hchange hlead htrail hrest ih =>
    obtain ⟨a, b, rfl, rfl, hblock⟩ := block_spells hlines hsame.left hsame.right
    have hmoves := hlines.moves hchange
    have hold : hunk.oldStart - 1 = i + g := by omega
    have hnew : hunk.newStart - 1 = j + g := by omega
    rw [List.map_cons, readHunk_eq, hold, hnew]
    refine .next hsame (block_alignPairs hblock) (by omega) ?_ ?_ ih
    · rcases hlead with hlead | ⟨hi, hj⟩
      · exact .inl (head?_alignPairs (head?_pairsFrom (by omega)))
      · exact .inr (by omega)
    · rcases htrail with htrail | hend
      · obtain ⟨l, r, hlast, hl, hr⟩ := getLast?_pairsFrom hlines (by omega)
        exact .inl ⟨l, r, getLast?_alignPairs hlast, hl, hr⟩
      · exact .inr hend

/-- **Merging keeps the way.** Behind what is done, the loop leaves a trail
from where its last hunk is reached, with the same changes. -/
theorem mergeLoop_trail : ∀ (hunks done : List DiffHunk) (prev : DiffHunk) {i j g a b : ℕ},
    SameStretch L R i j g → prev.Shows L R (i + g) (j + g) a b → 0 < a + b →
    prev.EndsAt L R (i + g + a) (j + g + b) → Pieces L R (i + g + a) (j + g + b) hunks →
    ∃ out, mergeLoop done prev hunks = some (done ++ out) ∧ DiffTrail L R i j out ∧
      unionOf DiffHunk.removedLines out = unionOf DiffHunk.removedLines (prev :: hunks) ∧
      unionOf DiffHunk.addedLines out = unionOf DiffHunk.addedLines (prev :: hunks)
  | [], done, prev, i, j, g, a, b, hsame, hshows, _, _, .last hsame' hl hr =>
    ⟨[prev], rfl, .next hsame hshows (.last hsame' hl hr), rfl, rfl⟩
  | next :: hunks, done, prev, i, j, g, a, b, hsame, hshows, hmoves, hends,
    .next (g := g') (a := a') (b := b') hsame' hshows' hmoves' hstarts' hends' hrest' => by
    have hin := hshows'.inLeft
    have hin' := hshows'.inRight
    rcases hends with ⟨l, r, hlast, hl, hr⟩ | ⟨hl, hr⟩
    swap
    · omega
    have hhead := hstarts'.resolve_right (by omega)
    have hgap : ((i + g + a + g' : ℕ) : ℤ) - (l : ℕ) - 1 = (g' : ℤ) := by omega
    unfold mergeLoop
    simp only [hlast, hhead, Option.getD_some, hgap]
    split_ifs with hfar
    · obtain ⟨out, hout, htrail, hremoved, hadded⟩ :=
        mergeLoop_trail hunks (done ++ [prev]) next hsame' hshows' hmoves' hends' hrest'
      refine ⟨prev :: out, by rw [hout, List.append_assoc]; rfl, .next hsame hshows htrail, ?_, ?_⟩
      · exact congrArg (prev.removedLines ∪ ·) hremoved
      · exact congrArg (prev.addedLines ∪ ·) hadded
    · have hfill : (List.range (g' : ℤ).toNat).map (fun k =>
            ((some (l + (k + 1)), some (r + (k + 1))) : DiffPair)) =
          (List.range g').map fun k => (some (i + g + a + k), some (j + g + b + k)) := by
        rw [Int.toNat_natCast]
        refine List.map_congr_left fun k _ => ?_
        rw [← hl, ← hr]
        simp only [Prod.mk.injEq, Option.some.injEq]
        omega
      have hmerged := hshows.append ((Block.same hsame').append hshows')
      rw [Finset.empty_union, Finset.empty_union, ← List.append_assoc, ← hfill] at hmerged
      have hi : i + g + (a + (g' + a')) = i + g + a + g' + a' := by omega
      have hj : j + g + (b + (g' + b')) = j + g + b + g' + b' := by omega
      obtain ⟨out, hout, htrail, hremoved, hadded⟩ := mergeLoop_trail hunks done
        (⟨prev.pairs ++ (List.range (g' : ℤ).toNat).map (fun k =>
            ((some (l + (k + 1)), some (r + (k + 1))) : DiffPair)) ++ next.pairs,
          prev.removedLines ∪ next.removedLines, prev.addedLines ∪ next.addedLines⟩ : DiffHunk)
        hsame hmerged (by omega) (by
          rw [hi, hj]
          rcases hends' with ⟨l', r', hlast', hl', hr'⟩ | hend
          · refine .inl ⟨l', r', ?_, hl', hr'⟩
            rw [List.getLast?_append, hlast']
            rfl
          · exact .inr hend) (by rwa [hi, hj])
      refine ⟨out, hout, htrail, hremoved.trans ?_, hadded.trans ?_⟩
      · exact Finset.union_assoc _ _ _
      · exact Finset.union_assoc _ _ _

/-- The hunks of a correct patch are a trail with its changes. -/
theorem diffFiles_trail {structuredPatch : List Char → List Char → List PatchHunk}
    {left right : List Char}
    (h : CorrectPatch (splitLines left) (splitLines right) 0 0 (structuredPatch left right)) :
    ∃ hunks, diffFiles structuredPatch left right = some hunks ∧
      DiffTrail (splitLines left) (splitLines right) 0 0 hunks ∧
      unionOf DiffHunk.removedLines hunks = (removedBy (structuredPatch left right)).toFinset ∧
      unionOf DiffHunk.addedLines hunks = (addedBy (structuredPatch left right)).toFinset := by
  have hunion : ∀ patch : List PatchHunk,
      unionOf DiffHunk.removedLines (patch.map readHunk) = (removedBy patch).toFinset ∧
        unionOf DiffHunk.addedLines (patch.map readHunk) = (addedBy patch).toFinset := by
    intro patch
    induction patch with
    | nil => exact ⟨rfl, rfl⟩
    | cons hunk patch ih =>
      rw [removedBy, addedBy, List.flatMap_cons, List.flatMap_cons, List.toFinset_append,
        List.toFinset_append, List.map_cons, readHunk_eq]
      exact ⟨congrArg _ ih.1, congrArg _ ih.2⟩
  unfold diffFiles
  generalize structuredPatch left right = patch at h ⊢
  rw [← (hunion patch).1, ← (hunion patch).2]
  have hpieces := pieces_readHunk h
  generalize patch.map readHunk = hunks at hpieces
  cases hpieces with
  | last hsame hl hr => exact ⟨[], rfl, .last hsame hl hr, rfl, rfl⟩
  | next hsame hshows hmoves hstarts hends hrest =>
    obtain ⟨out, hout, htrail, hremoved, hadded⟩ :=
      mergeLoop_trail _ [] _ hsame hshows hmoves hends hrest
    exact ⟨out, hout, htrail, hremoved, hadded⟩

end Merging

/-! ### The edit script -/

/-- The hunks are a correct edit script for the patch: the indices on each side
increase, the removed and added lines are each there once, a pair holds two
changed lines or two equal ones, and between the hunks, before the first and
behind the last both texts have the same lines (`trail`). -/
structure CorrectScript (L R : List (List Char)) (patch : List PatchHunk)
    (hunks : List DiffHunk) : Prop where
  leftIncreasing : (lefts (hunks.flatMap DiffHunk.pairs)).Pairwise (· < ·)
  rightIncreasing : (rights (hunks.flatMap DiffHunk.pairs)).Pairwise (· < ·)
  removed : ∀ n, n ∈ removedBy patch ↔ ∃ hunk ∈ hunks, n ∈ hunk.removedLines
  added : ∀ n, n ∈ addedBy patch ↔ ∃ hunk ∈ hunks, n ∈ hunk.addedLines
  removedOnce : ∀ n ∈ removedBy patch, (lefts (hunks.flatMap DiffHunk.pairs)).count n = 1
  addedOnce : ∀ n ∈ addedBy patch, (rights (hunks.flatMap DiffHunk.pairs)).count n = 1
  equal : ∀ hunk ∈ hunks, ∀ l r, (some l, some r) ∈ hunk.pairs →
    (l ∈ hunk.removedLines ∧ r ∈ hunk.addedLines) ∨
      (l ∉ hunk.removedLines ∧ r ∉ hunk.addedLines ∧ ∃ line, L[l]? = some line ∧ R[r]? = some line)
  trail : DiffTrail L R 0 0 hunks

/-- **The rendered diff is a correct edit script**, for all texts, if jsdiff's
patch is one with four lines of context. -/
theorem diffFiles_correct (structuredPatch : List Char → List Char → List PatchHunk)
    (left right : List Char)
    (h : CorrectPatch (splitLines left) (splitLines right) 0 0 (structuredPatch left right)) :
    ∃ hunks, diffFiles structuredPatch left right = some hunks ∧
      CorrectScript (splitLines left) (splitLines right) (structuredPatch left right) hunks := by
  obtain ⟨hunks, hout, htrail, hremoved, hadded⟩ := diffFiles_trail h
  have hmem : ∀ n, n ∈ removedBy (structuredPatch left right) ↔
      ∃ hunk ∈ hunks, n ∈ hunk.removedLines := fun n => by
    rw [← mem_unionOf, hremoved, List.mem_toFinset]
  have hmem' : ∀ n, n ∈ addedBy (structuredPatch left right) ↔
      ∃ hunk ∈ hunks, n ∈ hunk.addedLines := fun n => by
    rw [← mem_unionOf, hadded, List.mem_toFinset]
  refine ⟨hunks, hout, htrail.pairwise_lefts.1, htrail.pairwise_rights.1, hmem, hmem',
    fun n hn => ?_, fun n hn => ?_, fun hunk hhunk l r hp => ?_, htrail⟩
  · obtain ⟨hunk, hhunk, hn⟩ := (hmem n).mp hn
    exact htrail.count_lefts hhunk hn
  · obtain ⟨hunk, hhunk, hn⟩ := (hmem' n).mp hn
    exact htrail.count_rights hhunk hn
  · obtain ⟨i, j, a, b, hblock⟩ := htrail.block_of_mem hhunk
    refine (hblock.paired l r hp).imp id fun ⟨hl, hr, heq⟩ => ⟨hl, hr, ?_⟩
    have hlen : l < (splitLines left).length := by
      have := hblock.left_bound hp
      have := hblock.inLeft
      omega
    have hget := List.getElem?_eq_getElem hlen
    exact ⟨_, hget, heq ▸ hget⟩

/-- A patch of `a b c d` to `w x c d`. -/
def zippedPatch : List PatchHunk :=
  [⟨1, 1, ["-a".toList, "-b".toList, "+w".toList, "+x".toList, " c".toList, " d".toList]⟩]

theorem correctPatch_zipped : CorrectPatch (splitLines "a\nb\nc\nd\n".toList)
    (splitLines "w\nx\nc\nd\n".toList) 0 0 zippedPatch := by
  have hstart : SameStretch (splitLines "a\nb\nc\nd\n".toList) (splitLines "w\nx\nc\nd\n".toList)
      0 0 0 := ⟨by decide, by decide, fun _ hk => absurd hk (Nat.not_lt_zero _)⟩
  have hend : SameStretch (splitLines "a\nb\nc\nd\n".toList) (splitLines "w\nx\nc\nd\n".toList)
      4 4 0 := ⟨by decide, by decide, fun _ hk => absurd hk (Nat.not_lt_zero _)⟩
  have hkeep : Spells (splitLines "a\nb\nc\nd\n".toList) (splitLines "w\nx\nc\nd\n".toList)
      2 2 [" c".toList, " d".toList] 4 4 :=
    .keep (by decide : _ = some "c\n".toList) (by decide)
      (.keep (by decide : _ = some "d\n".toList) (by decide) (.nil 4 4))
  have hadd : Spells (splitLines "a\nb\nc\nd\n".toList) (splitLines "w\nx\nc\nd\n".toList)
      2 0 ["+w".toList, "+x".toList, " c".toList, " d".toList] 4 4 :=
    .add (by decide : _ = some "w\n".toList) (.add (by decide : _ = some "x\n".toList) hkeep)
  refine .hunk hstart rfl rfl
    (.remove (by decide : _ = some "a\n".toList) (.remove (by decide : _ = some "b\n".toList) hadd))
    ⟨_, List.mem_cons_self, .inl (by decide)⟩ (.inr ⟨rfl, rfl⟩) (.inr ⟨by decide, by decide⟩)
    (.done hend (by decide) (by decide))

theorem diffFiles_correct_zipped :
    ∃ hunks, diffFiles (fun _ _ => zippedPatch) "a\nb\nc\nd\n".toList "w\nx\nc\nd\n".toList =
        some hunks ∧
      CorrectScript (splitLines "a\nb\nc\nd\n".toList) (splitLines "w\nx\nc\nd\n".toList)
        zippedPatch hunks :=
  diffFiles_correct _ _ _ correctPatch_zipped

end Gitdot
