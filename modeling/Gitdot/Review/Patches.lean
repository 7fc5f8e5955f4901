/-
# Patch ids

`get_commit_patch_id` hashes the diff of a commit against its first parent:
for each delta both paths and the status, and behind them the added and
removed lines. Nothing tells where a part ends, and of a binary file no
content is hashed. So two commits of one id are the same change only if their
bytes are cut in the same places (`patchId_separates`). They are where every
line ends with a newline, the last one apart, and the paths have no control
characters in them and no sign in front (`Framed`).

Key definitions: `patchBytes`, `getCommitPatchId`, `FileChange`,
`FileChange.cuts`, `FileChange.unhashed`, `Framed`.
Key theorems: `patchBytes_eq`, `eq_of_framed`, `patchId_separates`.
-/
import Gitdot.Lib.Framing
import Gitdot.Lib.Text
import Gitdot.Review.Effect

namespace Gitdot

open Lib Lib.Text

/-! ### Diffs -/

/-- `git2::Delta`, in its order. -/
inductive DeltaStatus where
  | unmodified
  | added
  | deleted
  | modified
  | renamed
  | copied
  | ignored
  | untracked
  | typechange
  | unreadable
  | conflicted
  deriving DecidableEq

/-- `status as u8`. -/
def DeltaStatus.code : DeltaStatus → UInt8
  | .unmodified => 0
  | .added => 1
  | .deleted => 2
  | .modified => 3
  | .renamed => 4
  | .copied => 5
  | .ignored => 6
  | .untracked => 7
  | .typechange => 8
  | .unreadable => 9
  | .conflicted => 10

/-- `git2::DiffLine`: its origin, `+` and `-` for added and removed lines, and
its bytes, the newline with them if there is one. -/
structure DiffLine where
  origin : Char
  content : List UInt8
  deriving DecidableEq

/-- What a delta is about: the lines of its hunks, or two binary files. -/
inductive DeltaContent where
  | text (lines : List DiffLine)
  | binary (old new : List UInt8)
  deriving DecidableEq

/-- `git2::DiffDelta`, with what `foreach` walks through for it. -/
structure DiffDelta where
  oldPath : Option (List UInt8)
  newPath : Option (List UInt8)
  status : DeltaStatus
  content : DeltaContent
  deriving DecidableEq

/-- The lines that the line callback is called for. -/
def DiffDelta.lines (delta : DiffDelta) : List DiffLine :=
  match delta.content with
  | .text lines => lines
  | .binary _ _ => []

/-- `Diff::foreach` with a file and a line callback. -/
def foreach {σ : Type} (onFile : DiffDelta → σ → σ) (onLine : DiffLine → σ → σ)
    (diff : List DiffDelta) (s : σ) : σ :=
  diff.foldl (fun s delta => delta.lines.foldl (fun s line => onLine line s) (onFile delta s)) s

/-! ### The patch id -/

/-- What a path adds to the bytes. -/
def pathBytes (path : Option (List UInt8)) : List UInt8 := path.elim [] toStringLossy

/-- `patch_bytes`, filled by the callbacks. -/
def patchBytes (diff : List DiffDelta) : List UInt8 :=
  foreach (fun delta bytes =>
      bytes ++ pathBytes delta.oldPath ++ pathBytes delta.newPath ++ [delta.status.code])
    (fun line bytes =>
      if line.origin = '+' ∨ line.origin = '-' then
        bytes ++ UInt8.ofNat line.origin.toNat :: line.content
      else bytes)
    diff []

/-- `get_commit_patch_id`, from the diff against the first parent. -/
def getCommitPatchId {α : Type*} (hashObject : List UInt8 → α) (diff : List DiffDelta) : α :=
  hashObject (patchBytes diff)

/-! ### Changes -/

/-- An added or removed line. -/
structure ChangedLine where
  added : Bool
  content : List UInt8
  deriving DecidableEq

def plus : UInt8 := 43
def minus : UInt8 := 45
def newline : UInt8 := 10

def ChangedLine.sign (line : ChangedLine) : UInt8 := if line.added then plus else minus

def ChangedLine.bytes (line : ChangedLine) : List UInt8 := line.sign :: line.content

/-- The line, if it is added or removed. -/
def DiffLine.changed? (line : DiffLine) : Option ChangedLine :=
  if line.origin = '+' then some ⟨true, line.content⟩
  else if line.origin = '-' then some ⟨false, line.content⟩
  else none

/-- What a reviewer is shown of a delta: the paths, the status, the added and
removed lines, and the contents of binary files. -/
structure FileChange where
  oldPath : Option (List UInt8)
  newPath : Option (List UInt8)
  status : DeltaStatus
  lines : List ChangedLine
  blobs : Option (List UInt8 × List UInt8)
  deriving DecidableEq

def DiffDelta.change (delta : DiffDelta) : FileChange where
  oldPath := delta.oldPath
  newPath := delta.newPath
  status := delta.status
  lines := delta.lines.filterMap DiffLine.changed?
  blobs := match delta.content with
    | .text _ => none
    | .binary old new => some (old, new)

namespace FileChange

variable (c : FileChange)

/-- What is hashed of a change. -/
def bytes : List UInt8 :=
  pathBytes c.oldPath ++ pathBytes c.newPath ++ c.status.code :: c.lines.flatMap ChangedLine.bytes

/-- Where the bytes are cut: how long the paths and the lines are. -/
def cuts : Option ℕ × Option ℕ × List ℕ :=
  (c.oldPath.map fun p => (toStringLossy p).length, c.newPath.map fun p => (toStringLossy p).length,
    c.lines.map fun line => line.content.length)

/-- What is not hashed: the bytes of a path that is no text, and of binary files. -/
def unhashed : Option (List UInt8) × Option (List UInt8) × Option (List UInt8 × List UInt8) :=
  (c.oldPath.filter fun p => toStringLossy p ≠ p, c.newPath.filter fun p => toStringLossy p ≠ p,
    c.blobs)

end FileChange

theorem foldl_lines (lines : List DiffLine) (bytes : List UInt8) :
    lines.foldl (fun bytes line => if line.origin = '+' ∨ line.origin = '-' then
      bytes ++ UInt8.ofNat line.origin.toNat :: line.content else bytes) bytes =
      bytes ++ (lines.filterMap DiffLine.changed?).flatMap ChangedLine.bytes := by
  induction lines generalizing bytes with
  | nil => simp
  | cons line lines ih =>
    rw [List.foldl_cons, ih, List.filterMap_cons]
    obtain ⟨origin, content⟩ := line
    by_cases hplus : origin = '+'
    · subst hplus
      simp [DiffLine.changed?, ChangedLine.bytes, ChangedLine.sign, plus]
    · by_cases hminus : origin = '-'
      · subst hminus
        simp [DiffLine.changed?, ChangedLine.bytes, ChangedLine.sign, minus]
      · simp [DiffLine.changed?, hplus, hminus]

/-- The hashed bytes are those of the changes, one behind the other. -/
theorem patchBytes_eq (diff : List DiffDelta) :
    patchBytes diff = (diff.map DiffDelta.change).flatMap FileChange.bytes := by
  have hfold : ∀ (diff : List DiffDelta) (bytes : List UInt8),
      foreach (fun delta bytes =>
          bytes ++ pathBytes delta.oldPath ++ pathBytes delta.newPath ++ [delta.status.code])
        (fun line bytes => if line.origin = '+' ∨ line.origin = '-' then
          bytes ++ UInt8.ofNat line.origin.toNat :: line.content else bytes) diff bytes =
        bytes ++ (diff.map DiffDelta.change).flatMap FileChange.bytes := by
    intro diff
    induction diff with
    | nil => exact fun bytes => (List.append_nil bytes).symm
    | cons delta diff ih =>
      intro bytes
      have hstep := ih (bytes ++ pathBytes delta.oldPath ++ pathBytes delta.newPath ++
        [delta.status.code] ++ (delta.lines.filterMap DiffLine.changed?).flatMap ChangedLine.bytes)
      unfold foreach at hstep ⊢
      rw [List.foldl_cons, foldl_lines, hstep]
      simp [FileChange.bytes, DiffDelta.change, List.append_assoc]
  exact hfold diff []

/-! ### The same cuts -/

theorem DeltaStatus.code_injective : Function.Injective DeltaStatus.code := by
  intro s t
  cases s <;> cases t <;> decide

theorem DeltaStatus.code_le (s : DeltaStatus) : s.code ≤ 10 := by cases s <;> decide

theorem ChangedLine.sign_injective {l m : ChangedLine} (h : l.sign = m.sign) : l.added = m.added := by
  unfold ChangedLine.sign at h
  cases hl : l.added <;> cases hm : m.added <;> simp [hl, hm, plus, minus] at h ⊢

/-- Paths whose text is cut in one place, with one text, the same where they are no text. -/
theorem path_inj {p q : Option (List UInt8)} {x y : List UInt8}
    (hcuts : (p.map fun p => (toStringLossy p).length) = q.map fun p => (toStringLossy p).length)
    (hraw : (p.filter fun p => toStringLossy p ≠ p) = q.filter fun p => toStringLossy p ≠ p)
    (h : pathBytes p ++ x = pathBytes q ++ y) : p = q ∧ x = y := by
  cases p with
  | none =>
    cases q with
    | none => exact ⟨rfl, h⟩
    | some q => exact nomatch hcuts
  | some p =>
    cases q with
    | none => exact nomatch hcuts
    | some q =>
      obtain ⟨htext, rfl⟩ := List.append_inj h (Option.some.inj hcuts)
      refine ⟨?_, rfl⟩
      have htext : toStringLossy p = toStringLossy q := htext
      simp only [Option.filter_some, decide_not] at hraw
      by_cases hp : toStringLossy p = p
      · by_cases hq : toStringLossy q = q
        · rw [← hp, htext, hq]
        · simp [hp, hq] at hraw
      · by_cases hq : toStringLossy q = q
        · simp [hp, hq] at hraw
        · simpa [hp, hq] using hraw

theorem lines_inj : ∀ {ls ms : List ChangedLine} {x y : List UInt8},
    (ls.map fun l => l.content.length) = (ms.map fun l => l.content.length) →
    ls.flatMap ChangedLine.bytes ++ x = ms.flatMap ChangedLine.bytes ++ y → ls = ms ∧ x = y
  | [], [], _, _, _, h => ⟨rfl, h⟩
  | [], _ :: _, _, _, hcuts, _ => nomatch hcuts
  | _ :: _, [], _, _, hcuts, _ => nomatch hcuts
  | l :: ls, m :: ms, x, y, hcuts, h => by
    obtain ⟨hlen, hrest⟩ := List.cons.inj hcuts
    simp only [List.flatMap_cons, ChangedLine.bytes, List.cons_append, List.append_assoc] at h
    obtain ⟨hsign, htail⟩ := List.cons.inj h
    obtain ⟨hcontent, htail⟩ := List.append_inj htail hlen
    obtain ⟨rfl, rfl⟩ := lines_inj hrest htail
    obtain ⟨added, content⟩ := l
    obtain ⟨added', content'⟩ := m
    obtain rfl : added = added' := ChangedLine.sign_injective hsign
    obtain rfl : content = content' := hcontent
    exact ⟨rfl, rfl⟩

/-- **Equal cuts.** Changes with one text that is cut in the same places, and
with the same data besides it. -/
theorem changes_inj : ∀ {a b : List FileChange},
    a.map FileChange.cuts = b.map FileChange.cuts →
    a.map FileChange.unhashed = b.map FileChange.unhashed →
    a.flatMap FileChange.bytes = b.flatMap FileChange.bytes → a = b
  | [], [], _, _, _ => rfl
  | [], _ :: _, hcuts, _, _ => nomatch hcuts
  | _ :: _, [], hcuts, _, _ => nomatch hcuts
  | c :: a, d :: b, hcuts, hraw, h => by
    obtain ⟨hcut, hcuts⟩ := List.cons.inj hcuts
    obtain ⟨hold, hcut⟩ := Prod.mk.inj hcut
    obtain ⟨hnew, hlines⟩ := Prod.mk.inj hcut
    obtain ⟨hrow, hraw⟩ := List.cons.inj hraw
    obtain ⟨holdRaw, hrow⟩ := Prod.mk.inj hrow
    obtain ⟨hnewRaw, hblobs⟩ := Prod.mk.inj hrow
    simp only [List.flatMap_cons, FileChange.bytes, List.append_assoc, List.cons_append] at h
    obtain ⟨ho, h1⟩ := path_inj hold holdRaw h
    obtain ⟨hn, h2⟩ := path_inj hnew hnewRaw h1
    obtain ⟨hstatus, h3⟩ := List.cons.inj h2
    obtain ⟨hl, h4⟩ := lines_inj hlines h3
    obtain rfl := changes_inj hcuts hraw h4
    obtain ⟨o, n, status, lines, blobs⟩ := c
    obtain ⟨o', n', status', lines', blobs'⟩ := d
    obtain rfl : status = status' := DeltaStatus.code_injective hstatus
    obtain rfl : o = o' := ho
    obtain rfl : n = n' := hn
    obtain rfl : lines = lines' := hl
    obtain rfl : blobs = blobs' := hblobs
    rfl

/-! ### Framed changes -/

/-- The content ends with its only newline. -/
def ChangedLine.Closed (line : ChangedLine) : Prop :=
  ∃ text, line.content = text ++ [newline] ∧ newline ∉ text

/-- Each line is closed; the last one need not be if nothing follows. -/
def FramedLines (last : Prop) : List ChangedLine → Prop
  | [] => True
  | line :: lines =>
    (line.Closed ∨ (last ∧ lines = [] ∧ newline ∉ line.content)) ∧ FramedLines last lines

/-- Text that does not look like a line, and no byte of which looks like a status. -/
structure FramedPath (path : List UInt8) : Prop where
  text : toStringLossy path = path
  control : ∀ b ∈ path, 10 < b
  head : ∃ b rest, path = b :: rest ∧ b ≠ plus ∧ b ≠ minus

/-- A text file under one framed path. -/
structure FileChange.Framed (c : FileChange) : Prop where
  path : ∃ path, c.oldPath = some path ∧ c.newPath = some path ∧ FramedPath path
  blobs : c.blobs = none

/-- Changes whose parts can be told apart: only the very last line may lack its newline. -/
def Framed : List FileChange → Prop
  | [] => True
  | c :: cs => c.Framed ∧ FramedLines (cs = []) c.lines ∧ Framed cs

/-- What does not go on with a line. -/
def NoLine (bytes : List UInt8) : Prop := ∀ b ∈ bytes.head?, b ≠ plus ∧ b ≠ minus

theorem not_noLine {line : ChangedLine} {rest : List UInt8} : ¬ NoLine (line.bytes ++ rest) := by
  intro h
  obtain ⟨hplus, hminus⟩ := h line.sign rfl
  unfold ChangedLine.sign at hplus hminus
  cases hadded : line.added
  · exact hminus (by simp [hadded])
  · exact hplus (by simp [hadded])

/-- **Framed lines.** They can be read off what they are followed by. -/
theorem framedLines_inj : ∀ {ls ms : List ChangedLine} {x y : List UInt8},
    FramedLines (x = []) ls → FramedLines (y = []) ms → NoLine x → NoLine y →
    ls.flatMap ChangedLine.bytes ++ x = ms.flatMap ChangedLine.bytes ++ y → ls = ms ∧ x = y
  | [], [], _, _, _, _, _, _, h => ⟨rfl, h⟩
  | [], m :: ms, x, y, _, _, hx, _, h => by
    rw [List.flatMap_nil, List.nil_append, List.flatMap_cons, List.append_assoc] at h
    exact absurd (h ▸ hx) not_noLine
  | l :: ls, [], x, y, _, _, _, hy, h => by
    rw [List.flatMap_nil, List.nil_append, List.flatMap_cons, List.append_assoc] at h
    exact absurd (h ▸ hy) not_noLine
  | l :: ls, m :: ms, x, y, hl, hm, hx, hy, h => by
    simp only [List.flatMap_cons, ChangedLine.bytes, List.cons_append, List.append_assoc] at h
    obtain ⟨hsign, htail⟩ := List.cons.inj h
    have hfree : ∀ {text : List UInt8}, newline ∉ text → ∀ b ∈ text, ¬ b = newline :=
      fun hno b hb heq => hno (heq ▸ hb)
    have hboth : l.content = m.content ∧
        ls.flatMap ChangedLine.bytes ++ x = ms.flatMap ChangedLine.bytes ++ y := by
      rcases hl.1 with ⟨t, ht, htno⟩ | ⟨hxnil, hlsnil, hlno⟩
      · rcases hm.1 with ⟨u, hu, huno⟩ | ⟨hynil, hmsnil, hmno⟩
        · rw [ht, hu, List.append_assoc, List.append_assoc, List.singleton_append,
            List.singleton_append] at htail
          obtain ⟨rfl, -, hrest⟩ := Framing.append_cons_inj (hfree htno) (hfree huno) rfl rfl htail
          exact ⟨ht.trans hu.symm, hrest⟩
        · subst hynil hmsnil
          rw [ht, List.flatMap_nil, List.append_nil, List.append_nil, List.append_assoc,
            List.singleton_append] at htail
          exact absurd htail.symm (Framing.append_cons_ne (hfree hmno) rfl)
      · subst hxnil hlsnil
        rw [List.flatMap_nil, List.append_nil, List.append_nil] at htail
        rcases hm.1 with ⟨u, hu, huno⟩ | ⟨hynil, hmsnil, hmno⟩
        · rw [hu, List.append_assoc, List.singleton_append] at htail
          exact absurd htail (Framing.append_cons_ne (hfree hlno) rfl)
        · subst hynil hmsnil
          rw [List.flatMap_nil, List.append_nil, List.append_nil] at htail
          exact ⟨htail, rfl⟩
    obtain ⟨rfl, rfl⟩ := framedLines_inj hl.2 hm.2 hx hy hboth.2
    obtain ⟨added, content⟩ := l
    obtain ⟨added', content'⟩ := m
    obtain rfl : added = added' := ChangedLine.sign_injective hsign
    obtain rfl : content = content' := hboth.1
    exact ⟨rfl, rfl⟩

/-- A framed change begins with its path. -/
theorem FileChange.Framed.bytes_eq {c : FileChange} (h : c.Framed) : ∃ path, FramedPath path ∧
    c.oldPath = some path ∧ c.newPath = some path ∧
      c.bytes = (path ++ path) ++ c.status.code :: c.lines.flatMap ChangedLine.bytes := by
  obtain ⟨path, hold, hnew, hpath⟩ := h.path
  refine ⟨path, hpath, hold, hnew, ?_⟩
  rw [FileChange.bytes, hold, hnew, pathBytes, Option.elim_some, hpath.text]

/-- What framed changes begin with is no line. -/
theorem noLine_of_framed {a : List FileChange} (h : Framed a) :
    NoLine (a.flatMap FileChange.bytes) := by
  cases a with
  | nil => exact nofun
  | cons c a =>
    obtain ⟨path, hpath, -, -, hbytes⟩ := h.1.bytes_eq
    obtain ⟨b, rest, rfl, hsigns⟩ := hpath.head
    intro b' hb'
    rw [List.flatMap_cons, hbytes] at hb'
    obtain rfl : b = b' := Option.some.inj hb'
    exact hsigns

theorem bytes_ne_nil {c : FileChange} {rest : List UInt8} : c.bytes ++ rest ≠ [] := by
  simp [FileChange.bytes]

theorem flatMap_bytes_eq_nil {a : List FileChange} : a.flatMap FileChange.bytes = [] ↔ a = [] := by
  cases a with
  | nil => simp
  | cons c a => simp [FileChange.bytes]

/-- **Framed changes.** They can be read off their bytes. -/
theorem eq_of_framed : ∀ {a b : List FileChange}, Framed a → Framed b →
    a.flatMap FileChange.bytes = b.flatMap FileChange.bytes → a = b
  | [], [], _, _, _ => rfl
  | [], _ :: _, _, _, h => absurd h.symm bytes_ne_nil
  | _ :: _, [], _, _, h => absurd h bytes_ne_nil
  | c :: a, d :: b, ha, hb, h => by
    obtain ⟨p, hp, hpo, hpn, hpb⟩ := ha.1.bytes_eq
    obtain ⟨q, hq, hqo, hqn, hqb⟩ := hb.1.bytes_eq
    have hcontrol : ∀ {path : List UInt8}, FramedPath path → ∀ b ∈ path ++ path, ¬ b ≤ 10 := by
      intro path hpath b hmem
      exact UInt8.not_le.mpr (hpath.control b ((List.mem_append.mp hmem).elim id id))
    rw [List.flatMap_cons, List.flatMap_cons, hpb, hqb, List.append_assoc (p ++ p),
      List.append_assoc (q ++ q), List.cons_append, List.cons_append] at h
    obtain ⟨hpq, hstatus, hrest⟩ := Framing.append_cons_inj (hcontrol hp) (hcontrol hq)
      c.status.code_le d.status.code_le h
    obtain rfl := Framing.append_self_inj hpq
    obtain ⟨hl, hrest⟩ := framedLines_inj
      (by rw [flatMap_bytes_eq_nil]; exact ha.2.1) (by rw [flatMap_bytes_eq_nil]; exact hb.2.1)
      (noLine_of_framed ha.2.2) (noLine_of_framed hb.2.2) hrest
    obtain rfl := eq_of_framed ha.2.2 hb.2.2 hrest
    have hcblobs := ha.1.blobs
    have hdblobs := hb.1.blobs
    obtain ⟨o, n, status, lines, blobs⟩ := c
    obtain ⟨o', n', status', lines', blobs'⟩ := d
    obtain rfl : status = status' := DeltaStatus.code_injective hstatus
    obtain rfl : o = o' := hpo.trans hqo.symm
    obtain rfl : n = n' := hpn.trans hqn.symm
    obtain rfl : lines = lines' := hl
    obtain rfl : blobs = blobs' := hcblobs.trans hdblobs.symm
    rfl

/-! ### What a patch id tells apart -/

/-- The bytes of the changes are cut in the same places, and what is not
hashed of them is the same. -/
structure CutAlike (a b : List FileChange) : Prop where
  cuts : a.map FileChange.cuts = b.map FileChange.cuts
  unhashed : a.map FileChange.unhashed = b.map FileChange.unhashed

theorem getCommitPatchId_eq_iff {α : Type*} {hashObject : List UInt8 → α}
    (hinj : Function.Injective hashObject) {a b : List DiffDelta} :
    getCommitPatchId hashObject a = getCommitPatchId hashObject b ↔
      (a.map DiffDelta.change).flatMap FileChange.bytes =
        (b.map DiffDelta.change).flatMap FileChange.bytes := by
  rw [getCommitPatchId, getCommitPatchId, hinj.eq_iff, patchBytes_eq, patchBytes_eq]

/-- **Patch ids.** Two commits of one id are the same change exactly if their
bytes, where they are the same, are cut alike; framed commits always are. -/
theorem patchId_separates {α : Type*} (hashObject : List UInt8 → α)
    (hinj : Function.Injective hashObject) (a b : List DiffDelta) :
    ((getCommitPatchId hashObject a = getCommitPatchId hashObject b →
        a.map DiffDelta.change = b.map DiffDelta.change) ↔
      ((a.map DiffDelta.change).flatMap FileChange.bytes =
          (b.map DiffDelta.change).flatMap FileChange.bytes →
        CutAlike (a.map DiffDelta.change) (b.map DiffDelta.change))) ∧
    (Framed (a.map DiffDelta.change) → Framed (b.map DiffDelta.change) →
      getCommitPatchId hashObject a = getCommitPatchId hashObject b →
        a.map DiffDelta.change = b.map DiffDelta.change) := by
  rw [getCommitPatchId_eq_iff hinj]
  refine ⟨⟨fun h hsame => ?_, fun h hsame => ?_⟩, eq_of_framed⟩
  · rw [h hsame]
    exact ⟨rfl, rfl⟩
  · exact changes_inj (h hsame).cuts (h hsame).unhashed hsame

/-- A push that leaves a diff its latest revision, and the verdicts with it,
brings the change that revision was about. -/
theorem PushedDiff.sameChange {g : Git} {n : Numbered} {d d' : Diff} {hashObject : List UInt8 → ℕ}
    {diffOf : Sha → List DiffDelta} (hinj : Function.Injective hashObject)
    (hg : ∀ sha, g.patchId sha = getCommitPatchId hashObject (diffOf sha))
    (hframed : ∀ sha, Framed ((diffOf sha).map DiffDelta.change))
    (h : PushedDiff g n (some d) d') {v w : Revision} (hv : d.latest? = some v)
    (hw : d'.latest? = some w) (hkept : w.number = v.number) :
    (diffOf v.commitHash).map DiffDelta.change = (diffOf n.commit.sha).map DiffDelta.change := by
  have hrevised : (d.putRevision ⟨v.number + 1, n.commit.sha, n.previousSha⟩).latest? =
      some ⟨v.number + 1, n.commit.sha, n.previousSha⟩ :=
    Diff.latest?_putRevision hv (by simp)
  cases h with
  | unchanged hv' hp =>
    obtain rfl := Option.some.inj (hv.symm.trans hv')
    rw [hg, hg] at hp
    exact eq_of_framed (hframed _) (hframed _) ((getCommitPatchId_eq_iff hinj).mp hp)
  | revised hv' hp =>
    obtain rfl := Option.some.inj (hv.symm.trans hv')
    obtain rfl := Option.some.inj (hrevised.symm.trans hw)
    exact absurd hkept (by simp)
  | reopened hv' hp =>
    obtain rfl := Option.some.inj (hv.symm.trans hv')
    have hlatest : ({ d.putRevision ⟨v.number + 1, n.commit.sha, n.previousSha⟩ with
        status := .open } : Diff).latest? = some ⟨v.number + 1, n.commit.sha, n.previousSha⟩ := hrevised
    obtain rfl := Option.some.inj (hlatest.symm.trans hw)
    exact absurd hkept (by simp)

/-! ### Commits of one id -/

def ascii (text : String) : List UInt8 := text.toList.map fun c => UInt8.ofNat c.toNat

def noNewline : List UInt8 := ascii "\n\\ No newline at end of file\n"

/-- A change of the text file `notes`. -/
def notesDiff (lines : List DiffLine) : List DiffDelta :=
  [⟨some (ascii "notes"), some (ascii "notes"), .modified, .text lines⟩]

/-- `x` without a newline becomes `y` with one. -/
def xToY : List DiffDelta :=
  notesDiff [⟨'-', ascii "x"⟩, ⟨'>', noNewline⟩, ⟨'+', ascii "y\n"⟩]

/-- `x+y` goes. -/
def sumGone : List DiffDelta := notesDiff [⟨'-', ascii "x+y\n"⟩]

/-- `y` goes and `x` comes, without a newline. -/
def yToX : List DiffDelta :=
  notesDiff [⟨'-', ascii "y\n"⟩, ⟨'+', ascii "x"⟩, ⟨'<', noNewline⟩]

/-- A binary file is changed from `old` to `new`. -/
def binaryDiff (old new : List UInt8) : List DiffDelta :=
  [⟨some (ascii "logo"), some (ascii "logo"), .modified, .binary old new⟩]

/-- Two framed commits are told apart. -/
theorem patchId_separates_yToX : getCommitPatchId id yToX ≠ getCommitPatchId id sumGone := by
  have hpath : FramedPath (ascii "notes") :=
    ⟨by decide, by decide +kernel, 110, ascii "otes", rfl, by decide, by decide⟩
  have hframed : ∀ lines, FramedLines True (lines.filterMap DiffLine.changed?) →
      Framed ((notesDiff lines).map DiffDelta.change) := fun lines h =>
    ⟨⟨⟨_, rfl, rfl, hpath⟩, rfl⟩, by simpa [DiffDelta.change, DiffDelta.lines] using h, trivial⟩
  have hyToX : Framed (yToX.map DiffDelta.change) := hframed _
    ⟨.inl ⟨ascii "y", rfl, by decide⟩, .inr ⟨trivial, rfl, by decide⟩, trivial⟩
  have hsumGone : Framed (sumGone.map DiffDelta.change) := hframed _
    ⟨.inl ⟨ascii "x+y", rfl, by decide⟩, trivial⟩
  intro h
  have hsame := (patchId_separates id Function.injective_id yToX sumGone).2 hyToX hsumGone h
  exact absurd hsame (by decide)

/-- Two text changes of one id, and two of a binary file. -/
theorem not_patchId_separates :
    (getCommitPatchId id xToY = getCommitPatchId id sumGone ∧
      xToY.map DiffDelta.change ≠ sumGone.map DiffDelta.change) ∧
    (getCommitPatchId id (binaryDiff [0, 1] [0, 2]) = getCommitPatchId id (binaryDiff [0, 1] [0, 3]) ∧
      (binaryDiff [0, 1] [0, 2]).map DiffDelta.change ≠
        (binaryDiff [0, 1] [0, 3]).map DiffDelta.change) := by
  decide

end Gitdot
