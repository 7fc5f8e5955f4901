/-
# Regular expressions: matching

How a pattern matches: each node is a matcher, which is given a position in the string
and a continuation, and tries what it can match in its order until the continuation does
not fail (`Node.matcher`). A quantifier matches its body again and again. That is the only loop;
it is run here for so many rounds at most, and to run out of them is a result of its own
(`none`), not a failure.

A matcher goes on only from positions ahead of its own (`Ahead`), and a quantifier whose
minimum is reached goes round only if its body has moved on. So the minimum and the length
of the string bound the rounds (`repeatMatcher_agree`): past the bound their number makes
no difference, and every match ends (`matcher_agrees`, `test_ends`). A text that stands for
itself is searched for (`test_literal`).

Key definitions: `MatchState`, `Matcher`, `repeatMatcher`, `Node.matcher`, `test`, `Agrees`,
`Settles`.
Key theorems: `repeatMatcher_agree`, `matcher_agrees`, `test_ends`, `test_literal`.
-/
import Gitdot.Lib.RegExp.Pattern
import Mathlib.Data.List.Infix

namespace Lib
namespace RegExp

/-! ### Characters -/

/-- The flags, which modifiers change for the inside of a group. -/
structure Flags where
  ignoreCase : Bool
  multiline : Bool
  dotAll : Bool

namespace Flags

def none : Flags := ⟨false, false, false⟩

/-- A flag after modifiers. -/
def modify (add remove : List Flag) (flag : Flag) (value : Bool) : Bool :=
  (value || decide (flag ∈ add)) && !decide (flag ∈ remove)

def update (flags : Flags) (add remove : List Flag) : Flags :=
  ⟨modify add remove .ignoreCase flags.ignoreCase, modify add remove .multiline flags.multiline,
    modify add remove .dotAll flags.dotAll⟩

end Flags

def isLineTerminator (c : ℕ) : Bool := decide (c ∈ [0xA, 0xD, 0x2028, 0x2029])

def isSpace (c : ℕ) : Bool :=
  isLineTerminator c || decide (0x2000 ≤ c ∧ c ≤ 0x200A) ||
    decide (c ∈ [0x9, 0xB, 0xC, 0x20, 0xA0, 0x1680, 0x202F, 0x205F, 0x3000, 0xFEFF])

def isWord (c : ℕ) : Bool := isAsciiLetter c || isDigit c || c == 95

def ClassEscape.contains : ClassEscape → ℕ → Bool
  | digit => isDigit
  | space => isSpace
  | word => isWord

def ClassItem.contains : ClassItem → ℕ → Bool
  | range lo hi, c => decide (lo ≤ c ∧ c ≤ hi)
  | escape negated kind, c => kind.contains c != negated

/-- `Canonicalize`: the upper case of a code unit, where it is one code unit, and one beyond
ASCII for one beyond ASCII. -/
def canonicalize (u : Unicode) (flags : Flags) (c : ℕ) : ℕ :=
  if flags.ignoreCase = false then c
  else
    match u.toUppercase c with
    | [d] => if 128 ≤ c ∧ d < 128 then c else d
    | _ => c

/-- Whether a set has a code unit, or one of the same canonical form. -/
def found (u : Unicode) (flags : Flags) (set : ℕ → Bool) (c : ℕ) : Bool :=
  if flags.ignoreCase = false then set c
  else (List.range 0x10000).any fun a => set a && canonicalize u flags a == canonicalize u flags c

/-! ### Matchers -/

/-- A position in the string, and from where to where each group has matched. -/
structure MatchState where
  endIndex : ℕ
  captures : List (Option (ℕ × ℕ))

/-- Where a match ends, `none` for a failure. -/
abbrev MatchResult := Option MatchState

/-- What goes on from a state; `none` is out of rounds. -/
abbrev Continuation := MatchState → Option MatchResult

abbrev Matcher := MatchState → Continuation → Option MatchResult

/-- A look behind matches backward. -/
inductive Direction where
  | forward
  | backward

namespace Matcher

def empty : Matcher := fun x c => c x

def seq (m m' : Matcher) : Matcher := fun x c => m x fun y => m' y c

/-- The second where the first fails. -/
def or (m m' : Matcher) : Matcher := fun x c =>
  match m x c with
  | some none => m' x c
  | r => r

/-- A condition on the position. -/
def guard (p : ℕ → Bool) : Matcher := fun x c => if p x.endIndex then c x else some none

/-- A group, whose captures start at this one. -/
def capture (index : ℕ) (direction : Direction) (m : Matcher) : Matcher := fun x c =>
  m x fun y =>
    let range := match direction with
      | .forward => (x.endIndex, y.endIndex)
      | .backward => (y.endIndex, x.endIndex)
    c { y with captures := y.captures.set index (some range) }

/-- A look ahead or behind goes on from where it started. -/
def look (negated : Bool) (m : Matcher) : Matcher := fun x c =>
  match m x (fun y => some (some y)), negated with
  | none, _ => none
  | some none, false => some none
  | some none, true => c x
  | some (some y), false => c { x with captures := y.captures }
  | some (some _), true => some none

end Matcher

section

variable (u : Unicode) (input : CodeUnits)

/-- So many code units on, if there are. -/
def move (direction : Direction) (e count : ℕ) : Option ℕ :=
  match direction with
  | .forward => if e + count ≤ input.length then some (e + count) else none
  | .backward => if count ≤ e then some (e - count) else none

/-- `CharacterSetMatcher`. -/
def characterSetMatcher (flags : Flags) (set : ℕ → Bool) (invert : Bool) (direction : Direction) :
    Matcher := fun x c =>
  match move input direction x.endIndex 1 with
  | none => some none
  | some f =>
    if found u flags set (input.getD (min x.endIndex f) 0) = invert then some none
    else c { x with endIndex := f }

/-- The code units of a range. -/
def slice (start count : ℕ) : CodeUnits := (input.drop start).take count

/-- `BackreferenceMatcher`: what the group that took part has matched, once more; a group that
did not matches the empty string. -/
def backreferenceMatcher (flags : Flags) (indices : List ℕ) (direction : Direction) : Matcher :=
  fun x c =>
    match indices.findSome? fun i => x.captures.getD i none with
    | none => c x
    | some (start, stop) =>
      match move input direction x.endIndex (stop - start) with
      | none => some none
      | some f =>
        if (slice input start (stop - start)).map (canonicalize u flags) =
            (slice input (min x.endIndex f) (stop - start)).map (canonicalize u flags) then
          c { x with endIndex := f }
        else some none

/-- Whether a word character is in front of a position. -/
def wordBefore (e : ℕ) : Bool := e ≠ 0 && (input[e - 1]?).any isWord

/-- Whether a word character is behind it. -/
def wordAfter (e : ℕ) : Bool := (input[e]?).any isWord

def Assertion.holds (flags : Flags) : Assertion → ℕ → Bool
  | start, e => e == 0 || flags.multiline && (input[e - 1]?).any isLineTerminator
  | stop, e => e == input.length || flags.multiline && (input[e]?).any isLineTerminator
  | wordBoundary negated, e => (wordBefore input e != wordAfter input e) != negated

/-- The groups of a name. -/
def groupsOf (names : List (Option GroupName)) (name : GroupName) : List ℕ :=
  (List.range names.length).filter fun i => names.getD i none == some name

def Atom.matcher (names : List (Option GroupName)) (flags : Flags) (direction : Direction) :
    Atom → Matcher
  | any =>
    characterSetMatcher u input flags (fun c => flags.dotAll || !isLineTerminator c) false direction
  | char c => characterSetMatcher u input flags (· == c) false direction
  | set inverted items =>
    characterSetMatcher u input flags (fun c => items.any (·.contains c)) inverted direction
  | backreference index => backreferenceMatcher u input flags [index - 1] direction
  | namedBackreference name =>
    backreferenceMatcher u input flags (groupsOf names name) direction

/-- The groups of the body forget what they have matched. -/
def MatchState.clear (x : MatchState) (before count : ℕ) : MatchState :=
  { x with
    captures := x.captures.mapIdx fun i range =>
      if before ≤ i ∧ i < before + count then none else range }

/-- `RepeatMatcher`, for so many rounds at most; the body has so many groups behind those
before it. -/
def repeatMatcher (m : Matcher) (greedy : Bool) (before count : ℕ) : ℕ → ℕ → Option ℕ → Matcher
  | 0, _, _ => fun _ _ => none
  | rounds + 1, min, max =>
    let again : Matcher := fun x c =>
      m (x.clear before count) fun y =>
        if min = 0 ∧ y.endIndex = x.endIndex then some none
        else repeatMatcher m greedy before count rounds (min - 1) (max.map (· - 1)) y c
    if max = some 0 then .empty
    else if min ≠ 0 then again
    else if greedy then again.or .empty
    else Matcher.empty.or again

/-- `CompileSubpattern`: the matcher of a node behind so many groups, in a pattern with
groups of these names. -/
def Node.matcher (names : List (Option GroupName)) (rounds : ℕ) :
    Node → Flags → Direction → ℕ → Matcher
  | empty, _, _, _ => .empty
  | seq a t, flags, direction, before =>
    let m := a.matcher names rounds flags direction before
    let m' := t.matcher names rounds flags direction (before + a.names.length)
    match direction with
    | .forward => m.seq m'
    | .backward => m'.seq m
  | alt a d, flags, direction, before =>
    (a.matcher names rounds flags direction before).or
      (d.matcher names rounds flags direction (before + a.names.length))
  | assertion a, flags, _, _ => .guard (a.holds input flags)
  | atom a, flags, direction, _ => a.matcher u input names flags direction
  | group (.capture _) body, flags, direction, before =>
    (body.matcher names rounds flags direction (before + 1)).capture before direction
  | group (.modifiers add remove) body, flags, direction, before =>
    body.matcher names rounds (flags.update add remove) direction before
  | group (.look behind negated) body, flags, _, before =>
    (body.matcher names rounds flags (if behind then .backward else .forward) before).look negated
  | quantified q body, flags, direction, before =>
    repeatMatcher (body.matcher names rounds flags direction before) q.greedy before
      body.names.length rounds q.min q.max

/-- Whether there is a match at one of these positions. -/
def matchesAt (m : Matcher) (groups : ℕ) : List ℕ → Option Bool
  | [] => some false
  | e :: es =>
    match m ⟨e, List.replicate groups none⟩ fun y => some (some y) with
    | none => none
    | some none => matchesAt m groups es
    | some (some _) => some true

/-- `RegExp.prototype.test` without flags, for so many rounds of each quantifier. -/
def test (rounds : ℕ) (n : Node) : Option Bool :=
  matchesAt (n.matcher u input n.names rounds .none .forward 0) n.names.length
    (List.range (input.length + 1))

end

/-! ### A match ends -/

/-- Two runs have the same result, and are not out of rounds. -/
def Agree (r r' : Option MatchResult) : Prop := ∃ z, r = some z ∧ r' = some z

/-- A position that can be reached in a direction. -/
def Ahead (input : CodeUnits) : Direction → ℕ → ℕ → Prop
  | .forward, e, f => e ≤ f ∧ f ≤ input.length
  | .backward, e, f => f ≤ e ∧ e ≤ input.length

/-- The code units ahead. -/
def remaining (input : CodeUnits) : Direction → ℕ → ℕ
  | .forward, e => input.length - e
  | .backward, e => e

/-- Two matchers whose results agree wherever those of the continuations do, on the positions
ahead. -/
def Agrees (input : CodeUnits) (direction : Direction) (m m' : Matcher) : Prop :=
  ∀ ⦃x : MatchState⦄ ⦃c c' : Continuation⦄, x.endIndex ≤ input.length →
    (∀ y : MatchState, Ahead input direction x.endIndex y.endIndex → Agree (c y) (c' y)) →
    Agree (m x c) (m' x c')

section

variable {u : Unicode} {input : CodeUnits} {direction : Direction} {m m' n n' : Matcher}
  {e f g : ℕ} {x : MatchState} {c c' : Continuation}

theorem Agree.of_some (z : MatchResult) : Agree (some z) (some z) := ⟨z, rfl, rfl⟩

theorem Ahead.refl (he : e ≤ input.length) : Ahead input direction e e := by
  cases direction with
  | forward => exact ⟨Nat.le_refl e, he⟩
  | backward => exact ⟨Nat.le_refl e, he⟩

theorem Ahead.trans (hef : Ahead input direction e f) (hfg : Ahead input direction f g) :
    Ahead input direction e g := by
  cases direction with
  | forward => exact ⟨Nat.le_trans hef.1 hfg.1, hfg.2⟩
  | backward => exact ⟨Nat.le_trans hfg.1 hef.1, hef.2⟩

theorem Ahead.le_length (h : Ahead input direction e f) : f ≤ input.length := by
  cases direction with
  | forward => exact h.2
  | backward => exact Nat.le_trans h.1 h.2

theorem Ahead.remaining_le (h : Ahead input direction e f) :
    remaining input direction f ≤ remaining input direction e := by
  cases direction with
  | forward => exact Nat.sub_le_sub_left h.1 input.length
  | backward => exact h.1

theorem Ahead.remaining_lt (h : Ahead input direction e f) (hne : f ≠ e) :
    remaining input direction f < remaining input direction e := by
  cases direction with
  | forward =>
    obtain ⟨hef, hf⟩ := h
    simp only [remaining]
    omega
  | backward => exact Nat.lt_of_le_of_ne h.1 hne

theorem remaining_le_length (he : e ≤ input.length) : remaining input direction e ≤ input.length := by
  cases direction with
  | forward => exact Nat.sub_le _ _
  | backward => exact he

theorem ahead_move {count : ℕ} (he : e ≤ input.length) (h : move input direction e count = some f) :
    Ahead input direction e f := by
  cases direction with
  | forward =>
    simp only [move] at h
    split_ifs at h with hle
    obtain rfl := Option.some.inj h
    exact ⟨Nat.le_add_right e count, hle⟩
  | backward =>
    simp only [move] at h
    split_ifs at h
    obtain rfl := Option.some.inj h
    exact ⟨Nat.sub_le e count, he⟩

/-! #### Each matcher -/

theorem agrees_empty : Agrees input direction .empty .empty :=
  fun x _ _ hx hc => hc x (.refl hx)

theorem Agrees.seq (hm : Agrees input direction m m') (hn : Agrees input direction n n') :
    Agrees input direction (m.seq n) (m'.seq n') :=
  fun _ _ _ hx hc => hm hx fun _ hy => hn hy.le_length fun z hz => hc z (hy.trans hz)

theorem Agree.or (hm : Agree (m x c) (m' x c')) (hn : Agree (n x c) (n' x c')) :
    Agree (m.or n x c) (m'.or n' x c') := by
  obtain ⟨z, hz, hz'⟩ := hm
  unfold Matcher.or
  rw [hz, hz']
  cases z with
  | none => exact hn
  | some y => exact .of_some _

theorem Agrees.or (hm : Agrees input direction m m') (hn : Agrees input direction n n') :
    Agrees input direction (m.or n) (m'.or n') :=
  fun _ _ _ hx hc => (hm hx hc).or (hn hx hc)

theorem agrees_guard (p : ℕ → Bool) : Agrees input direction (.guard p) (.guard p) := by
  intro x c c' hx hc
  unfold Matcher.guard
  split_ifs
  · exact hc x (.refl hx)
  · exact .of_some _

theorem Agrees.capture (index : ℕ) (hm : Agrees input direction m m') :
    Agrees input direction (m.capture index direction) (m'.capture index direction) :=
  fun _ _ _ hx hc => hm hx fun _ hy => hc _ hy

/-- The direction inside does not matter outside. -/
theorem Agrees.look {inside : Direction} (negated : Bool) (hm : Agrees input inside m m') :
    Agrees input direction (m.look negated) (m'.look negated) := by
  intro x c c' hx hc
  obtain ⟨z, hz, hz'⟩ := hm hx fun y _ => Agree.of_some (some y)
  unfold Matcher.look
  rw [hz, hz']
  cases z with
  | none =>
    cases negated with
    | false => exact .of_some _
    | true => exact hc x (.refl hx)
  | some y =>
    cases negated with
    | false => exact hc _ (.refl hx)
    | true => exact .of_some _

theorem agrees_characterSet (flags : Flags) (set : ℕ → Bool) (invert : Bool) :
    Agrees input direction (characterSetMatcher u input flags set invert direction)
      (characterSetMatcher u input flags set invert direction) := by
  intro x c c' hx hc
  unfold characterSetMatcher
  cases hf : move input direction x.endIndex 1 with
  | none => exact .of_some _
  | some f =>
    simp only
    split_ifs
    · exact .of_some _
    · exact hc _ (ahead_move hx hf)

theorem agrees_backreference (flags : Flags) (indices : List ℕ) :
    Agrees input direction (backreferenceMatcher u input flags indices direction)
      (backreferenceMatcher u input flags indices direction) := by
  intro x c c' hx hc
  unfold backreferenceMatcher
  cases indices.findSome? fun i => x.captures.getD i none with
  | none => exact hc x (.refl hx)
  | some range =>
    obtain ⟨start, stop⟩ := range
    simp only
    cases hf : move input direction x.endIndex (stop - start) with
    | none => exact .of_some _
    | some f =>
      simp only
      split_ifs
      · exact hc _ (ahead_move hx hf)
      · exact .of_some _

theorem agrees_atom (names : List (Option GroupName)) (flags : Flags) (a : Atom) :
    Agrees input direction (a.matcher u input names flags direction)
      (a.matcher u input names flags direction) := by
  cases a with
  | any => exact agrees_characterSet flags _ _
  | char ch => exact agrees_characterSet flags _ _
  | set inverted items => exact agrees_characterSet flags _ _
  | backreference index => exact agrees_backreference flags _
  | namedBackreference name => exact agrees_backreference flags _

/-- **Quantifiers.** A round either takes one from the minimum or moves on: so many rounds
are enough. -/
theorem repeatMatcher_agree (hm : Agrees input direction m m') (greedy : Bool) (before count : ℕ) :
    ∀ {rounds rounds' min : ℕ} {max : Option ℕ} {x : MatchState} {c c' : Continuation},
      min + remaining input direction x.endIndex < rounds →
      min + remaining input direction x.endIndex < rounds' → x.endIndex ≤ input.length →
      (∀ y : MatchState, Ahead input direction x.endIndex y.endIndex → Agree (c y) (c' y)) →
      Agree (repeatMatcher m greedy before count rounds min max x c)
        (repeatMatcher m' greedy before count rounds' min max x c')
  | 0, _, _, _, _, _, _, hrounds, _, _, _ => absurd hrounds (Nat.not_lt_zero _)
  | _ + 1, 0, _, _, _, _, _, _, hrounds', _, _ => absurd hrounds' (Nat.not_lt_zero _)
  | rounds + 1, rounds' + 1, min, max, x, c, c', hrounds, hrounds', hx, hc => by
    have hempty : Agree (Matcher.empty x c) (Matcher.empty x c') := hc x (.refl hx)
    have hagain : Agree
        (m (x.clear before count) fun y =>
          if min = 0 ∧ y.endIndex = x.endIndex then some none
          else repeatMatcher m greedy before count rounds (min - 1) (max.map (· - 1)) y c)
        (m' (x.clear before count) fun y =>
          if min = 0 ∧ y.endIndex = x.endIndex then some none
          else repeatMatcher m' greedy before count rounds' (min - 1) (max.map (· - 1)) y c') := by
      refine hm hx fun y hy => ?_
      have hahead : Ahead input direction x.endIndex y.endIndex := hy
      have hle := hahead.remaining_le
      split_ifs with hstuck
      · exact .of_some _
      · -- the rounds that are left are enough from here
        have hless : min - 1 + remaining input direction y.endIndex <
            min + remaining input direction x.endIndex := by
          by_cases hmin : min = 0
          · have hmoved := hahead.remaining_lt fun heq => hstuck ⟨hmin, heq⟩
            omega
          · omega
        exact repeatMatcher_agree hm greedy before count (by omega) (by omega) hahead.le_length
          fun z hz => hc z (hahead.trans hz)
    unfold repeatMatcher
    simp only
    split_ifs
    · exact hempty
    · exact hagain
    · exact Agree.or (m := fun x c => _) hagain hempty
    · exact Agree.or (n := fun x c => _) hempty hagain

/-- The greatest minimum of a quantifier. -/
def Node.greatestMin : Node → ℕ
  | seq a t => max a.greatestMin t.greatestMin
  | alt a d => max a.greatestMin d.greatestMin
  | group _ body => body.greatestMin
  | quantified q body => max q.min body.greatestMin
  | _ => 0

/-- **Rounds.** Past the bound their number makes no difference. By induction over the
tree. -/
theorem matcher_agrees {names : List (Option GroupName)} {rounds rounds' : ℕ} {flags : Flags}
    {before : ℕ} {n : Node} (h : n.greatestMin + input.length < rounds)
    (h' : n.greatestMin + input.length < rounds') :
    Agrees input direction (n.matcher u input names rounds flags direction before)
      (n.matcher u input names rounds' flags direction before) := by
  induction n generalizing flags direction before with
  | empty => exact agrees_empty
  | seq a t iha iht =>
    simp only [Node.greatestMin] at h h'
    cases direction with
    | forward => exact (iha (by omega) (by omega)).seq (iht (by omega) (by omega))
    | backward => exact (iht (by omega) (by omega)).seq (iha (by omega) (by omega))
  | alt a d iha ihd =>
    simp only [Node.greatestMin] at h h'
    exact (iha (by omega) (by omega)).or (ihd (by omega) (by omega))
  | assertion a => exact agrees_guard _
  | atom a => exact agrees_atom names flags a
  | group kind body ih =>
    simp only [Node.greatestMin] at h h'
    cases kind with
    | capture name => exact (ih h h').capture before
    | modifiers add remove => exact ih h h'
    | look behind negated => exact (ih h h').look negated
  | quantified q body ih =>
    simp only [Node.greatestMin] at h h'
    intro x c c' hx hc
    have hremaining : remaining input direction x.endIndex ≤ input.length := remaining_le_length hx
    exact repeatMatcher_agree (ih (by omega) (by omega)) q.greedy before body.names.length
      (by omega) (by omega) hx hc

theorem matchesAt_agrees {groups : ℕ} (hm : Agrees input .forward m m') :
    ∀ {es : List ℕ}, (∀ e ∈ es, e ≤ input.length) →
      ∃ b, matchesAt m groups es = some b ∧ matchesAt m' groups es = some b
  | [], _ => ⟨false, rfl, rfl⟩
  | e :: es, hes => by
    obtain ⟨z, hz, hz'⟩ := hm (x := ⟨e, List.replicate groups none⟩) (hes e List.mem_cons_self)
      fun y _ => Agree.of_some (some y)
    unfold matchesAt
    rw [hz, hz']
    cases z with
    | none => exact matchesAt_agrees hm fun e' he' => hes e' (List.mem_cons_of_mem e he')
    | some y => exact ⟨true, rfl, rfl⟩

/-- The result for any number of rounds that is large enough. -/
def Settles {α : Type} (run : ℕ → Option α) (a : α) : Prop :=
  ∃ bound, ∀ rounds, bound ≤ rounds → run rounds = some a

/-- **Termination.** A test has a result. -/
theorem test_ends (u : Unicode) (input : CodeUnits) (n : Node) :
    ∃ b, Settles (fun rounds => test u input rounds n) b := by
  have hagree : ∀ rounds rounds', n.greatestMin + input.length < rounds →
      n.greatestMin + input.length < rounds' →
      ∃ b, test u input rounds n = some b ∧ test u input rounds' n = some b :=
    fun rounds rounds' h h' => matchesAt_agrees (matcher_agrees h h') fun e he =>
      Nat.le_of_lt_succ (List.mem_range.mp he)
  obtain ⟨b, hb, -⟩ := hagree _ _ (Nat.lt_succ_self _) (Nat.lt_succ_self _)
  refine ⟨b, n.greatestMin + input.length + 1, fun rounds hrounds => ?_⟩
  obtain ⟨b', hb', htest⟩ := hagree _ rounds (Nat.lt_succ_self _) hrounds
  exact htest.trans (hb'.symm.trans hb)

end

/-! ### Literals -/

theorem snoc_isPrefix_iff {s l : CodeUnits} {c : ℕ} :
    s ++ [c] <+: l ↔ s <+: l ∧ l[s.length]? = some c := by
  constructor
  · rintro ⟨t, rfl⟩
    refine ⟨⟨c :: t, by rw [List.append_assoc]; rfl⟩, ?_⟩
    rw [List.append_assoc, List.getElem?_append_right (Nat.le_refl _), Nat.sub_self]
    rfl
  · rintro ⟨⟨t, rfl⟩, hc⟩
    rw [List.getElem?_append_right (Nat.le_refl _), Nat.sub_self] at hc
    cases t with
    | nil => cases hc
    | cons d t =>
      obtain rfl : d = c := Option.some.inj hc
      exact ⟨t, by rw [List.append_assoc]; rfl⟩

section

variable {u : Unicode} {input s : CodeUnits} {names : List (Option GroupName)} {rounds : ℕ}
  {x : MatchState} {c : Continuation}

/-- One character. -/
theorem matcher_char {ch : ℕ} :
    Atom.matcher u input names .none .forward (.char ch) x c =
      if input[x.endIndex]? = some ch then c { x with endIndex := x.endIndex + 1 } else some none := by
  have hfound : ∀ d, found u .none (· == ch) d = (d == ch) := fun d => rfl
  unfold Atom.matcher characterSetMatcher move
  by_cases hlt : x.endIndex < input.length
  · have hle : x.endIndex + 1 ≤ input.length := hlt
    have hmin : min x.endIndex (x.endIndex + 1) = x.endIndex := Nat.min_eq_left (Nat.le_succ _)
    simp only [if_pos hle, hfound, hmin, List.getD_eq_getElem?_getD, List.getElem?_eq_getElem hlt,
      Option.getD_some, Option.some.injEq]
    by_cases heq : input[x.endIndex] = ch
    · simp [heq]
    · simp [heq]
  · have hle : ¬ x.endIndex + 1 ≤ input.length := hlt
    have hnone : input[x.endIndex]? = none := List.getElem?_eq_none (Nat.le_of_not_lt hlt)
    simp [hle, hnone]

/-- A text that stands for itself: where it is a prefix of what is left. -/
theorem matcher_literal {before : ℕ} :
    (literal s).matcher u input names rounds .none .forward before x c =
      if s <+: input.drop x.endIndex then c { x with endIndex := x.endIndex + s.length }
      else some none := by
  induction s using List.reverseRecOn generalizing c before with
  | nil => simp [literal, Node.matcher, Matcher.empty]
  | append_singleton s ch ih =>
    rw [literal_append_singleton]
    have hseq : (Node.seq (literal s) (.atom (.char ch))).matcher u input names rounds .none .forward
        before x c =
      (literal s).matcher u input names rounds .none .forward before x fun y =>
        Atom.matcher u input names .none .forward (.char ch) y c := rfl
    rw [hseq, ih]
    simp only [snoc_isPrefix_iff, List.getElem?_drop, matcher_char, List.length_append,
      List.length_singleton, Nat.add_assoc]
    by_cases hs : s <+: input.drop x.endIndex
    · simp only [hs, if_true, true_and]
    · simp only [hs, if_false, false_and]

theorem matchesAt_literal {groups : ℕ} : ∀ {es : List ℕ},
    matchesAt ((literal s).matcher u input names rounds .none .forward 0) groups es =
      some (es.any fun e => decide (s <+: input.drop e))
  | [] => rfl
  | e :: es => by
    rw [matchesAt, matcher_literal, matchesAt_literal, List.any_cons]
    by_cases hs : s <+: input.drop e
    · simp [hs]
    · simp [hs]

/-- **Literals** are searched for. -/
theorem test_literal : test u input rounds (literal s) = some (decide (s <:+: input)) := by
  rw [test, matchesAt_literal]
  congr 1
  rw [Bool.eq_iff_iff, List.any_eq_true, decide_eq_true_eq]
  constructor
  · rintro ⟨e, -, he⟩
    exact (of_decide_eq_true he).isInfix.trans (List.drop_suffix e input).isInfix
  · rintro ⟨t, v, rfl⟩
    refine ⟨t.length, List.mem_range.mpr ?_, decide_eq_true ?_⟩
    · simp only [List.length_append]
      omega
    · rw [List.append_assoc, List.drop_left]
      exact List.prefix_append s v

end

end RegExp
end Lib
