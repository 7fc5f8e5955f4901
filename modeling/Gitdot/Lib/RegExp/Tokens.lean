/-
# Regular expressions: tokens

The pattern of a JavaScript regular expression without flags, in the grammar for
the web (Annex B of the standard), read token by token. That grammar is to be read
in order: a production counts where those in front of it do not match. What is
read depends on the whole pattern (`Env`): whether it has named groups, in which
case `\k` is a reference, and how many groups it has, which tells a reference by
number from an octal escape.

Key definitions: `Atom`, `Token`, `lexCharacterEscape`, `lexAtomEscape`,
`lexClass`, `lexGroup`, `lexToken`.
Key theorems: `shortens_lexCharacterEscape`, `shortens_lexClassRange`,
`shortens_lexToken`.
-/
import Gitdot.Lib.Lexer

namespace Lib
namespace RegExp

open Lexing

/-! ### Characters -/

def isDigit (c : ℕ) : Bool := decide (48 ≤ c ∧ c ≤ 57)

def isOctalDigit (c : ℕ) : Bool := decide (48 ≤ c ∧ c ≤ 55)

def isAsciiLetter (c : ℕ) : Bool := decide (65 ≤ c ∧ c ≤ 90 ∨ 97 ≤ c ∧ c ≤ 122)

/-- The value of a hexadecimal digit. -/
def hexValue (c : ℕ) : Option ℕ :=
  if isDigit c then some (c - 48)
  else if 65 ≤ c ∧ c ≤ 70 then some (c - 55)
  else if 97 ≤ c ∧ c ≤ 102 then some (c - 87)
  else none

def isHexDigit (c : ℕ) : Bool := (hexValue c).isSome

/-- The value of hexadecimal digits, of which there is one at least. -/
def hexNumber (s : CodeUnits) : Option ℕ :=
  if s = [] then none else s.foldlM (fun n c => (hexValue c).map (16 * n + ·)) 0

/-- The value of decimal digits. -/
def decimal (s : CodeUnits) : ℕ := s.foldl (fun n c => 10 * n + (c - 48)) 0

/-- The value of octal digits. -/
def octal (s : CodeUnits) : ℕ := s.foldl (fun n c => 8 * n + (c - 48)) 0

/-- So many hexadecimal digits. -/
def lexHex (count : ℕ) : Lexer ℕ := do
  let digits ← take count
  ofOption (hexNumber digits)

theorem keeps_lexHex (count : ℕ) : Keeps (lexHex count) :=
  (keeps_take count).bind fun _ => keeps_ofOption _

/-! ### Tokens -/

/-- A character class escape, without its negation. -/
inductive ClassEscape where
  | digit
  | space
  | word

/-- A member of a class: a range of characters, or what a class escape stands for. -/
inductive ClassItem where
  | range (lo hi : ℕ)
  | escape (negated : Bool) (kind : ClassEscape)

/-- The name of a group, as code points. -/
abbrev GroupName := List ℕ

inductive Atom where
  | any
  | char (c : ℕ)
  | set (inverted : Bool) (items : List ClassItem)
  | backreference (index : ℕ)
  | namedBackreference (name : GroupName)

inductive Assertion where
  | start
  | stop
  | wordBoundary (negated : Bool)

inductive Flag where
  | ignoreCase
  | multiline
  | dotAll
  deriving DecidableEq

inductive GroupKind where
  | capture (name : Option GroupName)
  | modifiers (add remove : List Flag)
  | look (behind negated : Bool)

/-- No maximum stands for infinity. -/
structure Quantifier where
  min : ℕ
  max : Option ℕ
  greedy : Bool

inductive Token where
  | bar
  | opening (kind : GroupKind)
  | closing
  | quantifier (q : Quantifier)
  | assertion (a : Assertion)
  | atom (a : Atom)

/-- What the reading depends on: `named` is the parameter NamedCaptureGroups of the
grammar, `groups` the number of groups in the pattern. -/
structure Env where
  named : Bool
  groups : ℕ

/-! ### Names -/

/-- What the runtime knows of Unicode. -/
structure Unicode where
  idStart : ℕ → Bool
  idContinue : ℕ → Bool
  toUppercase : ℕ → CodeUnits

def isIdentifierStart (u : Unicode) (c : ℕ) : Bool :=
  if c < 128 then isAsciiLetter c || c == 36 || c == 95 else u.idStart c

def isIdentifierPart (u : Unicode) (c : ℕ) : Bool :=
  if c < 128 then isAsciiLetter c || isDigit c || c == 36 || c == 95 else u.idContinue c

/-- The code point of two surrogates, the first a lead and the second a trail. -/
def fromSurrogates (lead trail : ℕ) : Option ℕ :=
  if 0xD800 ≤ lead ∧ lead ≤ 0xDBFF ∧ 0xDC00 ≤ trail ∧ trail ≤ 0xDFFF then
    some (0x10000 + (lead - 0xD800) * 0x400 + (trail - 0xDC00))
  else none

/-- Four digits for a surrogate each, or for a code unit, or the digits of a code point in
braces. -/
def lexNameEscape : Lexer ℕ :=
  (do
    let lead ← lexHex 4
    char '\\'
    char 'u'
    let trail ← lexHex 4
    ofOption (fromSurrogates lead trail)) <|>
  lexHex 4 <|>
  do
    char '{'
    let digits ← span isHexDigit
    char '}'
    let n ← ofOption (hexNumber digits)
    check (n ≤ 0x10FFFF)
    pure n

/-- A code point of a name. -/
def lexNameChar : Lexer ℕ :=
  (do
    char '\\'
    char 'u'
    lexNameEscape) <|>
  (do
    let lead ← next
    let trail ← next
    ofOption (fromSurrogates lead trail)) <|>
  next

/-- A group name, behind its `<`. -/
def lexName (u : Unicode) : Lexer GroupName := do
  let name ← many (char '>') lexNameChar
  check ((name.head?.any (isIdentifierStart u) && name.tail.all (isIdentifierPart u)) = true)
  pure name

theorem keeps_lexNameEscape : Keeps lexNameEscape := by
  have hpair : Keeps (do
      let lead ← lexHex 4
      char '\\'
      char 'u'
      let trail ← lexHex 4
      ofOption (fromSurrogates lead trail)) :=
    (keeps_lexHex 4).bind fun _ => (shortens_char '\\').keeps.bind fun _ =>
      (shortens_char 'u').keeps.bind fun _ => (keeps_lexHex 4).bind fun _ => keeps_ofOption _
  refine hpair.orElse ((keeps_lexHex 4).orElse ?_)
  exact (shortens_char '{').keeps.bind fun _ => (keeps_span isHexDigit).bind fun _ =>
    (shortens_char '}').keeps.bind fun _ => (keeps_ofOption _).bind fun _ =>
      (keeps_check _).bind fun _ => keeps_pure _

theorem shortens_lexNameChar : Shortens lexNameChar := by
  have hescape : Shortens (do
      char '\\'
      char 'u'
      lexNameEscape) :=
    (shortens_char '\\').bind fun _ => (shortens_char 'u').keeps.bind fun _ => keeps_lexNameEscape
  have hpair : Shortens (do
      let lead ← next
      let trail ← next
      ofOption (fromSurrogates lead trail)) :=
    shortens_next.bind fun _ => shortens_next.keeps.bind fun _ => keeps_ofOption _
  exact hescape.orElse (hpair.orElse shortens_next)

theorem keeps_lexName (u : Unicode) : Keeps (lexName u) :=
  (keeps_many (shortens_char '>').keeps shortens_lexNameChar).bind fun _ =>
    (keeps_check _).bind fun _ => keeps_pure _

/-! ### Escapes -/

/-- Octal digits: three if the first is at most 3, else two, or as many as there are. -/
def lexOctalDigits : Lexer CodeUnits
  | s =>
    let digits := (s.take (if s.head?.any (· ≤ 51) then 3 else 2)).takeWhile isOctalDigit
    if digits = [] then none else some (digits, s.drop digits.length)

/-- `LegacyOctalEscapeSequence`, or `\0`. -/
def lexOctal : Lexer ℕ := octal <$> lexOctalDigits

/-- `CharacterEscape`, behind its `\`. What stands for nothing else stands for itself. -/
def lexCharacterEscape (env : Env) : Lexer ℕ :=
  lexOctal <|> do
    let c ← next
    match Char.ofNat c with
    | 'f' => pure 12
    | 'n' => pure 10
    | 'r' => pure 13
    | 't' => pure 9
    | 'v' => pure 11
    | 'c' =>
      let letter ← next
      check (isAsciiLetter letter = true)
      pure (letter % 32)
    | 'x' => lexHex 2 <|> pure c
    | 'u' => lexHex 4 <|> pure c
    | 'k' => if env.named then failure else pure c
    | _ => pure c

/-- `CharacterClassEscape`. -/
def lexClassEscape : Lexer ClassItem := do
  let c ← next
  match Char.ofNat c with
  | 'd' => pure (.escape false .digit)
  | 'D' => pure (.escape true .digit)
  | 's' => pure (.escape false .space)
  | 'S' => pure (.escape true .space)
  | 'w' => pure (.escape false .word)
  | 'W' => pure (.escape true .word)
  | _ => failure

/-- `DecimalEscape`, where there are so many groups. -/
def lexDecimalEscape (env : Env) : Lexer ℕ := do
  let digits ← span isDigit
  check (digits.head?.any (· ≠ 48) = true ∧ decimal digits ≤ env.groups)
  pure (decimal digits)

/-- `k GroupName`, where there are named groups. -/
def lexNamedReference (u : Unicode) (env : Env) : Lexer GroupName := do
  check (env.named = true)
  char 'k'
  char '<'
  lexName u

/-- `AtomEscape`, or a backslash where no control character follows, all behind the
backslash. -/
def lexAtomEscape (u : Unicode) (env : Env) : Lexer Atom :=
  .backreference <$> lexDecimalEscape env <|>
  (fun item => .set false [item]) <$> lexClassEscape <|>
  .char <$> lexCharacterEscape env <|>
  .namedBackreference <$> lexNamedReference u env <|>
  do
    let s ← get
    check (s.head? = some 'c'.toNat)
    pure (.char '\\'.toNat)

/-! ### Classes -/

/-- A single character of a class. -/
def ClassItem.single (c : ℕ) : ClassItem := .range c c

/-- `ClassEscape`, or a backslash where no control character follows, all behind the
backslash. -/
def lexClassAtomEscape (env : Env) : Lexer ClassItem :=
  (do
    char 'b'
    pure (.single 8)) <|>
  (do
    char 'c'
    let c ← next
    check ((isDigit c || c == '_'.toNat) = true)
    pure (.single (c % 32))) <|>
  lexClassEscape <|>
  .single <$> lexCharacterEscape env <|>
  do
    let s ← get
    check (s.head? = some 'c'.toNat)
    pure (.single '\\'.toNat)

/-- `ClassAtom`. -/
def lexClassAtom (env : Env) : Lexer ClassItem :=
  (do
    char '\\'
    lexClassAtomEscape env) <|>
  do
    let c ← next
    check (c ≠ '\\'.toNat)
    pure (.single c)

/-- What a range of two members stands for: where one of them is a class escape, the two and
the dash. -/
def ClassItem.to : ClassItem → ClassItem → Option (List ClassItem)
  | .range lo _, .range hi _ => if lo ≤ hi then some [.range lo hi] else none
  | a, b => some [a, b, .single '-'.toNat]

/-- A dash that is not the last member of its class. -/
def lexDash : Lexer Unit := do
  char '-'
  let s ← get
  check (s.head? ≠ some ']'.toNat)

/-- A member of a class, or a range of two. -/
def lexClassRange (env : Env) : Lexer (List ClassItem) := do
  let a ← lexClassAtom env
  let s ← get
  if (lexDash.run s).isSome then
    lexDash
    let b ← lexClassAtom env
    ofOption (a.to b)
  else pure [a]

/-- `CharacterClass`, behind its `[`. -/
def lexClass (env : Env) : Lexer Atom := do
  let inverted ← (do char '^'; pure true) <|> pure false
  let items ← many (char ']') (lexClassRange env)
  pure (.set inverted items.flatten)

/-! ### Groups and quantifiers -/

def flagOf (c : ℕ) : Option Flag :=
  match Char.ofNat c with
  | 'i' => some .ignoreCase
  | 'm' => some .multiline
  | 's' => some .dotAll
  | _ => none

def lexFlags : Lexer (List Flag) := List.filterMap flagOf <$> span fun c => (flagOf c).isSome

/-- `RegularExpressionModifiers` with their colon, no flag twice; behind a dash are those
that are removed. -/
def lexModifiers : Lexer GroupKind := do
  let add ← lexFlags
  let remove ← (do char '-'; let remove ← lexFlags; check (add ++ remove ≠ []); pure remove) <|> pure []
  char ':'
  check (add ++ remove).Nodup
  pure (.modifiers add remove)

/-- The kind of a group, behind its parenthesis. -/
def lexGroup (u : Unicode) : Lexer GroupKind := do
  let s ← get
  if s.head? = some '?'.toNat then
    char '?'
    (do char '='; pure (.look false false)) <|>
      (do char '!'; pure (.look false true)) <|>
      (do char '<'; char '='; pure (.look true false)) <|>
      (do char '<'; char '!'; pure (.look true true)) <|>
      (do char '<'; let name ← lexName u; pure (.capture (some name))) <|>
      lexModifiers
  else pure (.capture none)

/-- `{n}`, `{n,}` or `{n,m}`, behind the brace. -/
def lexBraces : Lexer (ℕ × Option ℕ) := do
  let digits ← span isDigit
  check (digits ≠ [])
  (do char '}'; pure (decimal digits, some (decimal digits))) <|> do
    char ','
    let digits' ← span isDigit
    char '}'
    pure (decimal digits, if digits' = [] then none else some (decimal digits'))

/-- A quantifier is lazy with a question mark behind it. -/
def lexQuantifier (min : ℕ) (max : Option ℕ) : Lexer Token := do
  check (max.all (min ≤ ·) = true)
  let greedy ← (do char '?'; pure false) <|> pure true
  pure (.quantifier ⟨min, max, greedy⟩)

/-- One token. A brace that starts no quantifier is a character. -/
def lexToken (u : Unicode) (env : Env) : Lexer Token := do
  let c ← next
  match Char.ofNat c with
  | '|' => pure .bar
  | '(' => .opening <$> lexGroup u
  | ')' => pure .closing
  | '*' => lexQuantifier 0 none
  | '+' => lexQuantifier 1 none
  | '?' => lexQuantifier 0 (some 1)
  | '{' =>
    let s ← get
    if (lexBraces.run s).isSome then
      let (min, max) ← lexBraces
      lexQuantifier min max
    else pure (.atom (.char c))
  | '^' => pure (.assertion .start)
  | '$' => pure (.assertion .stop)
  | '.' => pure (.atom .any)
  | '[' => .atom <$> lexClass env
  | '\\' =>
    (do char 'b'; pure (.assertion (.wordBoundary false))) <|>
      (do char 'B'; pure (.assertion (.wordBoundary true))) <|>
      .atom <$> lexAtomEscape u env
  | _ => pure (.atom (.char c))

/-- The end of the pattern. -/
def atEnd : Lexer Unit := do
  let s ← get
  check (s = [])

/-- The tokens of a pattern. -/
def lexTokens (u : Unicode) (env : Env) : Lexer (List Token) := many atEnd (lexToken u env)

/-! ### Progress -/

section

variable {u : Unicode} {env : Env}

theorem shortens_lexOctalDigits : Shortens lexOctalDigits := by
  intro s cs rest h
  have hne : s ≠ [] := by
    rintro rfl
    cases h
  have hlen := List.length_pos_iff.mpr hne
  have hif : ∀ digits : CodeUnits,
      (if digits = [] then none else some (digits, s.drop digits.length)) = some (cs, rest) →
        rest.length < s.length := by
    intro digits hdigits
    split_ifs at hdigits with hnil
    obtain ⟨-, rfl⟩ := Prod.mk.inj (Option.some.inj hdigits)
    have hpos := List.length_pos_iff.mpr hnil
    rw [List.length_drop]
    omega
  exact hif _ h

theorem shortens_lexCharacterEscape : Shortens (lexCharacterEscape env) := by
  refine (shortens_lexOctalDigits.map octal).orElse (shortens_next.bind fun c => ?_)
  split
  case h_6 =>
    exact shortens_next.keeps.bind fun _ => (keeps_check _).bind fun _ => keeps_pure _
  case h_7 => exact (keeps_lexHex 2).orElse (keeps_pure c)
  case h_8 => exact (keeps_lexHex 4).orElse (keeps_pure c)
  case h_9 =>
    split_ifs
    · exact shortens_failure.keeps
    · exact keeps_pure c
  all_goals exact keeps_pure _

theorem shortens_lexClassEscape : Shortens lexClassEscape := by
  refine shortens_next.bind fun c => ?_
  split
  case h_7 => exact shortens_failure.keeps
  all_goals exact keeps_pure _

theorem keeps_lexAtomEscape : Keeps (lexAtomEscape u env) := by
  have hdecimal : Keeps (lexDecimalEscape env) :=
    (keeps_span isDigit).bind fun _ => (keeps_check _).bind fun _ => keeps_pure _
  have hnamed : Keeps (lexNamedReference u env) :=
    (keeps_check _).bind fun _ => (shortens_char 'k').keeps.bind fun _ =>
      (shortens_char '<').keeps.bind fun _ => keeps_lexName u
  have hbackslash : Keeps (do
      let s ← get
      check (s.head? = some 'c'.toNat)
      pure (Atom.char '\\'.toNat) : Lexer Atom) :=
    keeps_get.bind fun _ => (keeps_check _).bind fun _ => keeps_pure _
  exact (hdecimal.map _).orElse ((shortens_lexClassEscape.keeps.map _).orElse
    ((shortens_lexCharacterEscape.keeps.map _).orElse ((hnamed.map _).orElse hbackslash)))

theorem keeps_lexClassAtomEscape : Keeps (lexClassAtomEscape env) := by
  have hb : Keeps (do char 'b'; pure (ClassItem.single 8) : Lexer ClassItem) :=
    (shortens_char 'b').keeps.bind fun _ => keeps_pure _
  have hcontrol : Keeps (do
      char 'c'
      let c ← next
      check ((isDigit c || c == '_'.toNat) = true)
      pure (ClassItem.single (c % 32)) : Lexer ClassItem) :=
    (shortens_char 'c').keeps.bind fun _ => shortens_next.keeps.bind fun _ =>
      (keeps_check _).bind fun _ => keeps_pure _
  have hbackslash : Keeps (do
      let s ← get
      check (s.head? = some 'c'.toNat)
      pure (ClassItem.single '\\'.toNat) : Lexer ClassItem) :=
    keeps_get.bind fun _ => (keeps_check _).bind fun _ => keeps_pure _
  exact hb.orElse (hcontrol.orElse (shortens_lexClassEscape.keeps.orElse
    ((shortens_lexCharacterEscape.keeps.map _).orElse hbackslash)))

theorem shortens_lexClassAtom : Shortens (lexClassAtom env) :=
  Shortens.orElse ((shortens_char '\\').bind fun _ => keeps_lexClassAtomEscape)
    (shortens_next.bind fun _ => (keeps_check _).bind fun _ => keeps_pure _)

theorem keeps_lexDash : Keeps lexDash :=
  (shortens_char '-').keeps.bind fun _ => keeps_get.bind fun _ => keeps_check _

theorem shortens_lexClassRange : Shortens (lexClassRange env) := by
  refine shortens_lexClassAtom.bind fun a => keeps_get.bind fun s => ?_
  split_ifs
  · exact keeps_lexDash.bind fun _ => shortens_lexClassAtom.keeps.bind fun _ => keeps_ofOption _
  · exact keeps_pure _

theorem keeps_lexClass : Keeps (lexClass env) := by
  have hinverted : Keeps ((do char '^'; pure true) <|> pure false : Lexer Bool) :=
    Keeps.orElse ((shortens_char '^').keeps.bind fun _ => keeps_pure _) (keeps_pure _)
  exact hinverted.bind fun _ =>
    (keeps_many (shortens_char ']').keeps shortens_lexClassRange).bind fun _ => keeps_pure _

theorem keeps_lexFlags : Keeps lexFlags := (keeps_span _).map _

theorem keeps_lexModifiers : Keeps lexModifiers := by
  refine keeps_lexFlags.bind fun add => Keeps.bind (Keeps.orElse ?_ (keeps_pure [])) fun remove => ?_
  · exact (shortens_char '-').keeps.bind fun _ => keeps_lexFlags.bind fun _ =>
      (keeps_check _).bind fun _ => keeps_pure _
  · exact (shortens_char ':').keeps.bind fun _ => (keeps_check _).bind fun _ => keeps_pure _

theorem keeps_lexGroup : Keeps (lexGroup u) := by
  have hchar : ∀ (c : Char) {p : Lexer GroupKind}, Keeps p → Keeps (do char c; p) :=
    fun c _ hp => (shortens_char c).keeps.bind fun _ => hp
  refine keeps_get.bind fun s => ?_
  split_ifs
  · refine hchar '?' ?_
    refine (hchar '=' (keeps_pure _)).orElse ?_
    refine (hchar '!' (keeps_pure _)).orElse ?_
    refine (hchar '<' (hchar '=' (keeps_pure _))).orElse ?_
    refine (hchar '<' (hchar '!' (keeps_pure _))).orElse ?_
    refine (hchar '<' ((keeps_lexName u).bind fun _ => keeps_pure _)).orElse ?_
    exact keeps_lexModifiers
  · exact keeps_pure _

theorem keeps_lexBraces : Keeps lexBraces := by
  refine (keeps_span isDigit).bind fun _ => (keeps_check _).bind fun _ => Keeps.orElse ?_ ?_
  · exact (shortens_char '\x7d').keeps.bind fun _ => keeps_pure _
  · exact (shortens_char ',').keeps.bind fun _ => (keeps_span isDigit).bind fun _ =>
      (shortens_char '\x7d').keeps.bind fun _ => keeps_pure _

theorem keeps_lexQuantifier (min : ℕ) (max : Option ℕ) : Keeps (lexQuantifier min max) := by
  refine (keeps_check _).bind fun _ => Keeps.bind (Keeps.orElse ?_ (keeps_pure true)) fun _ =>
    keeps_pure _
  exact (shortens_char '?').keeps.bind fun _ => keeps_pure _

/-- A token takes a code unit at least. -/
theorem shortens_lexToken : Shortens (lexToken u env) := by
  refine shortens_next.bind fun c => ?_
  split
  case h_2 => exact keeps_lexGroup.map _
  case h_4 => exact keeps_lexQuantifier 0 none
  case h_5 => exact keeps_lexQuantifier 1 none
  case h_6 => exact keeps_lexQuantifier 0 (some 1)
  case h_7 =>
    refine keeps_get.bind fun s => ?_
    split_ifs
    · exact keeps_lexBraces.bind fun x => keeps_lexQuantifier x.1 x.2
    · exact keeps_pure _
  case h_11 => exact keeps_lexClass.map _
  case h_12 =>
    refine Keeps.orElse ((shortens_char 'b').keeps.bind fun _ => keeps_pure _) ?_
    refine Keeps.orElse ((shortens_char 'B').keeps.bind fun _ => keeps_pure _) ?_
    exact keeps_lexAtomEscape.map _
  all_goals exact keeps_pure _

end

end RegExp
end Lib
