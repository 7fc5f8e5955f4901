/-
# The tokens of a line

`decorateLineNode` cuts the spans that the highlighter made of a line into
tokens: the blanks in front of the text of a span, the text, the blanks behind
it. Each token carries the range of its characters in the line, from a running
offset; comments are anchored at these ranges.

The cut loses no text, and the tokens tile the line
(`decorateLineNode_tiles`): by induction over the spans, with the offset open.

Key definitions: `ElementContent`, `textContent`, `decorateLineNode`, `Tiles`.
Key theorems: `getTextLength_eq`, `peelLeading_text`, `peelTrailing_text`,
`tiles_append`, `Decoration.Covers.run`, `decorateLineNode_tiles`,
`decorateLineNode_before`.
-/
import Gitdot.Lib.Utf16
import Gitdot.Web.Layouts
import Mathlib.Data.List.DropRight

namespace Gitdot

open Lib

/-! ### Nodes -/

/-- The properties of an element: its classes, the range of a token, and
whatever else there is. -/
structure Properties where
  classes : Option (List String)
  dataCharStart : Option ℕ
  dataCharEnd : Option ℕ
  others : List (String × String)

inductive ElementContent where
  | text (value : CodeUnits)
  | comment (value : CodeUnits)
  | element (tagName : String) (properties : Properties) (children : List ElementContent)

structure Element where
  tagName : String
  properties : Properties
  children : List ElementContent

def Element.node (e : Element) : ElementContent := .element e.tagName e.properties e.children

mutual

def getTextLength : ElementContent → ℕ
  | .text value => value.length
  | .comment _ => 0
  | .element _ _ children => sumTextLength children

/-- `children.reduce((sum, c) => sum + getTextLength(c), 0)`. -/
def sumTextLength : List ElementContent → ℕ
  | [] => 0
  | c :: cs => getTextLength c + sumTextLength cs

end

/-! ### Blanks -/

/-- A space or a tab. -/
def isBlank (c : ℕ) : Bool := decide (c = 0x20 ∨ c = 0x09)

def takeLeadingSpaces (value : CodeUnits) : CodeUnits × CodeUnits :=
  (value.takeWhile isBlank, value.dropWhile isBlank)

def takeTrailingSpaces (value : CodeUnits) : CodeUnits × CodeUnits :=
  (value.rdropWhile isBlank, value.rtakeWhile isBlank)

/-- `leadingSpaces`, and the children that are left. -/
def peelLeading : List ElementContent → CodeUnits × List ElementContent
  | .text value :: cs =>
    match takeLeadingSpaces value with
    | ([], _) => ([], .text value :: cs)
    | (spaces, []) => (spaces, cs)
    | (spaces, rest) => (spaces, .text rest :: cs)
  | cs => ([], cs)

/-- The children that are left, and `trailingSpaces`. -/
def peelTrailing (cs : List ElementContent) : List ElementContent × CodeUnits :=
  match cs.getLast? with
  | some (.text value) =>
    match takeTrailingSpaces value with
    | (_, []) => (cs, [])
    | ([], spaces) => (cs.dropLast, spaces)
    | (rest, spaces) => (cs.dropLast ++ [.text rest], spaces)
  | _ => (cs, [])

/-! ### Tokens -/

/-- `makeToken` for a range. -/
def makeToken (child : Element) (charStart charEnd : ℕ) (children : List ElementContent) :
    ElementContent :=
  .element child.tagName
    { child.properties with
      classes := some (match child.properties.classes with
        | some classes => classes ++ ["diff-token"]
        | none => ["diff-token"])
      dataCharStart := some charStart
      dataCharEnd := some charEnd }
    children

/-- `newChildren` and `charOffset`. -/
structure Decoration where
  newChildren : List ElementContent
  charOffset : ℕ

/-- A token of so many characters is pushed if there is something in it. -/
def Decoration.pushToken (s : Decoration) (child : Element) (present : Bool) (length : ℕ)
    (children : List ElementContent) : Decoration :=
  if present then
    ⟨s.newChildren ++ [makeToken child s.charOffset (s.charOffset + length) children],
      s.charOffset + length⟩
  else s

/-- What the loop does for a child of the line. -/
def decorateChild (s : Decoration) : ElementContent → Decoration
  | .element tagName properties children =>
    let child : Element := ⟨tagName, properties, children⟩
    let (leadingSpaces, spanChildren) := peelLeading children
    let (spanChildren, trailingSpaces) := peelTrailing spanChildren
    ((s.pushToken child (!leadingSpaces.isEmpty) leadingSpaces.length [.text leadingSpaces]).pushToken
      child (!spanChildren.isEmpty) (sumTextLength spanChildren) spanChildren).pushToken
      child (!trailingSpaces.isEmpty) trailingSpaces.length [.text trailingSpaces]
  | child => { s with newChildren := s.newChildren ++ [child] }

def decorateLineNode (lineNode : Element) : Element :=
  { lineNode with children := (lineNode.children.foldl decorateChild ⟨[], 0⟩).newChildren }

/-! ### Text -/

mutual

/-- The text of a node, in the order of the document. -/
def textContent : ElementContent → CodeUnits
  | .text value => value
  | .comment _ => []
  | .element _ _ children => textOf children

/-- The text of all the nodes together. -/
def textOf : List ElementContent → CodeUnits
  | [] => []
  | c :: cs => textContent c ++ textOf cs

end

mutual

theorem getTextLength_eq : ∀ c : ElementContent, getTextLength c = (textContent c).length
  | .text _ => rfl
  | .comment _ => rfl
  | .element _ _ children => by
    unfold getTextLength textContent
    exact sumTextLength_eq children

theorem sumTextLength_eq : ∀ cs : List ElementContent, sumTextLength cs = (textOf cs).length
  | [] => rfl
  | c :: cs => by
    unfold sumTextLength textOf
    rw [List.length_append, getTextLength_eq c, sumTextLength_eq cs]

end

@[simp] theorem textOf_nil : textOf [] = [] := rfl

@[simp] theorem textOf_cons (c : ElementContent) (cs : List ElementContent) :
    textOf (c :: cs) = textContent c ++ textOf cs := rfl

@[simp] theorem textContent_text (value : CodeUnits) : textContent (.text value) = value := rfl

@[simp] theorem textOf_append : ∀ cs ds : List ElementContent,
    textOf (cs ++ ds) = textOf cs ++ textOf ds
  | [], _ => rfl
  | c :: cs, ds => by
    rw [List.cons_append, textOf_cons, textOf_cons, textOf_append cs ds, List.append_assoc]

theorem takeLeadingSpaces_append (value : CodeUnits) :
    (takeLeadingSpaces value).1 ++ (takeLeadingSpaces value).2 = value :=
  List.takeWhile_append_dropWhile

theorem takeTrailingSpaces_append (value : CodeUnits) :
    (takeTrailingSpaces value).1 ++ (takeTrailingSpaces value).2 = value := by
  unfold takeTrailingSpaces List.rdropWhile List.rtakeWhile
  rw [← List.reverse_append, List.takeWhile_append_dropWhile, List.reverse_reverse]

/-- The blanks cut off in front, then what is left, are the text of the span. -/
theorem peelLeading_text (cs : List ElementContent) :
    (peelLeading cs).1 ++ textOf (peelLeading cs).2 = textOf cs := by
  unfold peelLeading
  split
  · next value cs =>
    have hcut := takeLeadingSpaces_append value
    rw [textOf_cons, textContent_text]
    split
    · rfl
    · next hcase =>
      rw [hcase, List.append_nil] at hcut
      rw [hcut]
    · next hcase =>
      rw [hcase] at hcut
      rw [textOf_cons, textContent_text, ← List.append_assoc, hcut]
  · rfl

/-- The same with the blanks cut off behind. -/
theorem peelTrailing_text (cs : List ElementContent) :
    textOf (peelTrailing cs).1 ++ (peelTrailing cs).2 = textOf cs := by
  unfold peelTrailing
  split
  · next value hlast =>
    have hcut := takeTrailingSpaces_append value
    have hcs : textOf cs.dropLast ++ value = textOf cs := by
      conv_rhs => rw [← List.dropLast_append_getLast? _ hlast]
      simp
    split
    · rw [List.append_nil]
    · next hcase =>
      rw [hcase, List.nil_append] at hcut
      rw [hcut, hcs]
    · next hcase =>
      rw [hcase] at hcut
      rw [textOf_append, List.append_assoc, ← hcs, ← hcut]
      simp
  · rw [List.append_nil]

/-! ### The tiling -/

/-- The range of a `.diff-token`. -/
def readToken : ElementContent → Option DiffToken
  | .element _ properties _ =>
    match properties.classes, properties.dataCharStart, properties.dataCharEnd with
    | some classes, some charStart, some charEnd =>
      if "diff-token" ∈ classes then some ⟨charStart, charEnd⟩ else none
    | _, _, _ => none
  | _ => none

/-- The nodes are tokens that lie side by side from `lo` to `hi`, each as long as
its text. -/
def Tiles : ℕ → List ElementContent → ℕ → Prop
  | lo, [], hi => lo = hi
  | lo, c :: cs, hi =>
    readToken c = some ⟨lo, lo + (textContent c).length⟩ ∧ Tiles (lo + (textContent c).length) cs hi

theorem readToken_makeToken (child : Element) (lo hi : ℕ) (cs : List ElementContent) :
    readToken (makeToken child lo hi cs) = some ⟨lo, hi⟩ := by
  refine if_pos ?_
  cases child.properties.classes with
  | none => exact List.mem_singleton_self _
  | some classes => exact List.mem_append_right _ (List.mem_singleton_self _)

theorem textContent_makeToken (child : Element) (lo hi : ℕ) (cs : List ElementContent) :
    textContent (makeToken child lo hi cs) = textOf cs := rfl

theorem tiles_append : ∀ {lo mid hi : ℕ} {cs ds : List ElementContent},
    Tiles lo cs mid → Tiles mid ds hi → Tiles lo (cs ++ ds) hi
  | _, _, _, [], _, rfl, h => h
  | _, _, _, _ :: _, _, ⟨hc, hcs⟩, h => ⟨hc, tiles_append hcs h⟩

section

variable {lo hi : ℕ} {cs : List ElementContent}

/-- No token starts in front of the first one. -/
theorem Tiles.le_charStart : ∀ {lo hi : ℕ} {cs : List ElementContent}, Tiles lo cs hi →
    ∀ t ∈ cs.filterMap readToken, lo ≤ t.charStart
  | _, _, [], _, _, ht => nomatch ht
  | lo, hi, c :: cs, ⟨hc, hcs⟩, t, ht => by
    rw [List.filterMap_cons_some hc, List.mem_cons] at ht
    obtain rfl | ht := ht
    · exact le_rfl
    · exact (Nat.le_add_right _ _).trans (hcs.le_charStart t ht)

theorem Tiles.isToken : ∀ {lo hi : ℕ} {cs : List ElementContent}, Tiles lo cs hi →
    ∀ c ∈ cs, ∃ t, readToken c = some t ∧ t.charEnd = t.charStart + (textContent c).length
  | _, _, [], _, _, hc => nomatch hc
  | _, _, d :: cs, ⟨hd, hcs⟩, c, hc => by
    obtain rfl | hc := List.mem_cons.mp hc
    · exact ⟨_, hd, rfl⟩
    · exact hcs.isToken c hc

/-- The first token starts where the tiling does. -/
theorem Tiles.charStart_head? (h : Tiles lo cs hi) :
    ∀ t ∈ (cs.filterMap readToken).head?, t.charStart = lo := by
  cases cs with
  | nil => nofun
  | cons c cs =>
    rw [List.filterMap_cons_some h.1]
    rintro t ⟨⟩
    rfl

theorem Tiles.isChain : ∀ {lo hi : ℕ} {cs : List ElementContent}, Tiles lo cs hi →
    (cs.filterMap readToken).IsChain fun a b => a.charEnd = b.charStart
  | _, _, [], _ => .nil
  | _, _, c :: cs, ⟨hc, hcs⟩ => by
    rw [List.filterMap_cons_some hc, List.isChain_cons]
    exact ⟨fun t ht => (hcs.charStart_head? t ht).symm, hcs.isChain⟩

theorem Tiles.pairwise : ∀ {lo hi : ℕ} {cs : List ElementContent}, Tiles lo cs hi →
    (cs.filterMap readToken).Pairwise fun a b => a.charEnd ≤ b.charStart
  | _, _, [], _ => .nil
  | _, _, c :: cs, ⟨hc, hcs⟩ => by
    rw [List.filterMap_cons_some hc, List.pairwise_cons]
    exact ⟨fun t ht => hcs.le_charStart t ht, hcs.pairwise⟩

end

/-! ### The loop -/

/-- The tokens pushed so far tile the text that has been read. -/
structure Decoration.Covers (s : Decoration) (text : CodeUnits) : Prop where
  text : textOf s.newChildren = text
  tiles : Tiles 0 s.newChildren s.charOffset

/-- A push takes the text of its token along, and so does one that is left out
because there is none. -/
theorem Decoration.Covers.pushToken {s : Decoration} {text : CodeUnits} (h : s.Covers text)
    (child : Element) {present : Bool} {length : ℕ} {children : List ElementContent}
    (hlength : length = (textOf children).length) (habsent : present = false → textOf children = []) :
    (s.pushToken child present length children).Covers (text ++ textOf children) := by
  unfold Decoration.pushToken
  cases present with
  | false => rwa [if_neg Bool.false_ne_true, habsent rfl, List.append_nil]
  | true =>
    rw [if_pos rfl, hlength]
    refine ⟨?_, tiles_append h.tiles ⟨readToken_makeToken .., rfl⟩⟩
    rw [textOf_append, h.text, textOf_cons, textContent_makeToken, textOf_nil, List.append_nil]

theorem textOf_blanks (spaces : CodeUnits) : textOf [.text spaces] = spaces := List.append_nil spaces

/-- **One span.** Its three parts are its text. -/
theorem Decoration.Covers.decorateChild {s : Decoration} {text : CodeUnits} (h : s.Covers text)
    (tagName : String) (properties : Properties) (children : List ElementContent) :
    (decorateChild s (.element tagName properties children)).Covers (text ++ textOf children) := by
  let child : Element := ⟨tagName, properties, children⟩
  have hblanks : ∀ spaces : CodeUnits, (!spaces.isEmpty) = false → textOf [.text spaces] = [] := by
    intro spaces hempty
    rw [textOf_blanks]
    simpa using hempty
  have hnone : ∀ cs : List ElementContent, (!cs.isEmpty) = false → textOf cs = [] := by
    intro cs hempty
    obtain rfl : cs = [] := by simpa using hempty
    rfl
  have hleading := h.pushToken child (by rw [textOf_blanks]) (hblanks (peelLeading children).1)
  have hcontent := hleading.pushToken child (sumTextLength_eq _)
    (hnone (peelTrailing (peelLeading children).2).1)
  have htrailing := hcontent.pushToken child (by rw [textOf_blanks])
    (hblanks (peelTrailing (peelLeading children).2).2)
  rw [textOf_blanks, textOf_blanks, List.append_assoc, List.append_assoc, peelTrailing_text,
    peelLeading_text] at htrailing
  exact htrailing

/-- An element. -/
def ElementContent.isElement : ElementContent → Bool
  | .element _ _ _ => true
  | _ => false

/-- **The line.** By induction over the spans. -/
theorem Decoration.Covers.run : ∀ {cs : List ElementContent} {s : Decoration} {text : CodeUnits},
    s.Covers text → (∀ c ∈ cs, c.isElement = true) →
    (cs.foldl Gitdot.decorateChild s).Covers (text ++ textOf cs)
  | [], _, text, h, _ => by rwa [textOf_nil, List.append_nil]
  | .text _ :: _, _, _, _, hcs => nomatch hcs _ List.mem_cons_self
  | .comment _ :: _, _, _, _, hcs => nomatch hcs _ List.mem_cons_self
  | .element tagName properties children :: cs, _, text, h, hcs => by
    have hrest := (h.decorateChild tagName properties children).run
      fun c hc => hcs c (List.mem_cons_of_mem _ hc)
    rwa [List.append_assoc] at hrest

theorem decorateLineNode_covers {line : Element} (h : ∀ c ∈ line.children, c.isElement = true) :
    (line.children.foldl decorateChild ⟨[], 0⟩).Covers (textOf line.children) :=
  have hstart : Decoration.Covers ⟨[], 0⟩ [] := ⟨rfl, rfl⟩
  hstart.run h

/-- The tokens of a line. -/
def lineTokens (line : Element) : List DiffToken := line.children.filterMap readToken

/-- The tokens of a line are all there is in it; their ranges start at 0, follow
one another without overlap and are as long as their texts. -/
structure TiledByTokens (line : Element) : Prop where
  tokens : ∀ c ∈ line.children, ∃ t, readToken c = some t ∧
    t.charEnd = t.charStart + (textContent c).length
  start : ∀ t ∈ (lineTokens line).head?, t.charStart = 0
  consecutive : (lineTokens line).IsChain fun a b => a.charEnd = b.charStart
  apart : (lineTokens line).Pairwise fun a b => a.charEnd ≤ b.charStart

/-- **Decoration tiles the line.** A line of spans keeps its text, and its tokens
tile it. -/
theorem decorateLineNode_tiles (line : Element) (h : ∀ c ∈ line.children, c.isElement = true) :
    textOf (decorateLineNode line).children = textOf line.children ∧ TiledByTokens (decorateLineNode line) :=
  have hline := decorateLineNode_covers h
  ⟨hline.text, hline.tiles.isToken, hline.tiles.charStart_head?, hline.tiles.isChain,
    hline.tiles.pairwise⟩

/-- Blanks on either side, a nested span and an empty one. -/
def spacedLine : Element :=
  let plain : Properties := ⟨none, none, none, []⟩
  ⟨"diffline", plain,
    [.element "span" plain [.text [0x09, 0x20, 0x61, 0x20]], .element "span" plain [],
      .element "span" plain [.element "b" plain [.text [0x62, 0x20]], .text [0x63]]]⟩

theorem decorateLineNode_tiles_spacedLine :
    textOf (decorateLineNode spacedLine).children = textOf spacedLine.children ∧
      TiledByTokens (decorateLineNode spacedLine) :=
  decorateLineNode_tiles spacedLine (by decide)

example : lineTokens (decorateLineNode spacedLine) = [⟨0, 2⟩, ⟨2, 3⟩, ⟨3, 4⟩, ⟨4, 7⟩] := by decide

/-! ### The highlighter's spans -/

/-- Nothing, or one text with something in it. -/
def Solid (cs : List ElementContent) : Prop := cs = [] ∨ ∃ value, value ≠ [] ∧ cs = [.text value]

theorem Solid.textOf_ne_nil {cs : List ElementContent} (h : Solid cs) (hne : cs ≠ []) :
    textOf cs ≠ [] := by
  obtain rfl | ⟨value, hvalue, rfl⟩ := h
  · exact absurd rfl hne
  · rwa [textOf_blanks]

theorem Solid.peelLeading {cs : List ElementContent} (h : Solid cs) : Solid (peelLeading cs).2 := by
  obtain rfl | ⟨value, hvalue, rfl⟩ := h
  · exact .inl rfl
  · simp only [Gitdot.peelLeading]
    split
    · exact .inr ⟨value, hvalue, rfl⟩
    · exact .inl rfl
    · next rest _ hrest _ => exact .inr ⟨rest, hrest, rfl⟩

theorem Solid.peelTrailing {cs : List ElementContent} (h : Solid cs) : Solid (peelTrailing cs).1 := by
  obtain rfl | ⟨value, hvalue, rfl⟩ := h
  · exact .inl rfl
  · unfold Gitdot.peelTrailing
    split
    · split
      · exact .inr ⟨value, hvalue, rfl⟩
      · exact .inl rfl
      · next rest _ _ hrest _ => exact .inr ⟨rest, fun hnil => hrest hnil, rfl⟩
    · exact .inr ⟨value, hvalue, rfl⟩

/-- A span of the highlighter: one text, with something in it. -/
def ElementContent.IsSpan : ElementContent → Prop
  | .element _ _ children => Solid children ∧ children ≠ []
  | _ => False

/-- No token pushed so far is empty. -/
def Decoration.NoneEmpty (s : Decoration) : Prop := ∀ c ∈ s.newChildren, textContent c ≠ []

theorem Decoration.NoneEmpty.pushToken {s : Decoration} (h : s.NoneEmpty) (child : Element)
    (length : ℕ) {present : Bool} {children : List ElementContent}
    (hpresent : present = true → textOf children ≠ []) :
    (s.pushToken child present length children).NoneEmpty := by
  unfold Decoration.pushToken
  cases present with
  | false => exact h
  | true =>
    intro c hc
    obtain hc | hc := List.mem_append.mp hc
    · exact h c hc
    · rw [List.mem_singleton.mp hc]
      exact hpresent rfl

theorem Decoration.NoneEmpty.decorateChild {s : Decoration} (h : s.NoneEmpty) {c : ElementContent}
    (hspan : c.IsSpan) : (decorateChild s c).NoneEmpty := by
  cases c with
  | text _ => exact hspan.elim
  | comment _ => exact hspan.elim
  | element tagName properties children =>
    let child : Element := ⟨tagName, properties, children⟩
    have hblanks : ∀ spaces : CodeUnits, (!spaces.isEmpty) = true → textOf [.text spaces] ≠ [] := by
      intro spaces hpresent
      rw [textOf_blanks]
      simpa using hpresent
    have hsolid : ∀ cs : List ElementContent, Solid cs → (!cs.isEmpty) = true → textOf cs ≠ [] :=
      fun cs hcs hpresent => hcs.textOf_ne_nil (by simpa using hpresent)
    have hleading := h.pushToken child (peelLeading children).1.length (hblanks (peelLeading children).1)
    have hcontent := hleading.pushToken child
      (sumTextLength (peelTrailing (peelLeading children).2).1)
      (hsolid _ hspan.1.peelLeading.peelTrailing)
    exact hcontent.pushToken child _ (hblanks (peelTrailing (peelLeading children).2).2)

theorem Decoration.NoneEmpty.run : ∀ {cs : List ElementContent} {s : Decoration}, s.NoneEmpty →
    (∀ c ∈ cs, c.IsSpan) → (cs.foldl Gitdot.decorateChild s).NoneEmpty
  | [], _, h, _ => h
  | c :: _, _, h, hcs =>
    (h.decorateChild (hcs c List.mem_cons_self)).run fun d hd => hcs d (List.mem_cons_of_mem c hd)

/-- Where no token is empty, the tokens are in the order of their ranges. -/
theorem Tiles.before : ∀ {lo hi : ℕ} {cs : List ElementContent}, Tiles lo cs hi →
    (∀ c ∈ cs, textContent c ≠ []) → (cs.filterMap readToken).Pairwise DiffToken.Before
  | _, _, [], _, _ => .nil
  | _, _, c :: _, ⟨hc, hcs⟩, hne => by
    have hrest := fun d hd => hne d (List.mem_cons_of_mem c hd)
    have hpos : 0 < (textContent c).length := List.length_pos_iff.mpr (hne c List.mem_cons_self)
    rw [List.filterMap_cons_some hc, List.pairwise_cons]
    refine ⟨fun t ht => ?_, hcs.before hrest⟩
    obtain ⟨d, hd, hdt⟩ := List.mem_filterMap.mp ht
    obtain ⟨t', ht', hend⟩ := hcs.isToken d hd
    obtain rfl : t' = t := Option.some.inj (ht'.symm.trans hdt)
    have hstart := hcs.le_charStart t' ht
    have hlen : 0 < (textContent d).length := List.length_pos_iff.mpr (hrest d hd)
    exact ⟨by simp only; omega, by simp only; omega⟩

/-- **Anchors.** The tokens of a line of the highlighter's spans have increasing
ranges, which is what the anchors of comments ask of a rendered diff. -/
theorem decorateLineNode_before {line : Element} (h : ∀ c ∈ line.children, c.IsSpan) :
    (lineTokens (decorateLineNode line)).Pairwise DiffToken.Before := by
  have helement : ∀ c ∈ line.children, c.isElement = true := by
    intro c hc
    cases c with
    | text _ => exact (h _ hc).elim
    | comment _ => exact (h _ hc).elim
    | element _ _ _ => rfl
  have hstart : Decoration.NoneEmpty ⟨[], 0⟩ := nofun
  exact (decorateLineNode_covers helement).tiles.before (hstart.run h)

end Gitdot
