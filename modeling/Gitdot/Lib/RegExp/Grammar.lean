/-
# Regular expressions: patterns

The grammar of patterns over their tokens (`Derives`), and the parser: it goes
over the tokens once, with a stack of the groups that are open. The parser accepts
what the grammar derives and nothing else (`parse_eq_some`): a token leaves the
stack in agreement with what has been read (`Reads.step`), and what is derived is
pushed by the parser whatever the stack (`Derives.run`). So a pattern has one tree.

Key definitions: `Node`, `Derives`, `Frame`, `step`, `parse`.
Key theorems: `Reads.step`, `Derives.run`, `parse_eq_some`.
-/
import Gitdot.Lib.RegExp.Tokens

namespace Lib
namespace RegExp

/-! ### The grammar -/

/-- The tree of a pattern. -/
inductive Node where
  | empty
  | seq (alternative term : Node)
  | alt (alternative disjunction : Node)
  | assertion (a : Assertion)
  | atom (a : Atom)
  | group (kind : GroupKind) (body : Node)
  | quantified (q : Quantifier) (body : Node)

/-- All groups but a look behind can be quantified. -/
def GroupKind.quantifiable : GroupKind → Bool
  | .look true _ => false
  | _ => true

inductive Phrase where
  | atom
  | term
  | alternative
  | disjunction

/-- The grammar. -/
inductive Derives : Phrase → List Token → Node → Prop
  | atom (a : Atom) : Derives .atom [.atom a] (.atom a)
  | group {kind : GroupKind} {ts : List Token} {body : Node} : kind.quantifiable = true →
      Derives .disjunction ts body → Derives .atom (.opening kind :: (ts ++ [.closing])) (.group kind body)
  | plain {ts : List Token} {n : Node} : Derives .atom ts n → Derives .term ts n
  | quantified {ts : List Token} {n : Node} (q : Quantifier) : Derives .atom ts n →
      Derives .term (ts ++ [.quantifier q]) (.quantified q n)
  | assertion (a : Assertion) : Derives .term [.assertion a] (.assertion a)
  | lookBehind {kind : GroupKind} {ts : List Token} {body : Node} : kind.quantifiable = false →
      Derives .disjunction ts body → Derives .term (.opening kind :: (ts ++ [.closing])) (.group kind body)
  | empty : Derives .alternative [] .empty
  | seq {ts us : List Token} {a t : Node} : Derives .alternative ts a → Derives .term us t →
      Derives .alternative (ts ++ us) (.seq a t)
  | one {ts : List Token} {a : Node} : Derives .alternative ts a → Derives .disjunction ts a
  | alt {ts us : List Token} {a d : Node} : Derives .alternative ts a → Derives .disjunction us d →
      Derives .disjunction (ts ++ .bar :: us) (.alt a d)

/-! ### The parser -/

/-- The inside of a group as far as it has been read: the alternatives that are closed,
the last one first, the terms of the alternative that is open but for the last one, and the last
one, with whether a quantifier may follow it. -/
structure Frame where
  before : List Node
  alternative : Node
  last : Option (Node × Bool)

namespace Frame

def fresh : Frame := ⟨[], .empty, none⟩

/-- The open alternative. -/
def current (f : Frame) : Node :=
  match f.last with
  | none => f.alternative
  | some (t, _) => .seq f.alternative t

def push (f : Frame) (t : Node) (quantifiable : Bool) : Frame :=
  ⟨f.before, f.current, some (t, quantifiable)⟩

def close (f : Frame) : Node := f.before.foldl (fun d a => .alt a d) f.current

end Frame

/-- The innermost frame, and the groups that are open with the frames around them. -/
structure Stack where
  top : Frame
  below : List (GroupKind × Frame)

/-- The parser on one token, `none` where it cannot stand. -/
def step (s : Stack) : Token → Option Stack
  | .atom a => some { s with top := s.top.push (.atom a) true }
  | .assertion a => some { s with top := s.top.push (.assertion a) false }
  | .quantifier q =>
    match s.top.last with
    | some (n, true) => some { s with top := { s.top with last := some (.quantified q n, false) } }
    | _ => none
  | .bar => some { s with top := ⟨s.top.current :: s.top.before, .empty, none⟩ }
  | .opening kind => some ⟨.fresh, (kind, s.top) :: s.below⟩
  | .closing =>
    match s.below with
    | (kind, f) :: below => some ⟨f.push (.group kind s.top.close) kind.quantifiable, below⟩
    | [] => none

def parse (ts : List Token) : Option Node :=
  (ts.foldlM step ⟨.fresh, []⟩).bind fun s => if s.below = [] then some s.top.close else none

/-! ### What is derived is parsed -/

theorem run_append {ts us : List Token} {s s' : Stack} (h : ts.foldlM step s = some s') :
    (ts ++ us).foldlM step s = us.foldlM step s' := by
  rw [List.foldlM_append, h]
  rfl

/-- A frame with nothing in its open alternative. -/
def Frame.IsOpen (f : Frame) : Prop := f.alternative = .empty ∧ f.last = none

/-- What the parser does with the tokens of a phrase, whatever is on the stack. -/
def Pushes (ts : List Token) (n : Node) : Phrase → Prop
  | .atom => ∀ s : Stack, ts.foldlM step s = some ⟨s.top.push n true, s.below⟩
  | .term => ∃ quantifiable, ∀ s : Stack,
      ts.foldlM step s = some ⟨s.top.push n quantifiable, s.below⟩
  | .alternative => ∀ s : Stack, s.top.IsOpen →
      ∃ f : Frame, ts.foldlM step s = some ⟨f, s.below⟩ ∧ f.before = s.top.before ∧ f.current = n
  | .disjunction => ∀ s : Stack, s.top.IsOpen →
      ∃ f : Frame, ts.foldlM step s = some ⟨f, s.below⟩ ∧
        f.close = s.top.before.foldl (fun d a => .alt a d) n

/-- A group is read as its body in a frame of its own. -/
theorem run_group {kind : GroupKind} {ts : List Token} {body : Node}
    (h : Pushes ts body .disjunction) (s : Stack) :
    (Token.opening kind :: (ts ++ [Token.closing])).foldlM step s =
      some ⟨s.top.push (.group kind body) kind.quantifiable, s.below⟩ := by
  obtain ⟨f, hrun, hclose⟩ := h ⟨.fresh, (kind, s.top) :: s.below⟩ ⟨rfl, rfl⟩
  have hopen : (Token.opening kind :: (ts ++ [Token.closing])).foldlM step s =
      (ts ++ [Token.closing]).foldlM step ⟨.fresh, (kind, s.top) :: s.below⟩ := rfl
  have hbody : f.close = body := hclose
  rw [hopen, run_append hrun, ← hbody]
  rfl

/-- **Completeness.** By induction over the derivation. -/
theorem Derives.run {phrase : Phrase} {ts : List Token} {n : Node} (h : Derives phrase ts n) :
    Pushes ts n phrase := by
  induction h with
  | atom a => exact fun s => rfl
  | group hkind _ ih => exact fun s => hkind ▸ run_group ih s
  | plain _ ih => exact ⟨true, ih⟩
  | quantified q _ ih =>
    refine ⟨false, fun s => ?_⟩
    rw [run_append (ih s)]
    rfl
  | assertion a => exact ⟨false, fun s => rfl⟩
  | lookBehind hkind _ ih => exact ⟨false, fun s => hkind ▸ run_group ih s⟩
  | empty =>
    rintro s ⟨halternative, hlast⟩
    refine ⟨s.top, rfl, rfl, ?_⟩
    rw [Frame.current, hlast]
    exact halternative
  | seq _ _ iha iht =>
    intro s hopen
    obtain ⟨f, hrun, hbefore, hcurrent⟩ := iha s hopen
    obtain ⟨quantifiable, hterm⟩ := iht
    refine ⟨f.push _ quantifiable, (run_append hrun).trans (hterm _), hbefore, ?_⟩
    rw [← hcurrent]
    rfl
  | one _ ih =>
    intro s hopen
    obtain ⟨f, hrun, hbefore, hcurrent⟩ := ih s hopen
    refine ⟨f, hrun, ?_⟩
    rw [Frame.close, hbefore, hcurrent]
  | alt _ _ iha ihd =>
    intro s hopen
    obtain ⟨f, hrun, hbefore, hcurrent⟩ := iha s hopen
    obtain ⟨g, hrest, hclose⟩ := ihd ⟨⟨f.current :: f.before, .empty, none⟩, s.below⟩ ⟨rfl, rfl⟩
    refine ⟨g, (run_append hrun).trans hrest, ?_⟩
    rw [hclose, hbefore, hcurrent]
    rfl

/-! ### What is parsed is derived -/

/-- The alternatives that are closed, with their bars. -/
def BeforeReads : List Node → List Token → Prop
  | [], ts => ts = []
  | a :: before, ts =>
    ∃ us vs, ts = us ++ (vs ++ [.bar]) ∧ BeforeReads before us ∧ Derives .alternative vs a

def LastReads : Option (Node × Bool) → List Token → Prop
  | none, ts => ts = []
  | some (n, true), ts => Derives .atom ts n
  | some (n, false), ts => Derives .term ts n

/-- The tokens of a frame. -/
def Frame.Reads (f : Frame) (ts : List Token) : Prop :=
  ∃ us vs ws, ts = us ++ (vs ++ ws) ∧ BeforeReads f.before us ∧
    Derives .alternative vs f.alternative ∧ LastReads f.last ws

/-- The tokens of the frames that are open, with their openings. -/
def BelowReads : List (GroupKind × Frame) → List Token → Prop
  | [], ts => ts = []
  | (kind, f) :: below, ts =>
    ∃ us vs, ts = us ++ (vs ++ [.opening kind]) ∧ BelowReads below us ∧ f.Reads vs

/-- The stack holds what has been read. -/
def Reads (s : Stack) (ts : List Token) : Prop :=
  ∃ us vs, ts = us ++ vs ∧ BelowReads s.below us ∧ s.top.Reads vs

namespace Frame.Reads

variable {f : Frame} {ts us : List Token} {n : Node} {quantifiable : Bool}

theorem fresh : Frame.fresh.Reads [] := ⟨[], [], [], rfl, rfl, .empty, rfl⟩

/-- The open alternative as a whole. -/
theorem current (h : f.Reads ts) :
    ∃ us vs, ts = us ++ vs ∧ BeforeReads f.before us ∧ Derives .alternative vs f.current := by
  obtain ⟨us, vs, ws, rfl, hbefore, halternative, hlast⟩ := h
  refine ⟨us, vs ++ ws, rfl, hbefore, ?_⟩
  unfold Frame.current
  match hf : f.last, hlast with
  | none, hlast =>
    obtain rfl : ws = [] := hlast
    rwa [List.append_nil]
  | some (n, true), hlast => exact halternative.seq (.plain hlast)
  | some (n, false), hlast => exact halternative.seq hlast

/-- A term behind what has been read. -/
theorem push (h : f.Reads ts) (hterm : LastReads (some (n, quantifiable)) us) :
    (f.push n quantifiable).Reads (ts ++ us) := by
  obtain ⟨vs, ws, rfl, hbefore, halternative⟩ := h.current
  exact ⟨vs, ws, us, by rw [List.append_assoc], hbefore, halternative, hterm⟩

end Frame.Reads

/-- Closed alternatives in front of a disjunction. -/
theorem BeforeReads.close : ∀ {before : List Node} {ts us : List Token} {d : Node},
    BeforeReads before ts → Derives .disjunction us d →
    Derives .disjunction (ts ++ us) (before.foldl (fun d a => .alt a d) d)
  | [], _, _, _, rfl, hd => hd
  | a :: before, _, us, d, ⟨vs, ws, rfl, hbefore, ha⟩, hd => by
    have hclosed := hbefore.close (ha.alt hd)
    rw [List.append_assoc, List.append_assoc]
    exact hclosed

theorem Frame.Reads.close {f : Frame} {ts : List Token} (h : f.Reads ts) :
    Derives .disjunction ts f.close := by
  obtain ⟨us, vs, rfl, hbefore, halternative⟩ := h.current
  exact hbefore.close (.one halternative)

/-- **One token.** -/
theorem Reads.step {s s' : Stack} {ts : List Token} {t : Token} (h : Reads s ts)
    (hstep : step s t = some s') : Reads s' (ts ++ [t]) := by
  obtain ⟨us, vs, rfl, hbelow, htop⟩ := h
  cases t with
  | atom a =>
    obtain rfl := Option.some.inj hstep
    have hatom : LastReads (some (.atom a, true)) [.atom a] := .atom a
    exact ⟨us, vs ++ [.atom a], by rw [List.append_assoc], hbelow, htop.push hatom⟩
  | assertion a =>
    obtain rfl := Option.some.inj hstep
    have hassertion : LastReads (some (.assertion a, false)) [.assertion a] := .assertion a
    exact ⟨us, vs ++ [.assertion a], by rw [List.append_assoc], hbelow, htop.push hassertion⟩
  | quantifier q =>
    obtain ⟨vs, ws, xs, rfl, hbefore, halternative, hlast⟩ := htop
    match hs : s.top.last, hlast with
    | none, _ => simp only [RegExp.step, hs] at hstep; cases hstep
    | some (n, false), _ => simp only [RegExp.step, hs] at hstep; cases hstep
    | some (n, true), hlast =>
      simp only [RegExp.step, hs] at hstep
      obtain rfl := Option.some.inj hstep
      have hterm : LastReads (some (.quantified q n, false)) (xs ++ [.quantifier q]) :=
        .quantified q hlast
      refine ⟨us, vs ++ (ws ++ (xs ++ [.quantifier q])), ?_, hbelow, vs, ws, xs ++ [.quantifier q], rfl,
        hbefore, halternative, hterm⟩
      simp only [List.append_assoc]
  | bar =>
    obtain rfl := Option.some.inj hstep
    obtain ⟨vs, ws, rfl, hbefore, halternative⟩ := htop.current
    refine ⟨us, vs ++ (ws ++ [.bar]), ?_, hbelow, vs ++ (ws ++ [.bar]), [], [], ?_,
      ⟨vs, ws, rfl, hbefore, halternative⟩, .empty, rfl⟩
    · simp only [List.append_assoc]
    · simp only [List.append_nil]
  | opening kind =>
    obtain rfl := Option.some.inj hstep
    refine ⟨us ++ (vs ++ [.opening kind]), [], ?_, ⟨us, vs, rfl, hbelow, htop⟩, .fresh⟩
    simp only [List.append_assoc, List.append_nil]
  | closing =>
    match hs : s.below, hbelow with
    | [], _ => simp only [RegExp.step, hs] at hstep; cases hstep
    | (kind, f) :: below, hbelow =>
      simp only [RegExp.step, hs] at hstep
      obtain rfl := Option.some.inj hstep
      obtain ⟨us, ws, rfl, hbelow, hf⟩ := hbelow
      have hgroup : LastReads (some (.group kind s.top.close, kind.quantifiable))
          (.opening kind :: (vs ++ [.closing])) := by
        cases hkind : kind.quantifiable with
        | true => exact .group hkind htop.close
        | false => exact .lookBehind hkind htop.close
      refine ⟨us, ws ++ .opening kind :: (vs ++ [.closing]), ?_, hbelow, hf.push hgroup⟩
      simp only [List.append_assoc, List.cons_append, List.nil_append]

/-- **Soundness.** By induction over the tokens. -/
theorem Reads.run : ∀ {us : List Token} {s s' : Stack} {ts : List Token}, Reads s ts →
    us.foldlM RegExp.step s = some s' → Reads s' (ts ++ us)
  | [], _, _, _, h, hrun => by
    obtain rfl := Option.some.inj hrun
    rwa [List.append_nil]
  | _ :: _, _, _, _, h, hrun => by
    obtain ⟨_, hstep, hrest⟩ := Option.bind_eq_some_iff.mp hrun
    have hreads := (h.step hstep).run hrest
    rwa [List.append_assoc] at hreads

/-- **The parser** accepts what the grammar derives, with the tree of its derivation. -/
theorem parse_eq_some {ts : List Token} {n : Node} :
    parse ts = some n ↔ Derives .disjunction ts n := by
  constructor
  · intro h
    obtain ⟨s, hrun, hclose⟩ := Option.bind_eq_some_iff.mp h
    split_ifs at hclose with hbelow
    obtain rfl := Option.some.inj hclose
    have hstart : Reads ⟨.fresh, []⟩ [] := ⟨[], [], rfl, rfl, .fresh⟩
    obtain ⟨us, vs, heq, hus, htop⟩ := hstart.run hrun
    rw [hbelow] at hus
    obtain rfl : us = [] := hus
    obtain rfl : ts = vs := heq
    exact htop.close
  · intro h
    obtain ⟨f, hrun, hclose⟩ := h.run ⟨.fresh, []⟩ ⟨rfl, rfl⟩
    rw [parse, hrun, Option.bind_some, if_pos rfl, hclose]
    rfl

end RegExp
end Lib
