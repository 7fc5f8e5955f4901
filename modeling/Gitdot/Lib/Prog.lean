/-
# Programs of fallible calls

A service method is a straight run of calls to a database and to other
clients, each of which may fail, and it stops at the first failure it does
not handle. `Prog` is the tree of its calls: what it asks and how it goes on
with each answer. `Prog.run` plays the tree against a state, and a plan says
which calls fail from outside (a lost connection) without having any effect:
`plan = []` is the run in which none does.

`Prog.wp` is the condition on the first state under which every run ends as
`Q` says, whichever of the calls that `F` exposes to failure do fail; it is
compositional (`wp_bind`, `wp_perform`) and sound for `run` (`wp_run`). With
no call exposed it decides the failure-free run exactly (`wp_noFault`), and
with all calls exposed it decides all runs (`wp_anyFault`). `Prog.Ensures` is
the latter where only success is asked about.

A program is `Strict` if it stops at the first call that fails; `callAt` finds
the call number `k` of its failure-free run, and `failAt k` fails that one.

A program `Obeys` a protocol if each of its calls, and each result it ends
with, is one that the protocol allows after what the program has seen,
whatever the calls answer. That is a property of the program alone, so it
still holds when its calls interleave with those of others. `Calls` is the
protocol that allows a call whatever was seen. `mapCalls` makes a program's
calls as calls of another kind, so that programs over different calls can run
side by side; a program that begins with such calls runs as the other does on
the part of the state that they work on (`run_mapCalls_bind`). A program
`Repeats` if it succeeds twice in a row and the second run changes nothing.

Key definitions: `Prog`, `Prog.Handler`, `Prog.run`, `Prog.wp`,
`Prog.Allowed`, `Prog.Ensures`, `Prog.Strict`, `Prog.callAt`, `Prog.Obeys`,
`Prog.Calls`, `Prog.mapCalls`, `Prog.AnswersOn`, `Prog.Repeats`.
Key theorems: `Prog.wp_bind`, `Prog.wp_perform`, `Prog.wp_run`,
`Prog.wp_noFault`, `Prog.wp_anyFault`, `Prog.ensures_iff`,
`Prog.ensures_bind`, `Prog.run_perform_bind_ok`, `Prog.run_failAt`,
`Prog.obeys_perform_bind`, `Prog.obeys_bind`, `Prog.Calls.obeys`,
`Prog.obeys_mapCalls`, `Prog.run_mapCalls_bind`.
-/
import Mathlib.Tactic.Common

namespace Lib

/-! ### Fallible values -/

section Fallible

variable {ε ε' α β : Type}

theorem bind_eq_ok {x : Except ε α} {f : α → Except ε β} {b : β} :
    x >>= f = .ok b ↔ ∃ a, x = .ok a ∧ f a = .ok b := by
  cases x with
  | ok a => exact ⟨fun h => ⟨a, rfl, h⟩, fun ⟨_, ha, h⟩ => Except.ok.inj ha ▸ h⟩
  | error e => exact ⟨nofun, nofun⟩

theorem mapError_eq_ok {x : Except ε α} {conv : ε → ε'} {a : α} :
    x.mapError conv = .ok a ↔ x = .ok a := by
  cases x with
  | ok b => simp [Except.mapError]
  | error e => exact ⟨nofun, nofun⟩

/-- `ok_or`. -/
def okOr (a : Option α) (e : ε) : Except ε α :=
  match a with
  | some a => .ok a
  | none => .error e

theorem okOr_eq_ok {x : Option α} {e : ε} {a : α} : okOr x e = .ok a ↔ x = some a := by
  cases x <;> simp [okOr]

end Fallible

/-! ### Programs -/

/-- Programs over the calls `C`: a call `c` answers with a `Resp c` or fails
with an `E`, and the program ends with an `α` or fails with an `ε`. -/
inductive Prog (C : Type) (Resp : C → Type) (E ε α : Type) : Type where
  | ret (a : α) : Prog C Resp E ε α
  | fail (e : ε) : Prog C Resp E ε α
  | call (c : C) (k : Except E (Resp c) → Prog C Resp E ε α) : Prog C Resp E ε α

namespace Prog

variable {C : Type} {Resp : C → Type} {E ε α β σ : Type}

/-- Sequencing: `f` goes on with what `p` returns. -/
def bind : Prog C Resp E ε α → (α → Prog C Resp E ε β) → Prog C Resp E ε β
  | .ret a, f => f a
  | .fail e, _ => .fail e
  | .call c k, f => .call c fun r => (k r).bind f

instance : Monad (Prog C Resp E ε) where
  pure := ret
  bind := bind

/-- One call, whose failure `e` ends the program with `conv e`. -/
def perform (conv : E → ε) (c : C) : Prog C Resp E ε (Resp c) :=
  .call c fun
    | .ok r => .ret r
    | .error e => .fail (conv e)

/-- The program that ends with the value or the error of `r`. -/
def liftExcept : Except ε α → Prog C Resp E ε α
  | .ok a => .ret a
  | .error e => .fail e

/-- The program with its result turned into another one. -/
def mapResult {ε' : Type} (f : Except ε α → Except ε' β) : Prog C Resp E ε α → Prog C Resp E ε' β
  | .ret a => liftExcept (f (.ok a))
  | .fail e => liftExcept (f (.error e))
  | .call c k => .call c fun r => (k r).mapResult f

@[simp] theorem pure_eq (a : α) : (pure a : Prog C Resp E ε α) = ret a := rfl
@[simp] theorem ret_bind (a : α) (f : α → Prog C Resp E ε β) : ret a >>= f = f a := rfl
@[simp] theorem fail_bind (e : ε) (f : α → Prog C Resp E ε β) : fail e >>= f = fail e := rfl
@[simp] theorem call_bind (c : C) (k : Except E (Resp c) → Prog C Resp E ε α)
    (f : α → Prog C Resp E ε β) : call c k >>= f = call c fun r => k r >>= f := rfl

/-- What answers the calls: `exec` performs one on a state, and `fault` is
the error of a call that fails from outside. -/
structure Handler (C : Type) (Resp : C → Type) (E σ : Type) where
  exec : (c : C) → σ → Except E (Resp c) × σ
  fault : C → E

/-! ### Runs -/

section Run

variable (h : Handler C Resp E σ)

/-- Plays a program from a state. The head of the plan says whether the next
call fails from outside; past its end no call does. -/
def run : Prog C Resp E ε α → List Bool → σ → Except ε α × σ
  | .ret a, _, s => (.ok a, s)
  | .fail e, _, s => (.error e, s)
  | .call c k, plan, s =>
    if plan.headD false then run (k (.error (h.fault c))) plan.tail s
    else run (k (h.exec c s).1) plan.tail (h.exec c s).2

/-- Every call the plan fails is one that `F` exposes to failure. -/
def Allowed (F : C → σ → Prop) : Prog C Resp E ε α → List Bool → σ → Prop
  | .ret _, _, _ => True
  | .fail _, _, _ => True
  | .call c k, plan, s =>
    if plan.headD false then F c s ∧ Allowed F (k (.error (h.fault c))) plan.tail s
    else Allowed F (k (h.exec c s).1) plan.tail (h.exec c s).2

instance decidableAllowed (F : C → σ → Prop) [∀ c s, Decidable (F c s)] :
    (p : Prog C Resp E ε α) → (plan : List Bool) → (s : σ) → Decidable (Allowed h F p plan s)
  | .ret _, _, _ => .isTrue trivial
  | .fail _, _, _ => .isTrue trivial
  | .call c k, plan, s =>
    if hp : plan.headD false = true then
      @decidable_of_iff' _ (F c s ∧ Allowed h F (k (.error (h.fault c))) plan.tail s)
        (by simp only [Allowed, if_pos hp])
        (@instDecidableAnd _ _ _ (decidableAllowed F (k (.error (h.fault c))) plan.tail s))
    else
      @decidable_of_iff' _ (Allowed h F (k (h.exec c s).1) plan.tail (h.exec c s).2)
        (by simp only [Allowed, if_neg hp])
        (decidableAllowed F (k (h.exec c s).1) plan.tail (h.exec c s).2)

/-- Every run from the state ends as `Q` says, where any call that `F`
exposes may fail from outside. -/
def wp (F : C → σ → Prop) (Q : Except ε α → σ → Prop) : Prog C Resp E ε α → σ → Prop
  | .ret a, s => Q (.ok a) s
  | .fail e, s => Q (.error e) s
  | .call c k, s =>
    (F c s → wp F Q (k (.error (h.fault c))) s) ∧ wp F Q (k (h.exec c s).1) (h.exec c s).2

variable {h}

@[simp] theorem run_ret (a : α) (plan : List Bool) (s : σ) :
    run h (ret a : Prog C Resp E ε α) plan s = (.ok a, s) := rfl

@[simp] theorem run_fail (e : ε) (plan : List Bool) (s : σ) :
    run h (fail e : Prog C Resp E ε α) plan s = (.error e, s) := rfl

section PerformBind

variable {c : C} {conv : E → ε} {k : Resp c → Prog C Resp E ε α} {plan : List Bool} {s s' : σ}

/-- A call that fails from outside ends the program. -/
theorem run_perform_bind_fault (hp : plan.headD false = true) :
    run h (perform conv c >>= k) plan s = (.error (conv (h.fault c)), s) := by
  unfold perform
  rw [call_bind, run, if_pos hp]
  rfl

/-- A call that answers, and what goes on from there. -/
theorem run_perform_bind_ok (hp : plan.headD false = false) {a : Resp c}
    (hx : h.exec c s = (.ok a, s')) :
    run h (perform conv c >>= k) plan s = run h (k a) plan.tail s' := by
  unfold perform
  rw [call_bind, run, if_neg (by rw [hp]; decide), hx]
  rfl

/-- A call that is refused ends the program. -/
theorem run_perform_bind_error (hp : plan.headD false = false) {e : E}
    (hx : h.exec c s = (.error e, s')) :
    run h (perform conv c >>= k) plan s = (.error (conv e), s') := by
  unfold perform
  rw [call_bind, run, if_neg (by rw [hp]; decide), hx]
  rfl

end PerformBind

theorem allowed_anyFault : ∀ (p : Prog C Resp E ε α) (plan : List Bool) (s : σ),
    Allowed h (fun _ _ => True) p plan s
  | .ret _, _, _ => trivial
  | .fail _, _, _ => trivial
  | .call c k, plan, s => by
    unfold Allowed
    split_ifs
    · exact ⟨trivial, allowed_anyFault _ _ _⟩
    · exact allowed_anyFault _ _ _

theorem allowed_nil (F : C → σ → Prop) : ∀ (p : Prog C Resp E ε α) (s : σ), Allowed h F p [] s
  | .ret _, _ => trivial
  | .fail _, _ => trivial
  | .call _ _, _ => by
    simp only [Allowed, List.headD_nil, Bool.false_eq_true, ↓reduceIte, List.tail_nil]
    exact allowed_nil F _ _

/-- **Soundness.** What `wp` promises holds at the end of every allowed run. -/
theorem wp_run {F : C → σ → Prop} {Q : Except ε α → σ → Prop} :
    ∀ {p : Prog C Resp E ε α} {plan : List Bool} {s : σ}, wp h F Q p s → Allowed h F p plan s →
      Q (run h p plan s).1 (run h p plan s).2
  | .ret _, _, _, hq, _ => hq
  | .fail _, _, _, hq, _ => hq
  | .call c k, plan, s, hq, ha => by
    unfold Allowed at ha
    unfold run
    split_ifs at ha ⊢ with hp
    · exact wp_run (hq.1 ha.1) ha.2
    · exact wp_run hq.2 ha

/-- **Invariants of calls.** What every call keeps, a run keeps. -/
theorem run_keeps {P : σ → Prop} (hexec : ∀ c s, P s → P (h.exec c s).2) :
    ∀ {p : Prog C Resp E ε α} {plan : List Bool} {s : σ}, P s → P (run h p plan s).2
  | .ret _, _, _, hs => hs
  | .fail _, _, _, hs => hs
  | .call c k, plan, s, hs => by
    unfold run
    split_ifs
    · exact run_keeps hexec hs
    · exact run_keeps hexec (hexec c s hs)

/-- With no call exposed to failure, `wp` is what the failure-free run does. -/
theorem wp_noFault {Q : Except ε α → σ → Prop} : ∀ {p : Prog C Resp E ε α} {s : σ},
    wp h (fun _ _ => False) Q p s ↔ Q (run h p [] s).1 (run h p [] s).2
  | .ret _, _ => Iff.rfl
  | .fail _, _ => Iff.rfl
  | .call c k, s => by
    simp only [wp, run, List.headD_nil, Bool.false_eq_true, ↓reduceIte, List.tail_nil,
      false_implies, true_and]
    exact wp_noFault

/-- With every call exposed to failure, `wp` is what all runs do. -/
theorem wp_anyFault {Q : Except ε α → σ → Prop} : ∀ {p : Prog C Resp E ε α} {s : σ},
    wp h (fun _ _ => True) Q p s ↔ ∀ plan, Q (run h p plan s).1 (run h p plan s).2
  | .ret _, _ => ⟨fun hq _ => hq, fun hq => hq []⟩
  | .fail _, _ => ⟨fun hq _ => hq, fun hq => hq []⟩
  | .call c k, s => by
    constructor
    · intro hq plan
      exact wp_run hq (allowed_anyFault _ plan s)
    · intro hq
      exact ⟨fun _ => wp_anyFault.mpr fun plan => hq (true :: plan),
        wp_anyFault.mpr fun plan => hq (false :: plan)⟩

theorem wp_mono {F : C → σ → Prop} {Q Q' : Except ε α → σ → Prop}
    (hQ : ∀ r s, Q r s → Q' r s) : ∀ {p : Prog C Resp E ε α} {s : σ}, wp h F Q p s → wp h F Q' p s
  | .ret _, _, hq => hQ _ _ hq
  | .fail _, _, hq => hQ _ _ hq
  | .call _ _, _, hq => ⟨fun hf => wp_mono hQ (hq.1 hf), wp_mono hQ hq.2⟩

@[simp] theorem wp_ret {F : C → σ → Prop} {Q : Except ε α → σ → Prop} {a : α} {s : σ} :
    wp h F Q (ret a : Prog C Resp E ε α) s ↔ Q (.ok a) s := Iff.rfl

@[simp] theorem wp_fail {F : C → σ → Prop} {Q : Except ε α → σ → Prop} {e : ε} {s : σ} :
    wp h F Q (fail e : Prog C Resp E ε α) s ↔ Q (.error e) s := Iff.rfl

/-- What is left to prove of `p >>= f` once `p` has ended. -/
def andThen (h : Handler C Resp E σ) (F : C → σ → Prop) (Q : Except ε β → σ → Prop)
    (f : α → Prog C Resp E ε β) : Except ε α → σ → Prop
  | .ok a, s => wp h F Q (f a) s
  | .error e, s => Q (.error e) s

@[simp] theorem andThen_ok {F : C → σ → Prop} {Q : Except ε β → σ → Prop}
    {f : α → Prog C Resp E ε β} {a : α} {s : σ} :
    andThen h F Q f (.ok a) s ↔ wp h F Q (f a) s := Iff.rfl

@[simp] theorem andThen_error {F : C → σ → Prop} {Q : Except ε β → σ → Prop}
    {f : α → Prog C Resp E ε β} {e : ε} {s : σ} :
    andThen h F Q f (.error e) s ↔ Q (.error e) s := Iff.rfl

@[simp] theorem wp_bind {F : C → σ → Prop} {Q : Except ε β → σ → Prop}
    {f : α → Prog C Resp E ε β} : ∀ {p : Prog C Resp E ε α} {s : σ},
      wp h F Q (p >>= f) s ↔ wp h F (andThen h F Q f) p s
  | .ret _, _ => Iff.rfl
  | .fail _, _ => Iff.rfl
  | .call c k, s => by
    rw [call_bind]
    exact and_congr (imp_congr_right fun _ => wp_bind) wp_bind

/-- One call: it may fail from outside, or answer. -/
theorem wp_perform {F : C → σ → Prop} {c : C} {Q : Except ε (Resp c) → σ → Prop} {conv : E → ε}
    {s : σ} :
    wp h F Q (perform conv c : Prog C Resp E ε (Resp c)) s ↔
      (F c s → Q (.error (conv (h.fault c))) s) ∧
        Q ((h.exec c s).1.mapError conv) (h.exec c s).2 := by
  unfold perform
  simp only [wp]
  cases (h.exec c s).1 <;> rfl

/-- A call that answers `a`, and what goes on from there. -/
theorem wp_perform_bind {F : C → σ → Prop} {Q : Except ε α → σ → Prop} {c : C} {conv : E → ε}
    {k : Resp c → Prog C Resp E ε α} {s s' : σ} {a : Resp c} (hx : h.exec c s = (.ok a, s')) :
    wp h F Q (perform conv c >>= k) s ↔
      (F c s → Q (.error (conv (h.fault c))) s) ∧ wp h F Q (k a) s' := by
  rw [wp_bind, wp_perform, hx]
  exact Iff.rfl

/-- A call that is refused ends the program. -/
theorem wp_perform_bind_error {F : C → σ → Prop} {Q : Except ε α → σ → Prop} {c : C}
    {conv : E → ε} {k : Resp c → Prog C Resp E ε α} {s s' : σ} {e : E}
    (hx : h.exec c s = (.error e, s')) :
    wp h F Q (perform conv c >>= k) s ↔
      (F c s → Q (.error (conv (h.fault c))) s) ∧ Q (.error (conv e)) s' := by
  rw [wp_bind, wp_perform, hx]
  exact Iff.rfl

/-- A call that answers `a` at the end of a program. -/
theorem wp_perform_ok {F : C → σ → Prop} {c : C} {Q : Except ε (Resp c) → σ → Prop} {conv : E → ε}
    {s s' : σ} {a : Resp c} (hx : h.exec c s = (.ok a, s')) :
    wp h F Q (perform conv c : Prog C Resp E ε (Resp c)) s ↔
      (F c s → Q (.error (conv (h.fault c))) s) ∧ Q (.ok a) s' := by
  rw [wp_perform, hx]
  exact Iff.rfl

theorem wp_perform_error {F : C → σ → Prop} {c : C} {Q : Except ε (Resp c) → σ → Prop}
    {conv : E → ε} {s s' : σ} {e : E} (hx : h.exec c s = (.error e, s')) :
    wp h F Q (perform conv c : Prog C Resp E ε (Resp c)) s ↔
      (F c s → Q (.error (conv (h.fault c))) s) ∧ Q (.error (conv e)) s' := by
  rw [wp_perform, hx]
  exact Iff.rfl

@[simp] theorem wp_ite {F : C → σ → Prop} {Q : Except ε α → σ → Prop} {c : Prop} [Decidable c]
    {p q : Prog C Resp E ε α} {s : σ} :
    wp h F Q (if c then p else q) s ↔ if c then wp h F Q p s else wp h F Q q s := by
  split_ifs <;> rfl

@[simp] theorem wp_liftExcept {F : C → σ → Prop} {Q : Except ε α → σ → Prop} {r : Except ε α}
    {s : σ} : wp h F Q (liftExcept r : Prog C Resp E ε α) s ↔ Q r s := by
  cases r <;> rfl

/-! ### What a success means -/

/-- Whichever of its calls fail, if the program succeeds then `F` holds of what
it returns and leaves. -/
def Ensures (h : Handler C Resp E σ) (F : α → σ → Prop) (p : Prog C Resp E ε α) (s : σ) : Prop :=
  wp h (fun _ _ => True) (fun r s' => ∀ a, r = .ok a → F a s') p s

section Ensures

variable {F : α → σ → Prop} {s s' : σ}

theorem ensures_iff {p : Prog C Resp E ε α} : Ensures h F p s ↔
    ∀ plan a, (run h p plan s).1 = .ok a → F a (run h p plan s).2 := wp_anyFault

@[simp] theorem ensures_ret {a : α} : Ensures h F (ret a : Prog C Resp E ε α) s ↔ F a s := by
  constructor
  · exact fun hF => hF a rfl
  · intro hF _ heq
    cases heq
    exact hF

@[simp] theorem ensures_fail {e : ε} : Ensures h F (fail e : Prog C Resp E ε α) s :=
  nofun

theorem ensures_bind {f : α → Prog C Resp E ε β} {F : β → σ → Prop} :
    ∀ {p : Prog C Resp E ε α} {s : σ},
      Ensures h F (p >>= f) s ↔ Ensures h (fun a s' => Ensures h F (f a) s') p s
  | .ret _, _ => (ensures_ret (F := fun a s' => Ensures h F (f a) s')).symm
  | .fail _, _ => ⟨fun _ => ensures_fail, fun _ => ensures_fail⟩
  | .call _ _, _ => and_congr (imp_congr_right fun _ => ensures_bind) ensures_bind

theorem ensures_perform_ok {c : C} {conv : E → ε} {F : Resp c → σ → Prop} {a : Resp c}
    (hx : h.exec c s = (.ok a, s')) :
    Ensures h F (perform conv c : Prog C Resp E ε (Resp c)) s ↔ F a s' := by
  unfold Ensures
  rw [wp_perform_ok hx]
  constructor
  · exact fun hF => hF.2 a rfl
  · intro hF
    refine ⟨fun _ => nofun, fun _ heq => ?_⟩
    cases heq
    exact hF

theorem ensures_perform_error {c : C} {conv : E → ε} {F : Resp c → σ → Prop} {e : E}
    (hx : h.exec c s = (.error e, s')) :
    Ensures h F (perform conv c : Prog C Resp E ε (Resp c)) s := by
  unfold Ensures
  rw [wp_perform_error hx]
  exact ⟨fun _ => nofun, nofun⟩

theorem ensures_liftExcept {r : Except ε α} :
    Ensures h F (liftExcept r : Prog C Resp E ε α) s ↔ ∀ a, r = .ok a → F a s := by
  cases r with
  | error e => exact ⟨fun _ => nofun, fun _ => ensures_fail⟩
  | ok a =>
    refine ensures_ret.trans ⟨fun hF _ heq => ?_, fun hF => hF a rfl⟩
    cases heq
    exact hF

end Ensures

/-! ### One failing call -/

/-- The plan that fails the call number `k`, counted from 0, and no other. -/
def failAt (k : ℕ) : List Bool := List.replicate k false ++ [true]

/-- The call number `k` of the failure-free run, with the state it meets. -/
def callAt (h : Handler C Resp E σ) : Prog C Resp E ε α → ℕ → σ → Option (C × σ)
  | .ret _, _, _ => none
  | .fail _, _, _ => none
  | .call c _, 0, s => some (c, s)
  | .call c k, n + 1, s => callAt h (k (h.exec c s).1) n (h.exec c s).2

/-- The program stops at the first call that fails. -/
def Strict : Prog C Resp E ε α → Prop
  | .ret _ => True
  | .fail _ => True
  | .call _ k => (∀ e, ∃ e', k (.error e) = .fail e') ∧ ∀ a, Strict (k (.ok a))

theorem strict_perform (conv : E → ε) (c : C) :
    Strict (perform conv c : Prog C Resp E ε (Resp c)) :=
  ⟨fun e => ⟨conv e, rfl⟩, fun _ => trivial⟩

theorem strict_liftExcept (r : Except ε α) : Strict (liftExcept r : Prog C Resp E ε α) := by
  cases r <;> trivial

theorem strict_bind {f : α → Prog C Resp E ε β} (hf : ∀ a, Strict (f a)) :
    ∀ {p : Prog C Resp E ε α}, Strict p → Strict (p >>= f)
  | .ret a, _ => hf a
  | .fail _, _ => trivial
  | .call c k, hp => by
    refine ⟨fun e => ?_, fun a => strict_bind hf (hp.2 a)⟩
    obtain ⟨e', he⟩ := hp.1 e
    exact ⟨e', congrArg (fun q => q.bind f) he⟩

/-- The plan fails just the one call. -/
theorem allowed_failAt {c : C} {t : σ} : ∀ {p : Prog C Resp E ε α} {n : ℕ} {s : σ},
    callAt h p n s = some (c, t) → Allowed h (fun c' t' => c' = c ∧ t' = t) p (failAt n) s
  | .call c' k, 0, s, hc => by
    obtain ⟨rfl, rfl⟩ := Prod.mk.inj (Option.some.inj hc)
    exact ⟨⟨rfl, rfl⟩, allowed_nil _ _ _⟩
  | .call c' k, n + 1, s, hc => allowed_failAt (n := n) hc

/-- A strict program ends with an error where its call fails. -/
theorem run_failAt {c : C} {t : σ} : ∀ {p : Prog C Resp E ε α} {n : ℕ} {s : σ},
    Strict p → callAt h p n s = some (c, t) → ∃ e, run h p (failAt n) s = (.error e, t)
  | .call c' k, 0, s, hp, hc => by
    obtain ⟨rfl, rfl⟩ := Prod.mk.inj (Option.some.inj hc)
    obtain ⟨e, he⟩ := hp.1 (h.fault c')
    refine ⟨e, ?_⟩
    show run h (k (.error (h.fault c'))) [] s = _
    rw [he]
    rfl
  | .call c' k, n + 1, s, hp, hc => by
    have hc : callAt h (k (h.exec c' s).1) n (h.exec c' s).2 = some (c, t) := hc
    show ∃ e, run h (k (h.exec c' s).1) (failAt n) (h.exec c' s).2 = _
    cases hr : (h.exec c' s).1 with
    | ok a =>
      rw [hr] at hc
      exact run_failAt (hp.2 a) hc
    | error e =>
      obtain ⟨e', he⟩ := hp.1 e
      rw [hr, he] at hc
      cases hc

end Run

/-! ### Protocols -/

/-- A call with what it was answered. -/
abbrev Event (C : Type) (Resp : C → Type) (E : Type) : Type := (c : C) × Except E (Resp c)

/-- Having seen the events `seen`, the latest first, the program makes only
calls that `Q` allows and ends only with results that `R` allows. -/
def Obeys (Q : List (Event C Resp E) → C → Prop) (R : List (Event C Resp E) → Except ε α → Prop)
    (seen : List (Event C Resp E)) : Prog C Resp E ε α → Prop
  | .ret a => R seen (.ok a)
  | .fail e => R seen (.error e)
  | .call c k => Q seen c ∧ ∀ r, Obeys Q R (⟨c, r⟩ :: seen) (k r)

section Obeys

variable {Q : List (Event C Resp E) → C → Prop}
  {R : List (Event C Resp E) → Except ε α → Prop} {seen : List (Event C Resp E)}

/-- A call under `?` and what goes on with its answer. -/
theorem obeys_perform_bind {conv : E → ε} {c : C} {f : Resp c → Prog C Resp E ε α}
    (hc : Q seen c) (herr : ∀ e, R (⟨c, .error e⟩ :: seen) (.error (conv e)))
    (hf : ∀ a, Obeys Q R (⟨c, .ok a⟩ :: seen) (f a)) :
    Obeys Q R seen (perform conv c >>= f) := by
  refine ⟨hc, fun r => ?_⟩
  cases r with
  | ok a => exact hf a
  | error e => exact herr e

theorem obeys_liftExcept_bind {r : Except ε β} {f : β → Prog C Resp E ε α}
    (herr : ∀ e, R seen (.error e)) (hf : ∀ b, r = .ok b → Obeys Q R seen (f b)) :
    Obeys Q R seen (liftExcept r >>= f) := by
  cases r with
  | ok b => exact hf b rfl
  | error e => exact herr e

theorem obeys_pure {a : α} (ha : R seen (.ok a)) :
    Obeys Q R seen (pure a : Prog C Resp E ε α) := ha

theorem obeys_ite {p : Prop} [Decidable p] {f g : Prog C Resp E ε α}
    (hf : p → Obeys Q R seen f) (hg : ¬ p → Obeys Q R seen g) :
    Obeys Q R seen (if p then f else g) := by
  split_ifs with h
  · exact hf h
  · exact hg h

/-- What a first part ends with, the second goes on from. -/
theorem obeys_bind {f : α → Prog C Resp E ε β} {R' : List (Event C Resp E) → Except ε β → Prop}
    (hf : ∀ seen a, R seen (.ok a) → Obeys Q R' seen (f a))
    (herr : ∀ seen e, R seen (.error e) → R' seen (.error e)) :
    ∀ {p : Prog C Resp E ε α} {seen : List (Event C Resp E)}, Obeys Q R seen p →
      Obeys Q R' seen (p >>= f)
  | .ret a, seen, h => hf seen a h
  | .fail e, seen, h => herr seen e h
  | .call _ _, _, h => ⟨h.1, fun r => obeys_bind hf herr (h.2 r)⟩

theorem Obeys.mono {Q' : List (Event C Resp E) → C → Prop}
    {R' : List (Event C Resp E) → Except ε α → Prop}
    (hQ : ∀ seen c, Q seen c → Q' seen c) (hR : ∀ seen r, R seen r → R' seen r) :
    ∀ {p : Prog C Resp E ε α} {seen : List (Event C Resp E)}, Obeys Q R seen p → Obeys Q' R' seen p
  | .ret _, _, h => hR _ _ h
  | .fail _, _, h => hR _ _ h
  | .call _ _, _, h => ⟨hQ _ _ h.1, fun r => (h.2 r).mono hQ hR⟩

end Obeys

/-! ### Which calls are made -/

section Calls

/-- Every call of the program meets `φ`. -/
def Calls (φ : C → Prop) : Prog C Resp E ε α → Prop
  | .ret _ => True
  | .fail _ => True
  | .call c k => φ c ∧ ∀ r, Calls φ (k r)

variable {φ : C → Prop}

theorem calls_bind {f : α → Prog C Resp E ε β} (hf : ∀ a, Calls φ (f a)) :
    ∀ {p : Prog C Resp E ε α}, Calls φ p → Calls φ (p >>= f)
  | .ret a, _ => hf a
  | .fail _, _ => trivial
  | .call _ _, h => ⟨h.1, fun r => calls_bind hf (h.2 r)⟩

theorem calls_pure {a : α} : Calls φ (pure a : Prog C Resp E ε α) := trivial

theorem calls_perform {conv : E → ε} {c : C} (hc : φ c) :
    Calls φ (perform conv c : Prog C Resp E ε (Resp c)) := by
  refine ⟨hc, fun r => ?_⟩
  cases r <;> trivial

theorem calls_liftExcept {r : Except ε α} : Calls φ (liftExcept r : Prog C Resp E ε α) := by
  cases r <;> trivial

theorem calls_ite {c : Prop} [Decidable c] {p q : Prog C Resp E ε α} (hp : Calls φ p)
    (hq : Calls φ q) : Calls φ (if c then p else q) := by
  split_ifs
  · exact hp
  · exact hq

/-- A protocol that allows such calls at any time. -/
theorem Calls.obeys {Q : List (Event C Resp E) → C → Prop}
    {R : List (Event C Resp E) → Except ε α → Prop} (hQ : ∀ seen c, φ c → Q seen c)
    (hR : ∀ seen r, R seen r) :
    ∀ {p : Prog C Resp E ε α} {seen : List (Event C Resp E)}, Calls φ p → Obeys Q R seen p
  | .ret _, _, _ => hR _ _
  | .fail _, _, _ => hR _ _
  | .call _ _, _, h => ⟨hQ _ _ h.1, fun r => (h.2 r).obeys hQ hR⟩

/-- What it sees are its own calls, on top of what it had seen. -/
theorem Calls.obeys_newer : ∀ {p : Prog C Resp E ε α} {seen : List (Event C Resp E)}, Calls φ p →
    Obeys (fun _ _ => True) (fun seen' _ => ∃ newer, seen' = newer ++ seen ∧ ∀ e ∈ newer, φ e.1)
      seen p
  | .ret _, _, _ => ⟨[], rfl, fun _ he => absurd he List.not_mem_nil⟩
  | .fail _, _, _ => ⟨[], rfl, fun _ he => absurd he List.not_mem_nil⟩
  | .call c k, seen, h => by
    refine ⟨trivial, fun r => ((h.2 r).obeys_newer).mono (fun _ _ h => h) ?_⟩
    rintro seen' _ ⟨newer, rfl, hnewer⟩
    refine ⟨newer ++ [⟨c, r⟩], by simp, fun e he => ?_⟩
    rcases List.mem_append.mp he with he | he
    · exact hnewer e he
    · rw [List.mem_singleton.mp he]
      exact h.1

end Calls

/-! ### Calls of another kind -/

section MapCalls

variable {C' : Type} {Resp' : C' → Type}

/-- The program with its calls made as calls of another kind. -/
def mapCalls (f : C → C') : Prog C (fun c => Resp' (f c)) E ε α → Prog C' Resp' E ε α
  | .ret a => .ret a
  | .fail e => .fail e
  | .call c k => .call (f c) fun r => (k r).mapCalls f

/-- What it has seen, as calls of the other kind. -/
def mapEvent (f : C → C') (e : Event C (fun c => Resp' (f c)) E) : Event C' Resp' E := ⟨f e.1, e.2⟩

variable {f : C → C'} {Q : List (Event C' Resp' E) → C' → Prop}
  {R : List (Event C' Resp' E) → Except ε α → Prop}

/-- The protocols of the other kind are protocols of the program. -/
theorem obeys_mapCalls : ∀ {p : Prog C (fun c => Resp' (f c)) E ε α}
    {seen : List (Event C (fun c => Resp' (f c)) E)},
    Obeys (fun seen c => Q (seen.map (mapEvent f)) (f c)) (fun seen r => R (seen.map (mapEvent f)) r)
      seen p → Obeys Q R (seen.map (mapEvent f)) (p.mapCalls f)
  | .ret _, _, h => h
  | .fail _, _, h => h
  | .call _ _, _, h => ⟨h.1, fun r => obeys_mapCalls (h.2 r)⟩

theorem obeys_mapCalls_nil {p : Prog C (fun c => Resp' (f c)) E ε α}
    (h : Obeys (fun seen c => Q (seen.map (mapEvent f)) (f c))
      (fun seen r => R (seen.map (mapEvent f)) r) [] p) : Obeys Q R [] (p.mapCalls f) :=
  obeys_mapCalls h

section Part

variable {σ' ε' γ : Type}

/-- One handler answers the calls of another, made as calls of its own, as the
other does on a part of its state. -/
structure AnswersOn (h' : Handler C' Resp' E σ') (h : Handler C (fun c => Resp' (f c)) E σ)
    (part : σ' → σ) : Prop where
  answer : ∀ c s, (h'.exec (f c) s).1 = (h.exec c (part s)).1
  state : ∀ c s, part (h'.exec (f c) s).2 = (h.exec c (part s)).2
  fault : ∀ c, h'.fault (f c) = h.fault c

/-- Two programs that begin with the same calls, the one with calls of another
kind, are related if what goes on from there is, whichever calls fail. -/
theorem run_mapCalls_bind {h' : Handler C' Resp' E σ'} {h : Handler C (fun c => Resp' (f c)) E σ}
    {part : σ' → σ} (hh : AnswersOn h' h part) {conv : ε → ε'} {k' : α → Prog C' Resp' E ε' γ}
    {k : α → Prog C (fun c => Resp' (f c)) E ε β} {R : Except ε' γ × σ' → Except ε β × σ → Prop}
    (herr : ∀ e s, R (.error (conv e), s) (.error e, part s))
    (hk : ∀ a plan s, R (run h' (k' a) plan s) (run h (k a) plan (part s))) :
    ∀ {p : Prog C (fun c => Resp' (f c)) E ε α} {plan : List Bool} {s : σ'},
      R (run h' ((p.mapCalls f).mapResult (Except.mapError conv) >>= k') plan s)
        (run h (p >>= k) plan (part s))
  | .ret a, plan, s => hk a plan s
  | .fail e, _, s => herr e s
  | .call c g, plan, s => by
    simp only [mapCalls, mapResult, call_bind, run]
    split_ifs
    · rw [hh.fault]
      exact run_mapCalls_bind hh herr hk
    · rw [hh.answer, ← hh.state]
      exact run_mapCalls_bind hh herr hk

end Part

end MapCalls

/-! ### Runs repeated -/

/-- The program succeeds, and succeeds again from the state that it leaves,
which it does not change then. -/
def Repeats (h : Handler C Resp E σ) (p : Prog C Resp E ε α) (s : σ) : Prop :=
  ∃ a b s', run h p [] s = (.ok a, s') ∧ run h p [] s' = (.ok b, s')

end Prog
end Lib
