/-
# Runs of a state machine whose steps meet a guard

A machine takes events, `step e s` being the state after the event `e` in
`s`. `Reach` holds of the states of the runs each of whose steps meets the
guard. What holds initially and is kept by every step that meets the guard
holds of them all (`Reach.invariant`).

Key definitions: `Reach`, `play`.
Key theorems: `Reach.invariant`, `Reach.mono`, `Reach.trans`, `reach_play`.
-/
import Mathlib.Logic.Basic

namespace Lib

variable {σ ε : Type}

/-- The states reached from an initial one by events that meet the guard. -/
inductive Reach (init : σ → Prop) (step : ε → σ → σ) (guard : σ → ε → Prop) : σ → Prop where
  | start {s : σ} : init s → Reach init step guard s
  | next {s : σ} (e : ε) : Reach init step guard s → guard s e → Reach init step guard (step e s)

variable {init : σ → Prop} {step : ε → σ → σ} {guard guard' : σ → ε → Prop}

/-- **Invariants.** What an initial state satisfies and a guarded step keeps,
every reached state satisfies. -/
theorem Reach.invariant {I : σ → Prop} (h0 : ∀ s, init s → I s)
    (hstep : ∀ s e, I s → guard s e → I (step e s)) {s : σ} (h : Reach init step guard s) : I s := by
  induction h with
  | start hs => exact h0 _ hs
  | next e _ hg ih => exact hstep _ e ih hg

theorem Reach.mono (hg : ∀ s e, guard s e → guard' s e) {s : σ} (h : Reach init step guard s) :
    Reach init step guard' s := by
  induction h with
  | start hs => exact .start hs
  | next e _ he ih => exact .next e ih (hg _ e he)

/-- A run goes on from where another has come to. -/
theorem Reach.trans {s t : σ} (h : Reach init step guard s)
    (h' : Reach (fun u => u = s) step guard t) : Reach init step guard t := by
  induction h' with
  | start heq => exact heq ▸ h
  | next e _ he ih => exact .next e ih he

/-- The state after a list of events. -/
def play (step : ε → σ → σ) : List ε → σ → σ
  | [], s => s
  | e :: es, s => play step es (step e s)

/-- Every event of the list meets the guard where it happens. -/
def Guarded (step : ε → σ → σ) (guard : σ → ε → Prop) : List ε → σ → Prop
  | [], _ => True
  | e :: es, s => guard s e ∧ Guarded step guard es (step e s)

instance decidableGuarded [∀ s e, Decidable (guard s e)] :
    (es : List ε) → (s : σ) → Decidable (Guarded step guard es s)
  | [], _ => .isTrue trivial
  | e :: es, s => @instDecidableAnd _ _ _ (decidableGuarded es (step e s))

/-- Any events may happen where nothing is asked of them. -/
theorem guarded_true : ∀ {l : List ε} {s : σ}, Guarded step (fun _ _ => True) l s
  | [], _ => trivial
  | _ :: _, _ => ⟨trivial, guarded_true⟩

theorem guarded_congr (hg : ∀ s e, guard s e ↔ guard' s e) : ∀ {l : List ε} {s : σ},
    Guarded step guard l s ↔ Guarded step guard' l s
  | [], _ => Iff.rfl
  | e :: _, s => and_congr (hg s e) (guarded_congr hg)

theorem reach_play {l : List ε} {s : σ} (h : Reach init step guard s)
    (hg : Guarded step guard l s) : Reach init step guard (play step l s) := by
  induction l generalizing s with
  | nil => exact h
  | cons e l ih => exact ih (.next e h hg.1) hg.2

end Lib
