/-
# Programs run alone

A program played from a state by a list of fates: each of its calls is answered,
is refused before it has an effect, or has its answer lost after it. Past the end
of the list every call is answered.

Key definitions: `Prog.Handler.meet`, `Prog.play`, `AllAnswered`.
Key theorems: `Prog.play_perform_bind_ok`, `Prog.play_perform_bind_error`,
`Prog.play_perform_bind_of_answered`, `allAnswered_succ`.
-/
import Gitdot.Lib.Pool

namespace Lib

/-- The first `n` calls are answered. -/
def AllAnswered (n : ℕ) (fates : List Fate) : Prop := ∀ i < n, fates.getD i .answered = .answered

instance (n : ℕ) (fates : List Fate) : Decidable (AllAnswered n fates) :=
  inferInstanceAs (Decidable (∀ i < n, fates.getD i .answered = .answered))

theorem allAnswered_zero (fates : List Fate) : AllAnswered 0 fates := fun _ hi => absurd hi (by omega)

theorem allAnswered_succ {n : ℕ} {fates : List Fate} :
    AllAnswered (n + 1) fates ↔ fates.headD .answered = .answered ∧ AllAnswered n fates.tail := by
  constructor
  · intro h
    refine ⟨?_, fun i hi => ?_⟩
    · have h0 := h 0 (by omega)
      cases fates <;> exact h0
    · have hs := h (i + 1) (by omega)
      cases fates with
      | nil => rfl
      | cons fate fates => exact hs
  · rintro ⟨h0, hs⟩ i hi
    cases fates with
    | nil => rfl
    | cons fate fates =>
      cases i with
      | zero => exact h0
      | succ i => exact hs i (by omega)

namespace Prog

variable {C : Type} {Resp : C → Type} {E ε α σ : Type}

/-- What becomes of one call. -/
def Handler.meet (h : Handler C Resp E σ) (c : C) (fate : Fate) (s : σ) : Except E (Resp c) × σ :=
  match fate with
  | .answered => h.exec c s
  | .refused => (.error (h.fault c), s)
  | .lost => (.error (h.fault c), (h.exec c s).2)

/-- Plays a program from a state, each call by its fate. -/
def play (h : Handler C Resp E σ) : Prog C Resp E ε α → List Fate → σ → Except ε α × σ
  | .ret a, _, s => (.ok a, s)
  | .fail e, _, s => (.error e, s)
  | .call c k, fates, s =>
    play h (k (h.meet c (fates.headD .answered) s).1) fates.tail
      (h.meet c (fates.headD .answered) s).2

variable {h : Handler C Resp E σ} {c : C} {conv : E → ε} {k : Resp c → Prog C Resp E ε α}
  {fates : List Fate} {s s' : σ}

@[simp] theorem play_ret (a : α) (fates : List Fate) (s : σ) :
    play h (ret a : Prog C Resp E ε α) fates s = (.ok a, s) := rfl

@[simp] theorem play_fail (e : ε) (fates : List Fate) (s : σ) :
    play h (fail e : Prog C Resp E ε α) fates s = (.error e, s) := rfl

/-- A call that answers, and what goes on from there. -/
theorem play_perform_bind_ok {a : Resp c} (hx : h.meet c (fates.headD .answered) s = (.ok a, s')) :
    play h (perform conv c >>= k) fates s = play h (k a) fates.tail s' := by
  unfold perform
  rw [call_bind, play, hx]
  rfl

/-- A call that fails ends the program. -/
theorem play_perform_bind_error {e : E}
    (hx : h.meet c (fates.headD .answered) s = (.error e, s')) :
    play h (perform conv c >>= k) fates s = (.error (conv e), s') := by
  unfold perform
  rw [call_bind, play, hx]
  rfl

/-- What an answered call answers. -/
theorem play_perform_bind_of_answered {a : Resp c} (hf : fates.headD .answered = .answered)
    (hx : h.exec c s = (.ok a, s')) :
    play h (perform conv c >>= k) fates s = play h (k a) fates.tail s' := by
  refine play_perform_bind_ok ?_
  rw [hf]
  exact hx

/-- A call that is not answered ends the program. -/
theorem play_perform_bind_of_unanswered (h : Handler C Resp E σ) (c : C) (conv : E → ε)
    (k : Resp c → Prog C Resp E ε α) (s : σ) (hf : fates.headD .answered ≠ .answered) :
    ∃ e, play h (perform conv c >>= k) fates s =
      (.error e, (h.meet c (fates.headD .answered) s).2) := by
  cases hfate : fates.headD .answered with
  | answered => exact absurd hfate hf
  | refused =>
    refine ⟨conv (h.fault c), play_perform_bind_error ?_⟩
    rw [hfate]
    rfl
  | lost =>
    refine ⟨conv (h.fault c), play_perform_bind_error ?_⟩
    rw [hfate]
    rfl

/-- A call that does not write leaves the state as it is, whatever becomes of it. -/
theorem Handler.meet_store {fate : Fate} (hx : (h.exec c s).2 = s) : (h.meet c fate s).2 = s := by
  cases fate with
  | answered => exact hx
  | refused => rfl
  | lost => exact hx

end Prog
end Lib
