/-
# What was checked before

A program that checks something in one call and relies on it in a later one
relies on what may no longer be so. `since` are the calls made after the last
time a request's check has passed: if none of them breaks what the check
established, it still holds (`holds_of_not_broken`). What has to be shown of
the calls is only which of them break it, as one step (`Check`).

Key definitions: `since`, `Check`, `Checked`.
Key theorems: `checked_next`, `checked_run`, `Checked.holds_of_not_broken`.
-/
import Gitdot.Lib.Pool

namespace Lib

open Prog

variable {ι C : Type} {Resp : C → Type} {E ε α σ τ : Type}

/-- The records newer than the last one in which the request's check passed. -/
def since (number : ℕ) (passed : Event C Resp E → Bool) (log : List (Made ι C Resp E σ)) :
    List (Made ι C Resp E σ) :=
  log.takeWhile fun m => !(decide (m.caller.number = number) && passed m.event)

/-- A check: what an answer to it says of the store, and the calls that make
that false. -/
structure Check (h : Handler C Resp E σ) (env : τ → σ → σ) where
  passed : Event C Resp E → Bool
  holds : σ → Prop
  breaks : C → σ → Prop
  not_passed : ∀ c e, passed ⟨c, .error e⟩ = false
  of_passed : ∀ c s a, passed ⟨c, .ok a⟩ = true → (h.exec c s).1 = .ok a → holds (h.exec c s).2
  of_breaks : ∀ c s, holds s → holds (h.exec c s).2 ∨ breaks c s
  of_env : ∀ e s, holds s → holds (env e s)

variable {h : Handler C Resp E σ} {program : ι → Prog C Resp E ε α} {env : τ → σ → σ}
  {P : Pool ι C Resp E ε α σ} {k : Check h env}

/-- What a check that has passed established holds, or one of the calls since
has broken it. -/
def Checked (k : Check h env) (P : Pool ι C Resp E ε α σ) : Prop :=
  ∀ number, (∃ e ∈ seen number P.sys.log, k.passed e = true) →
    k.holds P.sys.store ∨ ∃ m ∈ since number k.passed P.sys.log, k.breaks m.call m.before

/-- A call at which the request's check does not pass is one of those since. -/
theorem since_cons {number : ℕ} {passed : Event C Resp E → Bool} {m : Made ι C Resp E σ}
    {log : List (Made ι C Resp E σ)}
    (hm : ¬ (m.caller.number = number ∧ passed m.event = true)) :
    since number passed (m :: log) = m :: since number passed log := by
  unfold since
  rw [List.takeWhile_cons_of_pos]
  simpa [imp_iff_not_or] using hm

/-- One call. -/
theorem checked_perform {n : ℕ} {op : ι} {c : C} {fate : Fate} {threads : List (Thread ι C Resp E ε α)}
    (hP : Checked k P) : Checked k ⟨(P.sys.perform h ⟨n, op⟩ c fate).2, threads⟩ := by
  rintro number ⟨e, he, hpassed⟩
  show k.holds (P.sys.perform h ⟨n, op⟩ c fate).2.store ∨
    ∃ m ∈ since number k.passed (P.sys.perform h ⟨n, op⟩ c fate).2.log, k.breaks m.call m.before
  rw [perform_log] at he ⊢
  by_cases hnow : n = number ∧ k.passed ⟨c, (P.sys.perform h ⟨n, op⟩ c fate).1⟩ = true
  · -- the check passes now
    obtain ⟨-, hnow⟩ := hnow
    left
    cases hanswer : (P.sys.perform h ⟨n, op⟩ c fate).1 with
    | error x =>
      rw [hanswer, k.not_passed] at hnow
      cases hnow
    | ok a =>
      rw [hanswer] at hnow
      obtain ⟨rfl, hexec⟩ := perform_ok hanswer
      exact k.of_passed c _ a hnow hexec
  · rw [since_cons hnow]
    have hold : k.holds P.sys.store ∨
        ∃ m ∈ since number k.passed P.sys.log, k.breaks m.call m.before := by
      refine hP number ⟨e, ?_, hpassed⟩
      rcases mem_seen_cons.mp he with ⟨hn, rfl⟩ | he
      · exact absurd ⟨hn, hpassed⟩ hnow
      · exact he
    rcases hold with hholds | ⟨m, hm, hbreaks⟩
    · rcases k.of_breaks c P.sys.store hholds with hkept | hbreaks
      · exact .inl (perform_keeps hholds hkept)
      · exact .inr ⟨_, List.mem_cons_self, hbreaks⟩
    · exact .inr ⟨m, List.mem_cons_of_mem _ hm, hbreaks⟩

/-- One move. -/
theorem checked_next (m : Move ι τ) (hP : Checked k P) : Checked k (Pool.next h program env m P) := by
  cases m with
  | start op => exact hP
  | step n fate =>
    rcases atCall_or_done P n with ⟨op, c, f, hn⟩ | hdone
    · rw [next_step hn]
      exact checked_perform hP
    · rw [hdone]
      exact hP
  | env e => exact fun number hseen => (hP number hseen).imp_left (k.of_env e _)

/-- **Checks.** In a run, what a check has established holds until a call breaks
it. -/
theorem checked_run {init : Pool ι C Resp E ε α σ → Prop}
    {guard : Pool ι C Resp E ε α σ → Move ι τ → Prop} (hinit : ∀ P, init P → P.sys.log = [])
    (hrun : Reach init (Pool.next h program env) guard P) : Checked k P := by
  refine hrun.invariant (I := Checked k) (fun P hP => ?_) fun P m hP _ => checked_next m hP
  rintro number ⟨e, he, -⟩
  rw [hinit P hP] at he
  cases he

theorem Checked.holds_of_not_broken (hP : Checked k P) {number : ℕ}
    {e : Event C Resp E} (he : e ∈ seen number P.sys.log) (hpassed : k.passed e = true)
    (hnot : ∀ m ∈ since number k.passed P.sys.log, ¬ k.breaks m.call m.before) :
    k.holds P.sys.store := by
  refine (hP number ⟨e, he, hpassed⟩).resolve_right ?_
  rintro ⟨m, hm, hbreaks⟩
  exact hnot m hm hbreaks

end Lib
