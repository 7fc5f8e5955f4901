/-
# Programs that run concurrently

Requests are served by programs whose calls interleave on one store. A `Pool`
is the store, the log of the calls made so far, and for each request what is
left of its program. A `Move` starts a request, lets one of them make its
next call, or is a move of the environment. A call that is not `answered`
fails from outside: `refused` before it had any effect, or with its answer
`lost` after it.

What a request has `seen` is its part of the log. If every program obeys a
protocol on its own, then in every state of a run each record of the log is
allowed by what its request had seen before, and what is left of a program
obeys the protocol from there (`obeyed_run`). The state in which a call of the
log was made is itself reached, and the run goes on from it (`Reach.moment`),
so an invariant can be used at any record of the log and a relation that all
moves keep leads from there to the end (`Later.le_of_guard`).

Key definitions: `Pool`, `Pool.next`, `transitions`, `seen`, `Obeyed`, `Moment`,
`Later`.
Key theorems: `perform_of_exec`, `obeyed_run`, `Obeyed.once`, `Reach.moment`, `Reach.moment_allowed`,
`Later.le_of_guard`, `Later.log_suffix`, `Later.thread`, `threads_next`,
`store_next`.
-/
import Gitdot.Lib.Prog
import Gitdot.Lib.Reach

namespace Lib

open Prog

/-- Who makes a call: its request, and the number of the request in the order
of arrival. -/
structure Caller (ι : Type) where
  number : ℕ
  op : ι
  deriving DecidableEq

/-- What becomes of a call: it is answered, it fails before it has an effect,
or its answer is lost. -/
inductive Fate where
  | answered
  | refused
  | lost
  deriving DecidableEq

section Pool

variable {ι C : Type} {Resp : C → Type} {E ε α σ τ : Type}

/-- A call that was made: by whom, on which store, and what was answered. -/
structure Made (ι C : Type) (Resp : C → Type) (E σ : Type) where
  caller : Caller ι
  before : σ
  call : C
  answer : Except E (Resp call)

/-- The store, and the calls made on it, the latest first. -/
structure Sys (ι C : Type) (Resp : C → Type) (E σ : Type) where
  store : σ
  log : List (Made ι C Resp E σ)

/-- A request, and what is left of its program. -/
structure Thread (ι C : Type) (Resp : C → Type) (E ε α : Type) where
  op : ι
  rest : Prog C Resp E ε α

/-- A store with the requests it has received, in the order of arrival. -/
structure Pool (ι C : Type) (Resp : C → Type) (E ε α σ : Type) where
  sys : Sys ι C Resp E σ
  threads : List (Thread ι C Resp E ε α)

/-- A move: a request arrives, one makes its next call, or the environment
acts. -/
inductive Move (ι τ : Type) where
  | start (op : ι)
  | step (number : ℕ) (fate : Fate)
  | env (e : τ)

/-- A call performed, with the entry it leaves in the log. -/
def Sys.perform (h : Handler C Resp E σ) (S : Sys ι C Resp E σ) (caller : Caller ι) (c : C)
    (fate : Fate) : Except E (Resp c) × Sys ι C Resp E σ :=
  let out := match fate with
    | .answered => h.exec c S.store
    | .refused => (.error (h.fault c), S.store)
    | .lost => (.error (h.fault c), (h.exec c S.store).2)
  (out.1, ⟨out.2, ⟨caller, S.store, c, out.1⟩ :: S.log⟩)

/-- The pool after a move. -/
def Pool.next (h : Handler C Resp E σ) (program : ι → Prog C Resp E ε α) (env : τ → σ → σ) :
    Move ι τ → Pool ι C Resp E ε α σ → Pool ι C Resp E ε α σ
  | .start op, P => { P with threads := P.threads ++ [⟨op, program op⟩] }
  | .step n fate, P =>
    match P.threads[n]? with
    | some ⟨op, .call c k⟩ =>
      let out := P.sys.perform h ⟨n, op⟩ c fate
      ⟨out.2, P.threads.set n ⟨op, k out.1⟩⟩
    | _ => P
  | .env e, P => { P with sys := { P.sys with store := env e P.sys.store } }

/-- The request is under way. -/
def Thread.inFlight (t : Thread ι C Resp E ε α) : Bool :=
  match t.rest with
  | .call _ _ => true
  | _ => false

/-- What a request has ended with. -/
def Pool.result (P : Pool ι C Resp E ε α σ) (number : ℕ) : Option (ι × Except ε α) :=
  match P.threads[number]? with
  | some ⟨op, .ret a⟩ => some (op, .ok a)
  | some ⟨op, .fail e⟩ => some (op, .error e)
  | _ => none

/-- The call that a move makes. -/
def Pool.calling (P : Pool ι C Resp E ε α σ) : Move ι τ → Option (Caller ι × C)
  | .step n _ =>
    match P.threads[n]? with
    | some ⟨op, .call c _⟩ => some (⟨n, op⟩, c)
    | _ => none
  | _ => none

/-- A guard on the calls: `φ` of the state, the request and the call. -/
def OnCalls (φ : Pool ι C Resp E ε α σ → Caller ι → C → Prop) (P : Pool ι C Resp E ε α σ)
    (m : Move ι τ) : Prop :=
  ∀ x ∈ P.calling m, φ P x.1 x.2

instance {φ : Pool ι C Resp E ε α σ → Caller ι → C → Prop} [∀ P x c, Decidable (φ P x c)]
    (P : Pool ι C Resp E ε α σ) (m : Move ι τ) : Decidable (OnCalls φ P m) :=
  inferInstanceAs (Decidable (∀ x ∈ P.calling m, φ P x.1 x.2))

/-- The calls of a log, each with the store it has left, where nothing else changes
the store. -/
def transitions : σ → List (Made ι C Resp E σ) → List (Made ι C Resp E σ × σ)
  | _, [] => []
  | s, m :: log => (m, s) :: transitions m.before log

theorem mem_of_mem_transitions {x : Made ι C Resp E σ × σ} : ∀ {s : σ}
    {log : List (Made ι C Resp E σ)}, x ∈ transitions s log → x.1 ∈ log
  | _, m :: _, h => by
    rcases List.mem_cons.mp h with rfl | h
    · exact List.mem_cons_self
    · exact List.mem_cons_of_mem m (mem_of_mem_transitions h)

/-! ### Performing a call -/

section Perform

variable {h : Handler C Resp E σ} {S : Sys ι C Resp E σ} {caller : Caller ι} {c : C} {fate : Fate}

theorem perform_log : (S.perform h caller c fate).2.log =
    ⟨caller, S.store, c, (S.perform h caller c fate).1⟩ :: S.log := rfl

/-- A call leaves the store as it was or as the call makes it. -/
theorem perform_store (h : Handler C Resp E σ) (S : Sys ι C Resp E σ) (caller : Caller ι) (c : C)
    (fate : Fate) : (S.perform h caller c fate).2.store = S.store ∨
    (S.perform h caller c fate).2.store = (h.exec c S.store).2 := by
  cases fate with
  | answered => exact .inr rfl
  | refused => exact .inl rfl
  | lost => exact .inr rfl

/-- What the call keeps of a store, it keeps whatever becomes of it. -/
theorem perform_keeps {P : σ → Prop} (hs : P S.store) (hexec : P (h.exec c S.store).2) :
    P (S.perform h caller c fate).2.store := by
  rcases perform_store h S caller c fate with heq | heq
  · rw [heq]
    exact hs
  · rw [heq]
    exact hexec

/-- What there is to show of a call, by what becomes of it. -/
theorem perform_of_exec {Q : Except E (Resp c) → σ → Prop} {r : Except E (Resp c)} {s : σ}
    (hexec : h.exec c S.store = (r, s)) (hrefused : fate = .refused → Q (.error (h.fault c)) S.store)
    (hanswered : fate = .answered → Q r s) (hlost : fate = .lost → Q (.error (h.fault c)) s) :
    Q (S.perform h caller c fate).1 (S.perform h caller c fate).2.store := by
  cases fate with
  | refused => exact hrefused rfl
  | answered =>
    change Q (h.exec c S.store).1 (h.exec c S.store).2
    rw [hexec]
    exact hanswered rfl
  | lost =>
    change Q (.error (h.fault c)) (h.exec c S.store).2
    rw [hexec]
    exact hlost rfl

/-- A call that answers with a result has had its effect. -/
theorem perform_ok {a : Resp c} (hok : (S.perform h caller c fate).1 = .ok a) :
    fate = .answered ∧ (h.exec c S.store).1 = .ok a := by
  cases fate with
  | answered => exact ⟨rfl, hok⟩
  | refused => cases hok
  | lost => cases hok

end Perform

/-! ### Moves -/

variable {h : Handler C Resp E σ} {program : ι → Prog C Resp E ε α} {env : τ → σ → σ}
  {P P₀ : Pool ι C Resp E ε α σ}

/-- The threads after a start: the one that came, and the others. -/
theorem getElem?_start {u : Thread ι C Resp E ε α} {n : ℕ} {t : Thread ι C Resp E ε α} :
    (P.threads ++ [u])[n]? = some t ↔
      P.threads[n]? = some t ∨ n = P.threads.length ∧ t = u := by
  rcases Nat.lt_trichotomy n P.threads.length with hn | rfl | hn
  · rw [List.getElem?_append_left hn]
    constructor
    · exact Or.inl
    · rintro (h | ⟨rfl, -⟩)
      · exact h
      · exact absurd hn (Nat.lt_irrefl _)
  · simp [eq_comm]
  · rw [List.getElem?_eq_none (by simp; omega), List.getElem?_eq_none (by omega)]
    simp only [reduceCtorEq, false_or, false_iff, not_and]
    omega

/-- A step that happens: its thread was at a call. -/
theorem next_step {n : ℕ} {fate : Fate} {op : ι} {c : C} {k : Except E (Resp c) → Prog C Resp E ε α}
    (hn : P.threads[n]? = some ⟨op, .call c k⟩) :
    Pool.next h program env (.step n fate) P =
      ⟨(P.sys.perform h ⟨n, op⟩ c fate).2,
        P.threads.set n ⟨op, k (P.sys.perform h ⟨n, op⟩ c fate).1⟩⟩ := by
  simp only [Pool.next, hn]

/-- A step of a thread that is done, or of none, does nothing. -/
theorem next_step_of_done {n : ℕ} {fate : Fate}
    (hn : ∀ op c k, P.threads[n]? ≠ some ⟨op, .call c k⟩) :
    Pool.next h program env (.step n fate) P = P := by
  simp only [Pool.next]

/-- A thread is at a call, or a step of it does nothing. -/
theorem atCall_or_done (P : Pool ι C Resp E ε α σ) (n : ℕ) :
    (∃ op c k, P.threads[n]? = some ⟨op, .call c k⟩) ∨
      ∀ fate, Pool.next h program env (.step n fate) P = P := by
  by_cases hn : ∃ op c k, P.threads[n]? = some ⟨op, .call c k⟩
  · exact .inl hn
  · exact .inr fun fate => next_step_of_done fun op c k hc => hn ⟨op, c, k, hc⟩

/-- The threads after a step: the one that moved, and the others as they were. -/
theorem getElem?_step {n j : ℕ} {op : ι} {p q : Prog C Resp E ε α} {t : Thread ι C Resp E ε α}
    (hn : P.threads[n]? = some ⟨op, p⟩) :
    (P.threads.set n ⟨op, q⟩)[j]? = some t ↔
      j = n ∧ t = ⟨op, q⟩ ∨ j ≠ n ∧ P.threads[j]? = some t := by
  have hlt : n < P.threads.length := (List.getElem?_eq_some_iff.mp hn).1
  rcases eq_or_ne j n with rfl | hne
  · rw [List.getElem?_set_self hlt]
    simp [eq_comm]
  · rw [List.getElem?_set_ne hne.symm]
    simp [hne]

theorem result_ok {n : ℕ} {op : ι} {a : α} :
    P.result n = some (op, .ok a) ↔ P.threads[n]? = some ⟨op, .ret a⟩ := by
  unfold Pool.result
  constructor
  · intro h
    split at h
    · simp_all
    · simp_all
    · cases h
  · intro h
    rw [h]

theorem result_error {n : ℕ} {op : ι} {e : ε} :
    P.result n = some (op, .error e) ↔ P.threads[n]? = some ⟨op, .fail e⟩ := by
  unfold Pool.result
  constructor
  · intro h
    split at h
    · simp_all
    · simp_all
    · cases h
  · intro h
    rw [h]

theorem OnCalls.of_thread {φ : Pool ι C Resp E ε α σ → Caller ι → C → Prop} {n : ℕ} {fate : Fate}
    {op : ι} {c : C} {k : Except E (Resp c) → Prog C Resp E ε α}
    (hg : OnCalls φ P (.step n fate : Move ι τ)) (hn : P.threads[n]? = some ⟨op, .call c k⟩) :
    φ P ⟨n, op⟩ c :=
  hg (⟨n, op⟩, c) (by simp [Pool.calling, hn])

/-- What every program starts with and every answer keeps, a move keeps of all
requests. -/
theorem threads_next {S : ι → Prog C Resp E ε α → Prop} (hstart : ∀ op, S op (program op))
    (hstep : ∀ op c k a, S op (.call c k) → S op (k a))
    (hP : ∀ (n : ℕ) (t : Thread ι C Resp E ε α), P.threads[n]? = some t → S t.op t.rest)
    (m : Move ι τ) : ∀ (n : ℕ) (t : Thread ι C Resp E ε α),
      (Pool.next h program env m P).threads[n]? = some t → S t.op t.rest := by
  intro n t ht
  cases m with
  | start op =>
    rcases getElem?_start.mp ht with ht | ⟨-, rfl⟩
    · exact hP n t ht
    · exact hstart op
  | step j fate =>
    rcases atCall_or_done P j with ⟨op, c, k, hj⟩ | hdone
    · rw [next_step hj] at ht
      rcases (getElem?_step hj).mp ht with ⟨-, rfl⟩ | ⟨-, ht⟩
      · exact hstep op c k _ (hP j _ hj)
      · exact hP n t ht
    · rw [hdone] at ht
      exact hP n t ht
  | env e => exact hP n t ht

/-- A call that takes effect is what changes the store, if the environment does
not. -/
theorem store_next (m : Move ι τ) (hm : ∀ e, m ≠ .env e) :
    (Pool.next h program env m P).sys.store = P.sys.store ∨
      ∃ n fate op c k, m = .step n fate ∧ fate ≠ .refused ∧ P.threads[n]? = some ⟨op, .call c k⟩ ∧
        (Pool.next h program env m P).sys.store = (h.exec c P.sys.store).2 := by
  cases m with
  | start op => exact .inl rfl
  | step n fate =>
    rcases atCall_or_done P n with ⟨op, c, k, hn⟩ | hdone
    · rw [next_step hn]
      cases fate with
      | answered => exact .inr ⟨n, _, op, c, k, rfl, by simp, hn, rfl⟩
      | refused => exact .inl rfl
      | lost => exact .inr ⟨n, _, op, c, k, rfl, by simp, hn, rfl⟩
    · rw [hdone]
      exact .inl rfl
  | env e => exact absurd rfl (hm e)

/-! ### Later states -/

/-- `P` is reached from `P₀`. -/
abbrev Later (h : Handler C Resp E σ) (program : ι → Prog C Resp E ε α) (env : τ → σ → σ)
    (guard : Pool ι C Resp E ε α σ → Move ι τ → Prop) (P₀ : Pool ι C Resp E ε α σ) :
    Pool ι C Resp E ε α σ → Prop :=
  Reach (fun P => P = P₀) (Pool.next h program env) guard

section Later

variable {guard : Pool ι C Resp E ε α σ → Move ι τ → Prop} (hl : Later h program env guard P₀ P)
include hl

/-- What lasts under the calls and the events that meet the guard leads from a
state to every later one. -/
theorem Later.le_of_guard {Le : σ → σ → Prop} (hrefl : ∀ s, Le s s)
    (htrans : ∀ {s t u}, Le s t → Le t u → Le s u)
    (hexec : ∀ P n fate op c k, guard P (.step n fate) → P.threads[n]? = some ⟨op, .call c k⟩ →
      Le P.sys.store (h.exec c P.sys.store).2)
    (henv : ∀ P e, guard P (.env e) → Le P.sys.store (env e P.sys.store)) :
    Le P₀.sys.store P.sys.store := by
  refine hl.invariant (I := fun P => Le P₀.sys.store P.sys.store) ?_ ?_
  · rintro P rfl
    exact hrefl _
  · intro P m hP hg
    cases m with
    | start op => exact hP
    | step n fate =>
      rcases atCall_or_done P n with ⟨op, c, k, hn⟩ | hdone
      · rw [next_step hn]
        exact perform_keeps (P := Le P₀.sys.store) hP (htrans hP (hexec P n fate op c k hg hn))
      · rw [hdone]
        exact hP
    | env e => exact htrans hP (henv P e hg)

/-- What lasts under all calls and events. -/
theorem Later.le {Le : σ → σ → Prop} (hrefl : ∀ s, Le s s)
    (htrans : ∀ {s t u}, Le s t → Le t u → Le s u) (hexec : ∀ c s, Le s (h.exec c s).2)
    (henv : ∀ e s, Le s (env e s)) : Le P₀.sys.store P.sys.store :=
  hl.le_of_guard hrefl htrans (fun P _ _ _ c _ _ _ => hexec c P.sys.store)
    fun P e _ => henv e P.sys.store

theorem Later.log_suffix : P₀.sys.log <:+ P.sys.log := by
  refine hl.invariant (I := fun P => P₀.sys.log <:+ P.sys.log) ?_ ?_
  · rintro P rfl
    exact List.suffix_refl _
  · intro P m hP _
    cases m with
    | start op => exact hP
    | step n fate =>
      rcases atCall_or_done P n with ⟨op, c, k, hn⟩ | hdone
      · rw [next_step hn, perform_log]
        exact hP.trans (List.suffix_cons _ _)
      · rw [hdone]
        exact hP
    | env e => exact hP

/-- A request keeps its number, and what it has ended with. -/
theorem Later.thread {n : ℕ} {t : Thread ι C Resp E ε α} (hn : P₀.threads[n]? = some t) :
    ∃ t', P.threads[n]? = some t' ∧ t'.op = t.op ∧
      ((∀ c k, t.rest ≠ .call c k) → t'.rest = t.rest) := by
  refine hl.invariant (I := fun P => ∃ t', P.threads[n]? = some t' ∧ t'.op = t.op ∧
    ((∀ c k, t.rest ≠ .call c k) → t'.rest = t.rest)) ?_ ?_
  · rintro P rfl
    exact ⟨t, hn, rfl, fun _ => rfl⟩
  · rintro P m ⟨t', ht', hop, hdone'⟩ _
    cases m with
    | start op => exact ⟨t', getElem?_start.mpr (.inl ht'), hop, hdone'⟩
    | step j fate =>
      rcases atCall_or_done P j with ⟨op, c, k, hj⟩ | hdone
      · rw [next_step hj]
        rcases eq_or_ne n j with rfl | hne
        · obtain rfl := Option.some.inj (ht'.symm.trans hj)
          exact ⟨_, (getElem?_step hj).mpr (.inl ⟨rfl, rfl⟩), hop, fun hd =>
            absurd (hdone' hd).symm (hd c k)⟩
        · exact ⟨t', (getElem?_step hj).mpr (.inr ⟨hne, ht'⟩), hop, hdone'⟩
      · rw [hdone]
        exact ⟨t', ht', hop, hdone'⟩
    | env e => exact ⟨t', ht', hop, hdone'⟩

/-- What a request has ended with stays. -/
theorem Later.result {n : ℕ} {op : ι} {a : α} (hr : P₀.result n = some (op, .ok a)) :
    P.result n = some (op, .ok a) := by
  obtain ⟨⟨op', rest⟩, ht, hop, hrest⟩ := hl.thread (result_ok.mp hr)
  obtain rfl : op' = op := hop
  obtain rfl : rest = .ret a := hrest (fun _ _ => nofun)
  exact result_ok.mpr ht

end Later

/-! ### Protocols -/

/-- A record as the request sees it. -/
def Made.event (m : Made ι C Resp E σ) : Event C Resp E := ⟨m.call, m.answer⟩

/-- What the request of a number has seen. -/
def seen (number : ℕ) (log : List (Made ι C Resp E σ)) : List (Event C Resp E) :=
  (log.filter fun m => decide (m.caller.number = number)).map Made.event

@[simp] theorem seen_nil {n : ℕ} : seen n ([] : List (Made ι C Resp E σ)) = [] := rfl

theorem seen_cons_self {m : Made ι C Resp E σ} {log : List (Made ι C Resp E σ)} :
    seen m.caller.number (m :: log) = m.event :: seen m.caller.number log := by
  simp [seen]

theorem seen_cons_ne {m : Made ι C Resp E σ} {log : List (Made ι C Resp E σ)} {n : ℕ}
    (hne : m.caller.number ≠ n) : seen n (m :: log) = seen n log := by
  simp [seen, hne]

theorem mem_seen {n : ℕ} {log : List (Made ι C Resp E σ)} {e : Event C Resp E} :
    e ∈ seen n log ↔ ∃ m ∈ log, m.caller.number = n ∧ m.event = e := by
  simp [seen, and_assoc]

theorem mem_seen_of_suffix {n : ℕ} {log log' : List (Made ι C Resp E σ)} {e : Event C Resp E}
    (h : e ∈ seen n log) (hs : log <:+ log') : e ∈ seen n log' := by
  obtain ⟨m, hm, hn, he⟩ := mem_seen.mp h
  exact mem_seen.mpr ⟨m, hs.subset hm, hn, he⟩

/-- The record of an event a request has seen, and the log it was added to. -/
theorem exists_of_seen_suffix {n : ℕ} {e : Event C Resp E} {es : List (Event C Resp E)} :
    ∀ {log : List (Made ι C Resp E σ)}, e :: es <:+ seen n log →
      ∃ m older, m :: older <:+ log ∧ m.caller.number = n ∧ m.event = e ∧ seen n older = es
  | [], h => absurd (List.suffix_nil.mp h) (List.cons_ne_nil _ _)
  | m :: log, h => by
    have hrec : e :: es <:+ seen n log → ∃ m' older, m' :: older <:+ m :: log ∧
        m'.caller.number = n ∧ m'.event = e ∧ seen n older = es := by
      intro h
      obtain ⟨m', older, hs, hm'⟩ := exists_of_seen_suffix h
      exact ⟨m', older, hs.trans (List.suffix_cons _ _), hm'⟩
    by_cases hn : m.caller.number = n
    · subst hn
      rw [seen_cons_self] at h
      rcases List.suffix_cons_iff.mp h with heq | h
      · obtain ⟨he, hes⟩ := List.cons.inj heq
        exact ⟨m, log, List.suffix_refl _, rfl, he.symm, hes.symm⟩
      · exact hrec h
    · rw [seen_cons_ne hn] at h
      exact hrec h

/-- The record of the last event. -/
theorem exists_of_seen_cons {n : ℕ} {e : Event C Resp E} {es : List (Event C Resp E)}
    {log : List (Made ι C Resp E σ)} (h : seen n log = e :: es) :
    ∃ m older, m :: older <:+ log ∧ m.caller.number = n ∧ m.event = e ∧ seen n older = es :=
  exists_of_seen_suffix (h.symm ▸ List.suffix_refl _)

theorem mem_seen_cons {m : Made ι C Resp E σ} {log : List (Made ι C Resp E σ)} {n : ℕ}
    {e : Event C Resp E} :
    e ∈ seen n (m :: log) ↔ m.caller.number = n ∧ m.event = e ∨ e ∈ seen n log := by
  simp only [mem_seen, List.mem_cons, exists_eq_or_imp]

variable {Q : ι → List (Event C Resp E) → C → Prop} {R : ι → List (Event C Resp E) → Except ε α → Prop}

/-- Every record is by a request of the pool and allowed by what the request
had seen, and every request obeys the protocol from what it has seen. -/
structure Obeyed (Q : ι → List (Event C Resp E) → C → Prop)
    (R : ι → List (Event C Resp E) → Except ε α → Prop) (P : Pool ι C Resp E ε α σ) : Prop where
  callers : ∀ m ∈ P.sys.log, ∃ t, P.threads[m.caller.number]? = some t ∧ t.op = m.caller.op
  calls : ∀ m older, m :: older <:+ P.sys.log →
    Q m.caller.op (seen m.caller.number older) m.call
  rests : ∀ n t, P.threads[n]? = some t →
    Obeys (Q t.op) (R t.op) (seen n P.sys.log) t.rest

/-- The requests of a pool are as many as the numbers in its log allow. -/
theorem Obeyed.number_lt (hP : Obeyed Q R P) {m : Made ι C Resp E σ} (hm : m ∈ P.sys.log) :
    m.caller.number < P.threads.length := by
  obtain ⟨t, ht, -⟩ := hP.callers m hm
  exact (List.getElem?_eq_some_iff.mp ht).1

/-- A request that has yet to arrive has seen nothing. -/
theorem Obeyed.seen_eq_nil (hP : Obeyed Q R P) {n : ℕ} (hn : P.threads.length ≤ n) :
    seen n P.sys.log = [] := by
  refine List.eq_nil_iff_forall_not_mem.mpr fun e he => ?_
  obtain ⟨m, hm, rfl, -⟩ := mem_seen.mp he
  exact absurd (hP.number_lt hm) (Nat.not_lt.mpr hn)

/-- One move keeps a protocol that every program obeys. -/
theorem Obeyed.next {m : Move ι τ} (hP : Obeyed Q R P)
    (hprogram : ∀ op, Obeys (Q op) (R op) [] (program op)) :
    Obeyed Q R (Pool.next h program env m P) := by
  cases m with
  | start op =>
    refine ⟨fun r hr => ?_, hP.calls, fun n t ht => ?_⟩
    · obtain ⟨t, ht, hop⟩ := hP.callers r hr
      exact ⟨t, getElem?_start.mpr (.inl ht), hop⟩
    · rcases getElem?_start.mp ht with ht | ⟨rfl, rfl⟩
      · exact hP.rests n t ht
      · show Obeys (Q op) (R op) (seen P.threads.length P.sys.log) (program op)
        rw [hP.seen_eq_nil (Nat.le_refl _)]
        exact hprogram op
  | step n fate =>
    rcases atCall_or_done P n with ⟨op, c, k, hn⟩ | hdone
    · rw [next_step hn]
      obtain ⟨hcall, hrest⟩ := hP.rests n _ hn
      refine ⟨fun r hr => ?_, fun r older hr => ?_, fun j t ht => ?_⟩
      · rw [perform_log] at hr
        rcases List.mem_cons.mp hr with rfl | hr
        · exact ⟨_, (getElem?_step hn).mpr (.inl ⟨rfl, rfl⟩), rfl⟩
        · obtain ⟨t, ht, hop⟩ := hP.callers r hr
          rcases eq_or_ne r.caller.number n with heq | hne
          · rw [heq] at ht ⊢
            obtain rfl := Option.some.inj (ht.symm.trans hn)
            exact ⟨_, (getElem?_step hn).mpr (.inl ⟨rfl, rfl⟩), hop⟩
          · exact ⟨t, (getElem?_step hn).mpr (.inr ⟨hne, ht⟩), hop⟩
      · rw [perform_log] at hr
        rcases List.suffix_cons_iff.mp hr with heq | hr
        · obtain ⟨rfl, rfl⟩ := List.cons.inj heq
          exact hcall
        · exact hP.calls r older hr
      · rw [perform_log]
        rcases (getElem?_step hn).mp ht with ⟨rfl, rfl⟩ | ⟨hne, ht⟩
        · rw [seen_cons_self (m := ⟨⟨j, op⟩, _, _, _⟩)]
          exact hrest _
        · rw [seen_cons_ne hne.symm]
          exact hP.rests j t ht
    · rw [hdone]
      exact hP
  | env e => exact ⟨hP.callers, hP.calls, hP.rests⟩

/-- **Protocols.** If every program obeys the protocol, a run does. -/
theorem obeyed_run {init : Pool ι C Resp E ε α σ → Prop}
    {guard : Pool ι C Resp E ε α σ → Move ι τ → Prop}
    (hinit : ∀ P, init P → P.sys.log = [] ∧ P.threads = [])
    (hprogram : ∀ op, Obeys (Q op) (R op) [] (program op))
    (hrun : Reach init (Pool.next h program env) guard P) : Obeyed Q R P := by
  refine hrun.invariant (fun P hP => ?_) fun P m hP _ => hP.next hprogram
  obtain ⟨hlog, hthreads⟩ := hinit P hP
  refine ⟨fun m hm => ?_, fun m older hm => ?_, fun n t ht => ?_⟩
  · rw [hlog] at hm
    cases hm
  · rw [hlog] at hm
    exact absurd (List.suffix_nil.mp hm) (List.cons_ne_nil _ _)
  · rw [hthreads] at ht
    cases ht

/-- A call of a kind that a request makes only as long as it has made none has
one record. -/
theorem Obeyed.once (hP : Obeyed Q R P) {n : ℕ} {p : C → Prop}
    (honce : ∀ op seen c, Q op seen c → p c → ∀ e ∈ seen, ¬ p e.1) {m m' : Made ι C Resp E σ}
    (hm : m ∈ P.sys.log) (hm' : m' ∈ P.sys.log) (hn : m.caller.number = n)
    (hn' : m'.caller.number = n) (hp : p m.call) (hp' : p m'.call) : m = m' := by
  -- the record of which the other one is an older one
  have hnewer : ∀ {r r' : Made ι C Resp E σ} {older : List (Made ι C Resp E σ)},
      r :: older <:+ P.sys.log → r' ∈ older → r.caller.number = r'.caller.number → p r.call →
      ¬ p r'.call := fun {r r' older} hs hmem hnumber hr => by
    have hseen : r'.event ∈ seen r.caller.number older := mem_seen.mpr ⟨r', hmem, hnumber.symm, rfl⟩
    exact honce _ _ _ (hP.calls r older hs) hr _ hseen
  obtain ⟨newer, older, heq⟩ := List.append_of_mem hm
  rw [heq] at hm'
  rcases List.mem_append.mp hm' with hmem | hmem
  · obtain ⟨newest, between, rfl⟩ := List.append_of_mem hmem
    have hs : m' :: (between ++ m :: older) <:+ P.sys.log := ⟨newest, by rw [heq]; simp⟩
    exact absurd hp (hnewer hs (by simp) (hn'.trans hn.symm) hp')
  · rcases List.mem_cons.mp hmem with rfl | hmem
    · rfl
    · exact absurd hp' (hnewer ⟨newer, heq.symm⟩ hmem (hn.trans hn'.symm) hp)

/-! ### The moment of a record -/

/-- The request was answered `a` to the call it made in `P₀`, which left `P₁`,
and the run went on from there to `P`. -/
structure Moment (h : Handler C Resp E σ) (program : ι → Prog C Resp E ε α) (env : τ → σ → σ)
    (init : Pool ι C Resp E ε α σ → Prop) (guard : Pool ι C Resp E ε α σ → Move ι τ → Prop)
    (caller : Caller ι) (c : C) (a : Resp c) (P₀ P₁ P : Pool ι C Resp E ε α σ) : Prop where
  reach : Reach init (Pool.next h program env) guard P₀
  thread : ∃ k, P₀.threads[caller.number]? = some ⟨caller.op, .call c k⟩
  guarded : guard P₀ (.step caller.number .answered)
  next : P₁ = Pool.next h program env (.step caller.number .answered) P₀
  exec : (h.exec c P₀.sys.store).1 = .ok a
  sys : P₁.sys = ⟨(h.exec c P₀.sys.store).2, ⟨caller, P₀.sys.store, c, .ok a⟩ :: P₀.sys.log⟩
  later : Later h program env guard P₁ P

section Moment

variable {init : Pool ι C Resp E ε α σ → Prop}
  {guard : Pool ι C Resp E ε α σ → Move ι τ → Prop}

theorem Moment.reach_next {caller : Caller ι} {c : C} {a : Resp c} {P₁ : Pool ι C Resp E ε α σ}
    (hm : Moment h program env init guard caller c a P₀ P₁ P) :
    Reach init (Pool.next h program env) guard P₁ :=
  hm.next ▸ .next _ hm.reach hm.guarded

theorem Moment.exec_eq {caller : Caller ι} {c : C} {a : Resp c} {P₁ : Pool ι C Resp E ε α σ}
    (hm : Moment h program env init guard caller c a P₀ P₁ P) :
    h.exec c P₀.sys.store = (.ok a, P₁.sys.store) :=
  Prod.ext hm.exec (by rw [hm.sys])

/-- The run from before the call. -/
theorem Moment.later_call {caller : Caller ι} {c : C} {a : Resp c} {P₁ : Pool ι C Resp E ε α σ}
    (hm : Moment h program env init guard caller c a P₀ P₁ P) : Later h program env guard P₀ P :=
  Reach.trans (hm.next ▸ .next _ (.start rfl) hm.guarded) hm.later

/-- **Moments.** Every record of an answer that was not there at the start has its
moment. -/
theorem Reach.moment {caller : Caller ι} {before : σ} {c : C} {a : Resp c}
    {older : List (Made ι C Resp E σ)}
    (hinit : ∀ P, init P → ⟨caller, before, c, .ok a⟩ ∉ P.sys.log)
    (hrun : Reach init (Pool.next h program env) guard P)
    (hm : ⟨caller, before, c, .ok a⟩ :: older <:+ P.sys.log) :
    ∃ P₀ P₁, Moment h program env init guard caller c a P₀ P₁ P ∧ P₀.sys = ⟨before, older⟩ := by
  induction hrun with
  | start hP => exact absurd (hm.subset List.mem_cons_self) (hinit _ hP)
  | @next P e hrun hg ih =>
    have hold : ⟨caller, before, c, .ok a⟩ :: older <:+ P.sys.log → ∃ P₀ P₁,
        Moment h program env init guard caller c a P₀ P₁ (Pool.next h program env e P) ∧
          P₀.sys = ⟨before, older⟩ := by
      intro hm
      obtain ⟨P₀, P₁, hmoment, hsys⟩ := ih hm
      exact ⟨P₀, P₁, { hmoment with later := .next e hmoment.later hg }, hsys⟩
    cases e with
    | start op => exact hold hm
    | step n fate =>
      rcases atCall_or_done P n with ⟨op, c, k, hn⟩ | hdone
      · have hstep : Pool.next h program env (.step n fate) P =
            ⟨(P.sys.perform h ⟨n, op⟩ c fate).2,
              P.threads.set n ⟨op, k (P.sys.perform h ⟨n, op⟩ c fate).1⟩⟩ := next_step hn
        rw [hstep, perform_log] at hm
        rcases List.suffix_cons_iff.mp hm with heq | hm
        · obtain ⟨hrecord, rfl⟩ := List.cons.inj heq
          obtain ⟨rfl, rfl, rfl, hanswer⟩ := Made.mk.inj hrecord
          obtain ⟨rfl, hexec⟩ := perform_ok (eq_of_heq hanswer).symm
          refine ⟨P, _, ⟨hrun, ⟨k, hn⟩, hg, rfl, hexec, ?_, .start rfl⟩, rfl⟩
          rw [hstep, ← hexec]
          rfl
        · exact hold hm
      · exact hold (by rwa [hdone] at hm)
    | env e => exact hold hm

/-- What a request has been answered, it was answered at a moment. -/
theorem Reach.moment_of_seen {n : ℕ} {c : C} {a : Resp c}
    (hinit : ∀ P, init P → (⟨c, .ok a⟩ : Event C Resp E) ∉ seen n P.sys.log)
    (hrun : Reach init (Pool.next h program env) guard P)
    (hs : (⟨c, .ok a⟩ : Event C Resp E) ∈ seen n P.sys.log) :
    ∃ op P₀ P₁, Moment h program env init guard ⟨n, op⟩ c a P₀ P₁ P := by
  obtain ⟨⟨⟨j, op⟩, before, c', answer⟩, hm, rfl, hevent⟩ := mem_seen.mp hs
  have hevent : (⟨c', answer⟩ : Event C Resp E) = ⟨c, .ok a⟩ := hevent
  cases hevent
  obtain ⟨newer, older, heq⟩ := List.append_of_mem hm
  have hsuffix : ⟨⟨j, op⟩, before, c, .ok a⟩ :: older <:+ P.sys.log := ⟨newer, heq.symm⟩
  obtain ⟨P₀, P₁, hmoment, -⟩ :=
    hrun.moment (fun P hP hmem => hinit P hP (mem_seen.mpr ⟨_, hmem, rfl, rfl⟩)) hsuffix
  exact ⟨op, P₀, P₁, hmoment⟩

/-- The request of a moment is the one that still has its number. -/
theorem Moment.op_eq {caller : Caller ι} {c : C} {a : Resp c} {P₁ : Pool ι C Resp E ε α σ}
    (hm : Moment h program env init guard caller c a P₀ P₁ P) {t : Thread ι C Resp E ε α}
    (ht : P.threads[caller.number]? = some t) : t.op = caller.op := by
  obtain ⟨k, hk⟩ := hm.thread
  have h₁ : P₁.threads[caller.number]? = some ⟨caller.op, k (P₀.sys.perform h caller c .answered).1⟩ := by
    rw [hm.next, next_step hk]
    exact (getElem?_step hk).mpr (.inl ⟨rfl, rfl⟩)
  obtain ⟨t', ht', hop, -⟩ := hm.later.thread h₁
  obtain rfl := Option.some.inj (ht.symm.trans ht')
  exact hop

/-- What a request has been answered, it asked as its protocol allows. -/
theorem Reach.moment_allowed {n : ℕ} {c : C} {a : Resp c} {op : ι}
    {t : Thread ι C Resp E ε α} (hinit : ∀ P, init P → P.sys.log = [] ∧ P.threads = [])
    (hprogram : ∀ op, Obeys (Q op) (R op) [] (program op))
    (hrun : Reach init (Pool.next h program env) guard P) (ht : P.threads[n]? = some t)
    (hop : t.op = op) (hs : (⟨c, .ok a⟩ : Event C Resp E) ∈ seen n P.sys.log) :
    ∃ P₀ P₁, Moment h program env init guard ⟨n, op⟩ c a P₀ P₁ P ∧ Q op (seen n P₀.sys.log) c := by
  have hnone : ∀ P, init P → (⟨c, .ok a⟩ : Event C Resp E) ∉ seen n P.sys.log := by
    intro P hP hmem
    rw [(hinit P hP).1] at hmem
    cases hmem
  obtain ⟨op', P₀, P₁, hmoment⟩ := hrun.moment_of_seen hnone hs
  obtain rfl : op = op' := hop.symm.trans (hmoment.op_eq ht)
  obtain ⟨k, hk⟩ := hmoment.thread
  exact ⟨P₀, P₁, hmoment, ((obeyed_run hinit hprogram hmoment.reach).rests n _ hk).1⟩

end Moment

end Pool
end Lib
