/-
# Families of sessions

A sign-in opens a family of sessions under an id it draws, and a refresh
inserts into the family of the session it has found. If the ids drawn are new,
then no family has a session before its sign-in inserts the first one, and no
two sign-ins open the same (`families_apart`).

Key definitions: `NewFamily`, `FamiliesApart`.
Key theorems: `families_apart`.
-/
import Gitdot.Auth.Protocol

namespace Gitdot
namespace Auth

open Lib Prog

variable {c : Setup} {guard : AuthPool → AuthMove → Prop} {P : AuthPool}

/-- A sign-in that arrives draws a family that no session and no other sign-in
has. -/
def NewFamily (P : AuthPool) : AuthMove → Prop
  | .start op => ∀ family ∈ op.opens,
      (∀ r ∈ P.sys.store.sessions.rows, r.refreshTokenFamily ≠ family) ∧
      ∀ t ∈ P.threads, t.op.opens ≠ some family
  | .step _ _ => True
  | .env _ => True

instance (P : AuthPool) : (m : AuthMove) → Decidable (NewFamily P m)
  | .start op => Option.decidableForallMem op.opens
  | .step _ _ => .isTrue trivial
  | .env _ => .isTrue trivial

/-- No two sign-ins open the same family, and it has no session before its
sign-in asks for one. -/
structure FamiliesApart (P : AuthPool) : Prop where
  distinct : ∀ (n m : ℕ) (t u : AuthThread) family, n ≠ m → P.threads[n]? = some t → P.threads[m]? = some u →
    t.op.opens = some family → u.op.opens ≠ some family
  unopened : ∀ (n : ℕ) (t : AuthThread) family, P.threads[n]? = some t → t.op.opens = some family →
    Unopened (seen n P.sys.log) → ∀ r ∈ P.sys.store.sessions.rows, r.refreshTokenFamily ≠ family

/-- The family a session is inserted into is that of a session found, or the one
that the request opens. -/
theorem Makes.family {op : Op} {n : ℕ} {user : Uuid} {hash : String} {family : Uuid}
    {expiresAt : Time} (hP : Run c guard P)
    (h : Makes c op (seen n P.sys.log) (.createSession user hash family expiresAt)) :
    op.opens = some family ∨ ∃ r ∈ P.sys.store.sessions.rows, r.refreshTokenFamily = family := by
  obtain ⟨-, -, ⟨email, u, -, -, hopens⟩ | ⟨oldHash, session, u, entry, hrot, -, -, hfamily⟩⟩ := h
  · exact .inl hopens
  · obtain ⟨r, hr, -, -, hsame, -⟩ := hrot.found.session hP
    exact .inr ⟨r, Table.mem_rows_of_get? hr, hsame.trans hfamily.symm⟩

/-- **Families.** If the families drawn are new, they are kept apart. -/
theorem families_apart (hguard : ∀ P m, guard P m → NewFamily P m) (hP : Run c guard P) :
    FamiliesApart P := by
  induction hP using Run.happening with
  | start hidle =>
    obtain ⟨now, rfl⟩ := hidle
    exact ⟨fun n m t u family _ ht => by simp at ht, fun n t family ht => by simp at ht⟩
  | @next P m P' hP _ hg hhappens ih =>
    cases hhappens with
    | nothing => exact ih
    | tick => exact ⟨ih.distinct, ih.unopened⟩
    | arrival op =>
      have hnew := hguard P _ hg
      refine ⟨fun n m t u family hne ht hu hopens => ?_, fun n t family ht hopens hun => ?_⟩
      · rcases getElem?_start.mp ht with ht | ⟨rfl, rfl⟩ <;>
          rcases getElem?_start.mp hu with hu | ⟨rfl, rfl⟩
        · exact ih.distinct n m t u family hne ht hu hopens
        · intro hopens'
          exact (hnew family hopens').2 t (List.mem_of_getElem? ht) hopens
        · exact (hnew family hopens).2 u (List.mem_of_getElem? hu)
        · exact absurd rfl hne
      · rcases getElem?_start.mp ht with ht | ⟨rfl, rfl⟩
        · exact ih.unopened n t family ht hopens hun
        · exact (hnew family hopens).1
    | call n fate op call k s answer thread effect makes ok =>
      have hop : ∀ (j : ℕ) (t : AuthThread), (P.threads.set n ⟨op, k answer⟩)[j]? = some t →
          ∃ u : AuthThread, P.threads[j]? = some u ∧ u.op = t.op := by
        intro j t ht
        rcases (getElem?_step thread).mp ht with ⟨rfl, rfl⟩ | ⟨-, ht⟩
        · exact ⟨_, thread, rfl⟩
        · exact ⟨t, ht, rfl⟩
      refine ⟨fun i j t u family hne ht hu hopens => ?_, fun j t family ht hopens hun r hr => ?_⟩
      · obtain ⟨t', ht', heqt⟩ := hop i t ht
        obtain ⟨u', hu', hequ⟩ := hop j u hu
        rw [← hequ]
        exact ih.distinct i j t' u' family hne ht' hu' (heqt ▸ hopens)
      · obtain ⟨t', ht', heq⟩ := hop j t ht
        have hun' : Unopened (seen j P.sys.log) := fun user hash family expiresAt r hmem =>
          hun user hash family expiresAt r (mem_seen_cons.mpr (.inr hmem))
        have hold := ih.unopened j t' family ht' (heq ▸ hopens) hun'
        rcases effect.session_cases hr with ⟨q, hq, -, -, hsame, -⟩ |
          ⟨user, hash, family', expiresAt, rfl, rfl⟩
        · rw [← hsame]
          exact hold q hq
        -- a session is inserted: by another request, into another family
        · rintro rfl
          have hne : n ≠ j := by
            rintro rfl
            exact hun user hash family' expiresAt answer (mem_seen_cons.mpr (.inl ⟨rfl, rfl⟩))
          rcases makes.family hP with hopens' | ⟨q, hq, hsame⟩
          · exact ih.distinct n j _ t' _ hne thread ht' hopens' (heq ▸ hopens)
          · exact hold q hq hsame

end Auth
end Gitdot
