/-
# Claims in Redis

`set_nx_with_ttl` claims a key: `SET key value NX EX ttl`, which answers
whether the key was free. It runs under `with_retry`, which sends the command
again when the connection fails. But a connection can fail after the command
has had its effect. The next attempt then finds the key taken, by the attempt
before it, and the caller that holds the key is told that it does not.

So whoever is answered false does not hold the key, as long as no attempt is
answered when its caller holds the key already (`claim_has_winner`); and an
attempt that is so answered tells the holder false (`told_false`).

Key definitions: `RedisCommand`, `withRetry`, `setNxWithTtl`, `Told`,
`NotHeld`.
Key theorems: `claim_has_winner`, `told_false`.
-/
import Gitdot.Lib.Pool

namespace Gitdot
namespace Redis

open Lib

/-- `redis::RedisError`, as far as `with_retry` tells them apart. -/
structure RedisError where
  isIoError : Bool
  message : String
  deriving DecidableEq

/-- `MAX_RETRIES`. -/
def maxRetries : ℕ := 2

/-- `SET key raw NX EX ttl`, the one command that claims. -/
inductive RedisCommand where
  | setNxEx (key raw : String) (ttl : ℕ)
  deriving DecidableEq

/-- The reply, `OK` or nil. -/
@[reducible] def RedisCommand.Resp : RedisCommand → Type
  | .setNxEx _ _ _ => Option String

/-- The values of the keys that have not expired. -/
abbrev Keys := String → Option String

def execCommand : (command : RedisCommand) → Keys → Except RedisError command.Resp × Keys
  | .setNxEx key raw _, keys =>
    match keys key with
    | some _ => (.ok none, keys)
    | none => (.ok (some "OK"), Function.update keys key (some raw))

/-- What answers the commands. An attempt that fails lost its connection. -/
def redisCommands : Prog.Handler RedisCommand RedisCommand.Resp RedisError Keys where
  exec := execCommand
  fault := fun _ => ⟨true, "broken pipe"⟩

abbrev RedisProg := Prog RedisCommand RedisCommand.Resp RedisError RedisError

/-- `with_retry` of one command, with so many retries left. -/
def withRetry : ℕ → (command : RedisCommand) → RedisProg command.Resp
  | 0, command => .call command fun
    | .ok value => .ret value
    | .error e => .fail e
  | retries + 1, command => .call command fun
    | .ok value => .ret value
    | .error e => if e.isIoError then withRetry retries command else .fail e

/-- A caller of `set_nx_with_ttl`, with its value as JSON. -/
structure Claim where
  key : String
  raw : String
  ttl : ℕ
  deriving DecidableEq

def Claim.command (c : Claim) : RedisCommand := .setNxEx c.key c.raw c.ttl

def setNxWithTtl (c : Claim) : RedisProg Bool := do
  let result ← withRetry maxRetries c.command
  pure result.isSome

/-! ### Runs -/

abbrev RedisPool := Pool Claim RedisCommand RedisCommand.Resp RedisError RedisError Bool Keys

abbrev RedisMove := Move Claim Empty

def redisNext : RedisMove → RedisPool → RedisPool :=
  Pool.next redisCommands setNxWithTtl fun e => nomatch e

/-- Where runs start: no caller has come, and the key is free. -/
def Fresh (key : String) (P : RedisPool) : Prop :=
  P.sys.log = [] ∧ P.threads = [] ∧ P.sys.store key = none

/-- What a caller has been told, where its call has come to an end. -/
def Told (P : RedisPool) (n : ℕ) (c : Claim) (won : Bool) : Prop := P.result n = some (c, .ok won)

/-- Attempts for the key are answered only while their caller does not hold
it. -/
def NotHeld (key : String) (P : RedisPool) : RedisMove → Prop
  | .step n .answered => ∀ t ∈ P.threads[n]?, t.inFlight = true → t.op.key = key →
      P.sys.store key ≠ some t.op.raw
  | _ => True

instance (key : String) (P : RedisPool) : (m : RedisMove) → Decidable (NotHeld key P m)
  | .start _ | .step _ .refused | .step _ .lost => .isTrue trivial
  | .step _ .answered =>
    letI (t : Thread Claim RedisCommand RedisCommand.Resp RedisError RedisError Bool) :
        Decidable (t.inFlight = true → t.op.key = key → P.sys.store key ≠ some t.op.raw) :=
      inferInstance
    Option.decidableForallMem _

/-! ### Where a caller is -/

/-- A caller that sends its command, and sends it again or gives up if the
attempt fails. -/
inductive Sends (c : Claim) : RedisProg Bool → Prop where
  | call {k : Except RedisError (Option String) → RedisProg Bool}
      (hok : ∀ reply, k (.ok reply) = .ret reply.isSome) (herr : ∀ e, Sends c (k (.error e))) :
      Sends c (.call c.command k)
  | fail (e : RedisError) : Sends c (.fail e)

theorem sends_withRetry (c : Claim) (retries : ℕ) :
    Sends c (withRetry retries c.command >>= fun result => pure result.isSome) := by
  induction retries with
  | zero => exact .call (fun _ => rfl) fun e => .fail e
  | succ retries ih =>
    refine .call (fun _ => rfl) fun e => ?_
    show Sends c ((if e.isIoError then withRetry retries c.command else .fail e) >>= _)
    split_ifs
    · exact ih
    · exact .fail e

/-- What can be left of a call. -/
def Placed (c : Claim) (p : RedisProg Bool) : Prop := Sends c p ∨ ∃ won, p = .ret won

theorem placed_start (c : Claim) : Placed c (setNxWithTtl c) := .inl (sends_withRetry c maxRetries)

theorem placed_next (c : Claim) (command : RedisCommand)
    (k : Except RedisError command.Resp → RedisProg Bool) (a : Except RedisError command.Resp)
    (h : Placed c (.call command k)) : Placed c (k a) := by
  rcases h with h | ⟨won, h⟩
  · cases h with
    | call hok herr =>
      cases a with
      | ok reply => exact .inr ⟨_, hok reply⟩
      | error e => exact .inl (herr e)
  · cases h

/-! ### One attempt -/

/-- A key that is taken stays with its value. -/
theorem exec_keeps {command : RedisCommand} {keys : Keys} {key value : String}
    (h : keys key = some value) : (redisCommands.exec command keys).2 key = some value := by
  obtain ⟨key', raw, ttl⟩ := command
  simp only [redisCommands, execCommand]
  split
  · exact h
  · next hfree =>
    have hne : key ≠ key' := by
      rintro rfl
      rw [h] at hfree
      cases hfree
    show Function.update keys key' (some raw) key = some value
    rw [Function.update_of_ne hne]
    exact h

/-- The reply is nil if the key is taken. -/
theorem exec_nil {c : Claim} {keys : Keys} (h : (redisCommands.exec c.command keys).1 = .ok none) :
    ∃ value, keys c.key = some value := by
  simp only [redisCommands, Claim.command, execCommand] at h
  split at h
  · next value hvalue => exact ⟨value, hvalue⟩
  · cases h

/-! ### Runs -/

section Runs

variable {key : String} {P : RedisPool}

/-- The callers that were told false find the key with someone else. -/
def Honest (key : String) (P : RedisPool) : Prop :=
  ∀ n c, c.key = key → Told P n c false → ∃ value, P.sys.store key = some value ∧ value ≠ c.raw

theorem Told.thread {n : ℕ} {c : Claim} {won : Bool} (h : Told P n c won) :
    P.threads[n]? = some ⟨c, .ret won⟩ := result_ok.mp h

/-- What an attempt sees when it is told that the key is taken. -/
theorem taken_of_ret {c : Claim} {caller : Caller Claim} {command : RedisCommand}
    {k : Except RedisError command.Resp → RedisProg Bool} {fate : Fate}
    (h : Placed c (.call command k))
    (hret : k (P.sys.perform redisCommands caller command fate).1 = .ret false) :
    fate = .answered ∧ ∃ value, P.sys.store c.key = some value := by
  rcases h with h | ⟨won, h⟩
  · cases h with
    | call hok herr =>
      cases hanswer : (P.sys.perform redisCommands caller c.command fate).1 with
      | ok reply =>
        rw [hanswer, hok] at hret
        have hnone : reply = none := by simpa using Prog.ret.inj hret
        have hans := perform_ok hanswer
        rw [hnone] at hans
        exact ⟨hans.1, exec_nil hans.2⟩
      | error e =>
        -- a failed attempt is sent again or given up, and tells nothing
        have hsends := herr e
        rw [hanswer] at hret
        rw [hret] at hsends
        cases hsends
  · cases h

theorem honest_next {m : RedisMove}
    (hP : ∀ (n : ℕ) (t : Thread Claim RedisCommand RedisCommand.Resp RedisError RedisError Bool),
      P.threads[n]? = some t → Placed t.op t.rest)
    (hH : Honest key P) (hg : NotHeld key P m) : Honest key (redisNext m P) := by
  intro n c hc htold
  cases m with
  | start c' =>
    rcases getElem?_start.mp htold.thread with ht | ⟨-, hnew⟩
    · exact hH n c hc (result_ok.mpr ht)
    · -- a caller that has just come has been told nothing
      obtain ⟨rfl, hret⟩ := Thread.mk.inj hnew
      cases hret
  | step j fate =>
    rcases atCall_or_done P j with ⟨c', command, k, hj⟩ | hdone
    · have hstep : redisNext (.step j fate) P = _ := next_step hj
      have hkeep : ∀ value, P.sys.store key = some value →
          (redisNext (.step j fate) P).sys.store key = some value := by
        intro value hvalue
        rw [hstep]
        exact perform_keeps (P := fun keys : Keys => keys key = some value) hvalue (exec_keeps hvalue)
      have ht := htold.thread
      rw [hstep] at ht
      rcases (getElem?_step hj).mp ht with ⟨rfl, hthread⟩ | ⟨-, ht⟩
      · obtain ⟨rfl, hret⟩ := Thread.mk.inj hthread
        obtain ⟨rfl, value, hvalue⟩ := taken_of_ret (hP n _ hj) hret.symm
        rw [hc] at hvalue
        refine ⟨value, hkeep value hvalue, ?_⟩
        rintro rfl
        exact hg _ hj rfl hc hvalue
      · obtain ⟨value, hvalue, hne⟩ := hH n c hc (result_ok.mpr ht)
        exact ⟨value, hkeep value hvalue, hne⟩
    · have hstay : redisNext (.step j fate) P = P := hdone fate
      rw [hstay] at htold ⊢
      exact hH n c hc htold
  | env e => exact nomatch e

theorem placed_run {guard : RedisPool → RedisMove → Prop} (h : Reach (Fresh key) redisNext guard P) :
    ∀ (n : ℕ) (t : Thread Claim RedisCommand RedisCommand.Resp RedisError RedisError Bool),
      P.threads[n]? = some t → Placed t.op t.rest := by
  induction h with
  | start hfresh =>
    intro n t ht
    simp [hfresh.2.1] at ht
  | next m _ _ ih => exact threads_next placed_start placed_next ih m

theorem honest_run (h : Reach (Fresh key) redisNext (NotHeld key) P) : Honest key P := by
  induction h with
  | start hfresh =>
    intro n c _ htold
    have ht := htold.thread
    simp [hfresh.2.1] at ht
  | next m hrun hg ih => exact honest_next (placed_run hrun) ih hg

/-- **Claims have a winner.** Whatever callers come and whatever becomes of
their attempts, as long as none is answered while its caller holds the key
already, the caller whose value the key holds has not been told that the key
was taken. -/
theorem claim_has_winner (h : Reach (Fresh key) redisNext (NotHeld key) P) {n : ℕ} {c : Claim}
    (hc : c.key = key) (hheld : P.sys.store key = some c.raw) : ¬ Told P n c false := by
  intro htold
  obtain ⟨value, hvalue, hne⟩ := honest_run h n c hc htold
  rw [hheld] at hvalue
  exact hne (Option.some.inj hvalue).symm

/-- Two callers for one key, with different values. -/
def rotation (raw : String) : Claim := ⟨"grace:1", raw, 30⟩

def emptyPool : RedisPool := ⟨⟨fun _ => none, []⟩, []⟩

def wonRun : List RedisMove :=
  [.start (rotation "a"), .start (rotation "b"), .step 0 .refused, .step 0 .answered,
    .step 1 .lost, .step 1 .answered]

theorem claim_has_winner_rotation :
    ¬ Told (play redisNext wonRun emptyPool) 0 (rotation "a") false :=
  have hfresh : Fresh "grace:1" emptyPool := ⟨rfl, rfl, rfl⟩
  claim_has_winner (reach_play (.start hfresh) (by decide +kernel)) rfl (by decide +kernel)

/-- The first caller sets the key and does not hear of it. Then both are told
that the key was taken. -/
def lostRun : List RedisMove :=
  [.start (rotation "a"), .start (rotation "b"), .step 0 .lost, .step 0 .answered,
    .step 1 .answered]

theorem not_claim_has_winner_lost :
    ¬ ∀ key P, Reach (Fresh key) redisNext (fun _ _ => True) P →
      P.threads.Pairwise (fun t u => t.op.key = u.op.key → t.op.raw ≠ u.op.raw) →
      ∀ n c, c.key = key → P.sys.store key = some c.raw → ¬ Told P n c false := by
  intro hall
  refine hall "grace:1" (play redisNext lostRun emptyPool)
    (reach_play (.start ⟨rfl, rfl, rfl⟩) guarded_true) (by decide +kernel) 0 (rotation "a") rfl
    (by decide +kernel) ?_
  show _ = some _
  decide +kernel

/-- **Winners told otherwise.** An attempt that is answered while its caller
holds the key tells it that the key was taken. -/
theorem told_false {guard : RedisPool → RedisMove → Prop} (h : Reach (Fresh key) redisNext guard P)
    {n : ℕ} (hbad : ¬ NotHeld key P (.step n .answered)) :
    ∃ c, c.key = key ∧ Told (redisNext (.step n .answered) P) n c false ∧
      (redisNext (.step n .answered) P).sys.store key = some c.raw := by
  simp only [NotHeld, not_forall, not_not] at hbad
  obtain ⟨⟨c, rest⟩, ht, hflight, hc, hheld⟩ := hbad
  cases rest with
  | ret won => cases hflight
  | fail e => cases hflight
  | call command k =>
    have hplaced : Placed c (.call command k) := placed_run h n _ ht
    rcases hplaced with hsends | ⟨won, hret⟩
    · cases hsends with
      | call hok herr =>
        have hexec : redisCommands.exec c.command P.sys.store = (.ok none, P.sys.store) := by
          simp only [redisCommands, Claim.command, execCommand]
          rw [show P.sys.store c.key = some c.raw from hc ▸ hheld]
        have hstep : redisNext (.step n .answered) P = _ := next_step ht
        refine ⟨c, hc, ?_, ?_⟩
        · refine result_ok.mpr ?_
          rw [hstep]
          refine (getElem?_step ht).mpr (.inl ⟨rfl, ?_⟩)
          have hk := hok none
          rw [show (P.sys.perform redisCommands ⟨n, c⟩ c.command .answered).1 = .ok none from
            congrArg Prod.fst hexec, hk]
          rfl
        · rw [hstep]
          show (redisCommands.exec c.command P.sys.store).2 key = some c.raw
          rw [hexec]
          exact hheld
    · cases hret

end Runs

end Redis
end Gitdot
