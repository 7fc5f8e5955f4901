/-
# Transactions that run concurrently

Transactions are programs over the statements of a database, run under READ
COMMITTED. What a transaction has written is seen by its own statements only,
until it commits; a statement sees what is committed when it is made, and what
its own transaction has written. A row that an open transaction has written is
locked: a statement that would write it, or that has to know whether it stays,
waits (`Free`), and goes on from the row as it then is.

An `Engine` says which row a write is to and which row a statement waits for,
and carries the fact that a write leaves the other rows alone. So the rows an
open transaction has written are as they were when it wrote them, whatever the
others do, and no two open transactions have written one row (`Exclusive`). A
fact about an open transaction that rests on these rows alone is kept by all
moves of the others, and what every commit keeps of the committed store holds in
every state of a run (`sessions_run`).

Key definitions: `Engine`, `Session`, `Db`, `Db.next`, `OnStatements`,
`Exclusive`, `SessionRules`.
Key theorems: `exclusive_next`, `row_view`, `sessions_run`.
-/
import Gitdot.Lib.Pool

namespace Lib
namespace Transaction

open Prog

/-- A database. The writes are to one row each; a statement that writes waits
for the row. -/
structure Engine (σ W K R C : Type) (Resp : C → Type) (E : Type) where
  apply : W → σ → σ
  key : W → K
  row : σ → K → R
  waits : C → σ → Option K
  exec : (c : C) → σ → Except E (Resp c) × Option W
  row_apply : ∀ w s k, k ≠ key w → row (apply w s) k = row s k
  waits_exec : ∀ c s w, (exec c s).2 = some w → waits c s = some (key w)

variable {σ W K R C : Type} {Resp : C → Type} {E ι ε α : Type}

/-- A transaction: what is left of its program, what it has written, the latest
first, and what it has seen. -/
structure Session (ι C : Type) (Resp : C → Type) (E ε α W : Type) where
  op : ι
  rest : Prog C Resp E ε α
  writes : List W
  seen : List (Event C Resp E)
  isOpen : Bool

/-- The committed store, and the transactions in the order in which they began. -/
structure Db (ι C : Type) (Resp : C → Type) (E ε α σ W : Type) where
  store : σ
  sessions : List (Session ι C Resp E ε α W)

/-- A move: a transaction begins, makes its next statement, commits, or is rolled
back, which can happen at any time. -/
inductive TxMove (ι : Type) where
  | start (op : ι)
  | statement (number : ℕ)
  | commit (number : ℕ)
  | rollback (number : ℕ)

section Db

variable (g : Engine σ W K R C Resp E)

/-- The store as the transaction sees it. -/
def Session.view (t : Session ι C Resp E ε α W) (s : σ) : σ := t.writes.foldr g.apply s

/-- The transaction is open and has written the row. -/
def Session.Holds (t : Session ι C Resp E ε α W) (k : K) : Prop :=
  t.isOpen = true ∧ k ∈ t.writes.map g.key

instance [DecidableEq K] (t : Session ι C Resp E ε α W) (k : K) : Decidable (t.Holds g k) :=
  inferInstanceAs (Decidable (_ ∧ _))

/-- No other transaction holds the row that the statement waits for. -/
def Free (P : Db ι C Resp E ε α σ W) (n : ℕ) (wanted : Option K) : Prop :=
  ∀ k ∈ wanted, ∀ x ∈ P.sessions.zipIdx, x.2 ≠ n → ¬ x.1.Holds g k

instance [DecidableEq K] (P : Db ι C Resp E ε α σ W) (n : ℕ) (wanted : Option K) :
    Decidable (Free g P n wanted) :=
  letI (k : K) : Decidable (∀ x ∈ P.sessions.zipIdx, x.2 ≠ n → ¬ x.1.Holds g k) :=
    List.decidableBAll _ _
  Option.decidableForallMem wanted

/-- The transaction after a statement on the store. -/
def Session.after (t : Session ι C Resp E ε α W) (s : σ) (c : C)
    (k : Except E (Resp c) → Prog C Resp E ε α) : Session ι C Resp E ε α W :=
  { t with
    rest := k (g.exec c (t.view g s)).1
    writes := (g.exec c (t.view g s)).2.toList ++ t.writes
    seen := ⟨c, (g.exec c (t.view g s)).1⟩ :: t.seen }

/-- The transaction when it is over. -/
def Session.closed (t : Session ι C Resp E ε α W) : Session ι C Resp E ε α W :=
  { t with isOpen := false }

/-- The statement that the move makes. -/
def Db.stating (P : Db ι C Resp E ε α σ W) : TxMove ι → Option (Session ι C Resp E ε α W × C)
  | .statement n =>
    match P.sessions[n]? with
    | some ⟨op, .call c k, writes, seen, true⟩ => some (⟨op, .call c k, writes, seen, true⟩, c)
    | _ => none
  | _ => none

/-- The database after a move. Statements that have to wait do nothing yet, and
only a program that has returned commits. -/
def Db.next [DecidableEq K] (program : ι → Prog C Resp E ε α) :
    TxMove ι → Db ι C Resp E ε α σ W → Db ι C Resp E ε α σ W
  | .start op, P => { P with sessions := P.sessions ++ [⟨op, program op, [], [], true⟩] }
  | .statement n, P =>
    match P.sessions[n]? with
    | some ⟨op, .call c k, writes, seen, true⟩ =>
      let t : Session ι C Resp E ε α W := ⟨op, .call c k, writes, seen, true⟩
      if Free g P n (g.waits c (t.view g P.store)) then
        { P with sessions := P.sessions.set n (t.after g P.store c k) }
      else P
    | _ => P
  | .commit n, P =>
    match P.sessions[n]? with
    | some ⟨op, .ret a, writes, seen, true⟩ =>
      let t : Session ι C Resp E ε α W := ⟨op, .ret a, writes, seen, true⟩
      ⟨t.view g P.store, P.sessions.set n t.closed⟩
    | _ => P
  | .rollback n, P =>
    match P.sessions[n]? with
    | some t => { P with sessions := P.sessions.set n t.closed }
    | none => P

/-- A guard on the statements: `φ` of what is committed, the transaction and the
statement. -/
def OnStatements (φ : σ → Session ι C Resp E ε α W → C → Prop) (P : Db ι C Resp E ε α σ W)
    (m : TxMove ι) : Prop :=
  ∀ x ∈ P.stating m, φ P.store x.1 x.2

instance {φ : σ → Session ι C Resp E ε α W → C → Prop} [∀ s t c, Decidable (φ s t c)]
    (P : Db ι C Resp E ε α σ W) (m : TxMove ι) : Decidable (OnStatements φ P m) :=
  letI (x : Session ι C Resp E ε α W × C) : Decidable (φ P.store x.1 x.2) := inferInstance
  Option.decidableForallMem (P.stating m)

end Db

/-! ### Moves -/

variable {g : Engine σ W K R C Resp E} {program : ι → Prog C Resp E ε α} {P : Db ι C Resp E ε α σ W}
  {s s' : σ} {t : Session ι C Resp E ε α W} {k : K}

/-- The rows that a transaction has not written are as they are committed. -/
theorem row_foldr {writes : List W} (h : k ∉ writes.map g.key) :
    g.row (writes.foldr g.apply s) k = g.row s k := by
  induction writes with
  | nil => rfl
  | cons w writes ih =>
    simp only [List.map_cons, List.mem_cons, not_or] at h
    rw [List.foldr_cons, g.row_apply _ _ _ h.1, ih h.2]

theorem row_view (h : k ∉ t.writes.map g.key) : g.row (t.view g s) k = g.row s k := row_foldr h

theorem not_holds_closed : ¬ t.closed.Holds g k := fun h => nomatch h.1

theorem holds_after {c : C} {f : Except E (Resp c) → Prog C Resp E ε α} (hopen : t.isOpen = true)
    (h : (t.after g s c f).Holds g k) : t.Holds g k ∨ g.waits c (t.view g s) = some k := by
  obtain ⟨-, hk⟩ := h
  simp only [Session.after, List.map_append, List.mem_append] at hk
  rcases hk with hk | hk
  · obtain ⟨w, hw, rfl⟩ := List.mem_map.mp hk
    exact .inr (g.waits_exec c _ w (Option.mem_toList.mp hw))
  · exact .inl ⟨hopen, hk⟩

/-- No two open transactions have written one row. -/
def Exclusive (g : Engine σ W K R C Resp E) (P : Db ι C Resp E ε α σ W) : Prop :=
  ∀ (n m : ℕ) (t u : Session ι C Resp E ε α W) (k : K), n ≠ m → P.sessions[n]? = some t →
    P.sessions[m]? = some u → t.Holds g k → ¬ u.Holds g k

/-- The transactions after one of them has changed. -/
theorem getElem?_set_iff {l : List (Session ι C Resp E ε α W)} {n j : ℕ}
    {u : Session ι C Resp E ε α W} (hn : l[n]? = some t) {t' : Session ι C Resp E ε α W} :
    (l.set n t')[j]? = some u ↔ j = n ∧ u = t' ∨ j ≠ n ∧ l[j]? = some u := by
  have hlt : n < l.length := (List.getElem?_eq_some_iff.mp hn).1
  by_cases hj : j = n
  · subst hj
    rw [List.getElem?_set_self hlt]
    simp [eq_comm]
  · rw [List.getElem?_set_ne (Ne.symm hj)]
    simp [hj]

theorem getElem?_append_iff {l : List (Session ι C Resp E ε α W)} {j : ℕ}
    {u : Session ι C Resp E ε α W} :
    (l ++ [t])[j]? = some u ↔ l[j]? = some u ∨ j = l.length ∧ u = t := by
  rcases Nat.lt_trichotomy j l.length with hj | rfl | hj
  · have hne : j ≠ l.length := Nat.ne_of_lt hj
    rw [List.getElem?_append_left hj]
    simp [hne]
  · simp [eq_comm]
  · have hnone : (l ++ [t])[j]? = none := List.getElem?_eq_none (by simp; omega)
    have hnone' : l[j]? = none := List.getElem?_eq_none (by omega)
    have hne : j ≠ l.length := (Nat.ne_of_lt hj).symm
    rw [hnone, hnone']
    simp [hne]

/-- What a move can do. -/
inductive Moves (g : Engine σ W K R C Resp E) (program : ι → Prog C Resp E ε α)
    (P : Db ι C Resp E ε α σ W) : TxMove ι → Db ι C Resp E ε α σ W → Prop where
  | nothing {m} : Moves g program P m P
  | start (op : ι) : Moves g program P (.start op)
      { P with sessions := P.sessions ++ [⟨op, program op, [], [], true⟩] }
  | statement {n t c k} (thread : P.sessions[n]? = some t) (rest : t.rest = .call c k)
      (isOpen : t.isOpen = true) (stating : P.stating (.statement n) = some (t, c))
      (free : Free g P n (g.waits c (t.view g P.store))) :
      Moves g program P (.statement n)
        { P with sessions := P.sessions.set n (t.after g P.store c k) }
  | commit {n t a} (thread : P.sessions[n]? = some t) (rest : t.rest = .ret a)
      (isOpen : t.isOpen = true) :
      Moves g program P (.commit n) ⟨t.view g P.store, P.sessions.set n t.closed⟩
  | rollback {n t} (thread : P.sessions[n]? = some t) :
      Moves g program P (.rollback n) { P with sessions := P.sessions.set n t.closed }

theorem next_moves [DecidableEq K] (g : Engine σ W K R C Resp E) (program : ι → Prog C Resp E ε α)
    (P : Db ι C Resp E ε α σ W) (m : TxMove ι) : Moves g program P m (P.next g program m) := by
  cases m with
  | start op => exact .start op
  | statement n =>
    simp only [Db.next]
    split
    · next op c k writes seen hn =>
      split_ifs with hfree
      · exact .statement hn rfl rfl (by simp only [Db.stating, hn]) hfree
      · exact .nothing
    · exact .nothing
  | commit n =>
    simp only [Db.next]
    split
    · next op a writes seen hn => exact .commit hn rfl rfl
    · exact .nothing
  | rollback n =>
    simp only [Db.next]
    split
    · next t hn => exact .rollback hn
    · exact .nothing

/-- A transaction that has changed holds no row that another holds. -/
theorem exclusive_set {n : ℕ} {t' : Session ι C Resp E ε α W} (h : Exclusive g P)
    (hn : P.sessions[n]? = some t)
    (hfree : ∀ m u k, m ≠ n → P.sessions[m]? = some u → t'.Holds g k → ¬ u.Holds g k) (s : σ) :
    Exclusive g ⟨s, P.sessions.set n t'⟩ := by
  intro i j u v k hij hi hj hu hv
  rcases (getElem?_set_iff hn).mp hi with ⟨rfl, rfl⟩ | ⟨hin, hiu⟩
  · rcases (getElem?_set_iff hn).mp hj with ⟨rfl, -⟩ | ⟨hjn, hjv⟩
    · exact hij rfl
    · exact hfree j v k hjn hjv hu hv
  · rcases (getElem?_set_iff hn).mp hj with ⟨rfl, rfl⟩ | ⟨hjn, hjv⟩
    · exact hfree i u k hin hiu hv hu
    · exact h i j u v k hij hiu hjv hu hv

theorem exclusive_next [DecidableEq K] (program : ι → Prog C Resp E ε α) (h : Exclusive g P)
    (m : TxMove ι) : Exclusive g (P.next g program m) := by
  have hmoves := next_moves g program P m
  generalize P.next g program m = P' at hmoves ⊢
  cases hmoves with
  | nothing => exact h
  | start op =>
    intro i j u v k hij hi hj hu hv
    have hnew : ¬ (⟨op, program op, [], [], true⟩ : Session ι C Resp E ε α W).Holds g k :=
      fun hk => nomatch hk.2
    rcases getElem?_append_iff.mp hi with hi | ⟨-, rfl⟩
    · rcases getElem?_append_iff.mp hj with hj | ⟨-, rfl⟩
      · exact h i j u v k hij hi hj hu hv
      · exact hnew hv
    · exact hnew hu
  | @statement n t c f thread rest isOpen stating free =>
    refine exclusive_set h thread (fun m u k hm hu ht' hk => ?_) P.store
    rcases holds_after isOpen ht' with ht | hwaits
    · exact h n m t u k (Ne.symm hm) thread hu ht hk
    · exact free k hwaits (u, m) (List.mem_zipIdx_iff_getElem?.mpr hu) hm hk
  | commit thread rest isOpen =>
    exact exclusive_set h thread (fun m u k hm hu ht' => absurd ht' not_holds_closed) _
  | rollback thread =>
    exact exclusive_set h thread (fun m u k hm hu ht' => absurd ht' not_holds_closed) P.store

/-! ### Runs -/

section Rules

variable [DecidableEq K]

/-- What makes `S` hold of the open transactions and `G` of the committed store:
`S` is made by the transaction's own statements and rests on the rows it has
written and on what every commit keeps (`Kept`), and a transaction of which `S`
holds keeps `G` when it commits. -/
structure SessionRules (g : Engine σ W K R C Resp E) (program : ι → Prog C Resp E ε α)
    (guard : Db ι C Resp E ε α σ W → TxMove ι → Prop) (G : σ → Prop) (Kept : σ → σ → Prop)
    (S : σ → Session ι C Resp E ε α W → Prop) : Prop where
  start : ∀ s op, G s → S s ⟨op, program op, [], [], true⟩
  statement : ∀ P n t c k, guard P (.statement n) → P.stating (.statement n) = some (t, c) →
    t.rest = .call c k → t.isOpen = true → G P.store → S P.store t →
      S P.store (t.after g P.store c k)
  stable : ∀ s s' t, S s t → (∀ k ∈ t.writes.map g.key, g.row s' k = g.row s k) → Kept s s' → S s' t
  commit : ∀ s t a, t.rest = .ret a → t.isOpen = true → G s → S s t →
    G (t.view g s) ∧ Kept s (t.view g s)

variable {guard : Db ι C Resp E ε α σ W → TxMove ι → Prop} {G : σ → Prop} {Kept : σ → σ → Prop}
  {S : σ → Session ι C Resp E ε α W → Prop} {init : Db ι C Resp E ε α σ W → Prop}

/-- What holds of a run: of what is committed, and of the transactions that are
open. -/
structure SessionsHold (g : Engine σ W K R C Resp E) (G : σ → Prop)
    (S : σ → Session ι C Resp E ε α W → Prop) (P : Db ι C Resp E ε α σ W) : Prop where
  exclusive : Exclusive g P
  store : G P.store
  sessions : ∀ (n : ℕ) (t : Session ι C Resp E ε α W), P.sessions[n]? = some t →
    t.isOpen = true → S P.store t

/-- **One move.** -/
theorem SessionsHold.next (hR : SessionRules g program guard G Kept S) (h : SessionsHold g G S P)
    {m : TxMove ι} (hg : guard P m) : SessionsHold g G S (P.next g program m) := by
  have hexclusive := exclusive_next program h.exclusive m
  have hmoves := next_moves g program P m
  generalize P.next g program m = P' at hmoves hexclusive ⊢
  cases hmoves with
  | nothing => exact h
  | start op =>
    refine ⟨hexclusive, h.store, fun j u hj hopen => ?_⟩
    rcases getElem?_append_iff.mp hj with hj | ⟨-, rfl⟩
    · exact h.sessions j u hj hopen
    · exact hR.start _ op h.store
  | @statement n t c f thread rest isOpen stating free =>
    refine ⟨hexclusive, h.store, fun j u hj hopen => ?_⟩
    rcases (getElem?_set_iff thread).mp hj with ⟨-, rfl⟩ | ⟨-, hj⟩
    · exact hR.statement P n t c f hg stating rest isOpen h.store (h.sessions n t thread isOpen)
    · exact h.sessions j u hj hopen
  | @commit n t a thread rest isOpen =>
    obtain ⟨hstore, hkept⟩ := hR.commit P.store t a rest isOpen h.store (h.sessions n t thread isOpen)
    refine ⟨hexclusive, hstore, fun j u hj hopen => ?_⟩
    rcases (getElem?_set_iff thread).mp hj with ⟨-, rfl⟩ | ⟨hne, hj⟩
    · cases hopen
    -- the rows that another open transaction has written are none of those committed now
    · refine hR.stable _ _ u (h.sessions j u hj hopen) (fun k hk => row_view fun hmem => ?_) hkept
      exact h.exclusive n j t u k (Ne.symm hne) thread hj ⟨isOpen, hmem⟩ ⟨hopen, hk⟩
  | @rollback n t thread =>
    refine ⟨hexclusive, h.store, fun j u hj hopen => ?_⟩
    rcases (getElem?_set_iff thread).mp hj with ⟨-, rfl⟩ | ⟨-, hj⟩
    · cases hopen
    · exact h.sessions j u hj hopen

/-- **Sessions.** What the rules make of the open transactions and of the
committed store holds in every state of a run. -/
theorem sessions_run (hR : SessionRules g program guard G Kept S)
    (hinit : ∀ P, init P → G P.store ∧ P.sessions = [])
    (h : Reach init (Db.next g program) guard P) : SessionsHold g G S P := by
  refine h.invariant (I := SessionsHold g G S) ?_ ?_
  · intro P hP
    obtain ⟨hG, hnone⟩ := hinit P hP
    refine ⟨fun n m t u k _ hn => ?_, hG, fun n t hn => ?_⟩
    · rw [hnone] at hn
      cases hn
    · rw [hnone] at hn
      cases hn
  · exact fun P m hP hg => hP.next hR hg

end Rules

end Transaction
end Lib
