/-
# Rows numbered one after the other

Calls insert rows into a table under UNIQUE (key, number). Each makes one
statement, which reads the highest number of its key in its snapshot and
inserts a row with the next one. Between the two other calls may insert and
commit: the insertion waits for a row with the same number that is not yet
committed and fails if there is one that is (`insert`).

If a call takes its snapshot only while no other of its key is under way
(`Alone`), no call fails because of another one and the rows of a key get
consecutive numbers (`numbered_run`). A lock that is taken before the statement
and held until the end sees to that in every run (`alone_locked`); without it
that is up to the callers.

Key definitions: `Scheme`, `Stage`, `Db`, `next`, `Alone`, `top`, `numbers`.
Key theorems: `numbered_run`, `alone_locked`, `added_run`.
-/
import Mathlib.Data.List.Basic
import Mathlib.Algebra.Order.Group.Int
import Gitdot.Lib.Reach

namespace Lib
namespace Numbering

/-- What calls ask for, and the rows they insert. -/
structure Scheme (Q R K : Type) where
  keyOf : Q → K
  row : Q → ℤ → R
  key : R → K
  number : R → ℤ
  key_row : ∀ q n, key (row q n) = keyOf q
  number_row : ∀ q n, number (row q n) = n

/-- Why a call failed: the table has a row with its number, the next number is
no `INTEGER`, or for a reason of its own. -/
inductive Failure where
  | uniqueViolation
  | outOfRange
  | aborted
  deriving DecidableEq

/-- How far a call is. -/
inductive Stage where
  | waiting
  | locked
  | drawn (number : ℤ)
  | inserted (number : ℤ)
  | committed (number : ℤ)
  | failed (why : Failure)
  deriving DecidableEq

structure Call (Q : Type) where
  asks : Q
  stage : Stage
  deriving DecidableEq

/-- The committed rows, and the calls in the order in which they came. -/
structure Db (Q R : Type) where
  rows : List R
  calls : List (Call Q)
  deriving DecidableEq

/-- A call comes, takes the lock, takes its snapshot, inserts its row, commits,
or fails for a reason of its own. -/
inductive Move (Q : Type) where
  | start (asks : Q)
  | lock (number : ℕ)
  | draw (number : ℕ)
  | insert (number : ℕ)
  | commit (number : ℕ)
  | abort (number : ℕ)
  deriving DecidableEq

/-- The number that the call has, from its snapshot until it ends. -/
def Stage.number? : Stage → Option ℤ
  | .drawn m => some m
  | .inserted m => some m
  | _ => none

/-- The call has its lock. -/
def Stage.holds : Stage → Bool
  | .locked => true
  | .drawn _ => true
  | .inserted _ => true
  | _ => false

def Stage.isOpen : Stage → Bool
  | .committed _ => false
  | .failed _ => false
  | _ => true

/-- The stage in which a call takes its snapshot. -/
def ready {K L : Type} (lock : Option (K → L)) : Stage :=
  if lock.isSome then .locked else .waiting

section Scheme

variable {Q R K L : Type} [DecidableEq K] [DecidableEq L] (g : Scheme Q R K)

/-- The numbers of a key, in the order in which their rows were committed. -/
def numbers (k : K) (rows : List R) : List ℤ := (rows.filter fun r => g.key r = k).map g.number

/-- `COALESCE(MAX(number), 0)`. -/
def top (k : K) (rows : List R) : ℤ := (numbers g k rows).max?.getD 0

/-- The largest `INTEGER`. -/
def maxNumber : ℤ := 2 ^ 31 - 1

/-- Where a call goes when it takes its snapshot of the rows. -/
def drawFrom (rows : List R) (k : K) : Stage :=
  if top g k rows + 1 ≤ maxNumber then .drawn (top g k rows + 1) else .failed .outOfRange

/-- Whether another call holds the lock. -/
def Db.lockHeld (P : Db Q R) (lock : K → L) (l : L) : Bool :=
  P.calls.any fun c => c.stage.holds && decide (lock (g.keyOf c.asks) = l)

/-- Whether another call has inserted a row with the number that is not
committed yet. -/
def Db.pending (P : Db Q R) (k : K) (m : ℤ) : Bool :=
  P.calls.any fun c => decide (c.stage = .inserted m) && decide (g.keyOf c.asks = k)

def Db.set (P : Db Q R) (n : ℕ) (c : Call Q) (stage : Stage) : Db Q R :=
  { P with calls := P.calls.set n { c with stage := stage } }

/-- The database after a move. With a lock a call takes its snapshot only when it
has it; what has to wait does nothing yet. -/
def next (lock : Option (K → L)) : Move Q → Db Q R → Db Q R
  | .start q, P => { P with calls := P.calls ++ [⟨q, .waiting⟩] }
  | .lock n, P =>
    match lock, P.calls[n]? with
    | some l, some ⟨q, .waiting⟩ =>
      if P.lockHeld g l (l (g.keyOf q)) then P else P.set n ⟨q, .waiting⟩ .locked
    | _, _ => P
  | .draw n, P =>
    match P.calls[n]? with
    | some ⟨q, stage⟩ =>
      if stage = ready lock then
        P.set n ⟨q, stage⟩ (drawFrom g P.rows (g.keyOf q))
      else P
    | none => P
  | .insert n, P =>
    match P.calls[n]? with
    | some ⟨q, .drawn m⟩ =>
      if P.pending g (g.keyOf q) m then P
      else if m ∈ numbers g (g.keyOf q) P.rows then
        P.set n ⟨q, .drawn m⟩ (.failed .uniqueViolation)
      else P.set n ⟨q, .drawn m⟩ (.inserted m)
    | _ => P
  | .commit n, P =>
    match P.calls[n]? with
    | some ⟨q, .inserted m⟩ =>
      { P.set n ⟨q, .inserted m⟩ (.committed m) with rows := P.rows ++ [g.row q m] }
    | _ => P
  | .abort n, P =>
    match P.calls[n]? with
    | some c => if c.stage.isOpen then P.set n c (.failed .aborted) else P
    | none => P

/-- No other call of its key is between its snapshot and its end when a call
takes its snapshot. -/
def Alone (lock : Option (K → L)) (P : Db Q R) : Move Q → Prop
  | .draw n =>
    ∀ c ∈ P.calls[n]?, c.stage = ready lock →
      P.calls.all fun c' => c'.stage.number?.isNone || decide (g.keyOf c'.asks ≠ g.keyOf c.asks)
  | _ => True

end Scheme

/-! ### What a move does -/

section Effect

variable {Q R K L : Type} [DecidableEq K] [DecidableEq L] {g : Scheme Q R K} {lock : Option (K → L)}
  {P : Db Q R}

variable (g lock P) in
/-- All that a move can do. -/
inductive Effect : Move Q → Db Q R → Prop where
  | same (m : Move Q) : Effect m P
  | start (q : Q) : Effect (.start q) { P with calls := P.calls ++ [⟨q, .waiting⟩] }
  | lock {l : K → L} {n : ℕ} {q : Q} (hlock : lock = some l) (hc : P.calls[n]? = some ⟨q, .waiting⟩)
      (hfree : P.lockHeld g l (l (g.keyOf q)) = false) :
      Effect (.lock n) (P.set n ⟨q, .waiting⟩ .locked)
  | draw {n : ℕ} {q : Q} (hc : P.calls[n]? = some ⟨q, ready lock⟩) :
      Effect (.draw n) (P.set n ⟨q, ready lock⟩ (drawFrom g P.rows (g.keyOf q)))
  | violate {n : ℕ} {q : Q} {m : ℤ} (hc : P.calls[n]? = some ⟨q, .drawn m⟩)
      (hm : m ∈ numbers g (g.keyOf q) P.rows) :
      Effect (.insert n) (P.set n ⟨q, .drawn m⟩ (.failed .uniqueViolation))
  | insert {n : ℕ} {q : Q} {m : ℤ} (hc : P.calls[n]? = some ⟨q, .drawn m⟩)
      (hm : m ∉ numbers g (g.keyOf q) P.rows) :
      Effect (.insert n) (P.set n ⟨q, .drawn m⟩ (.inserted m))
  | commit {n : ℕ} {q : Q} {m : ℤ} (hc : P.calls[n]? = some ⟨q, .inserted m⟩) :
      Effect (.commit n)
        { P.set n ⟨q, .inserted m⟩ (.committed m) with rows := P.rows ++ [g.row q m] }
  | abort {n : ℕ} {c : Call Q} (hc : P.calls[n]? = some c) (hopen : c.stage.isOpen = true) :
      Effect (.abort n) (P.set n c (.failed .aborted))

theorem next_effect (g : Scheme Q R K) (lock : Option (K → L)) (m : Move Q) (P : Db Q R) :
    Effect g lock P m (next g lock m P) := by
  cases m with
  | start q => exact .start q
  | lock n =>
    simp only [next]
    split
    · next l q hc =>
      split_ifs with hheld
      · exact .same _
      · exact .lock rfl hc (by simpa using hheld)
    · exact .same _
  | draw n =>
    simp only [next]
    split
    · next q stage hc =>
      split_ifs with hstage
      · subst hstage
        exact .draw hc
      · exact .same _
    · exact .same _
  | insert n =>
    simp only [next]
    split
    · next q m hc =>
      split_ifs with hpending hm
      · exact .same _
      · exact .violate hc hm
      · exact .insert hc hm
    · exact .same _
  | commit n =>
    simp only [next]
    split
    · next hc => exact .commit hc
    · exact .same _
  | abort n =>
    simp only [next]
    split
    · next c hc =>
      split_ifs with hopen
      · exact .abort hc hopen
      · exact .same _
    · exact .same _

end Effect

/-! ### Numbers -/

section Numbers

variable {Q R K : Type} [DecidableEq K] {g : Scheme Q R K} {rows : List R} {k : K} {q : Q}

@[simp] theorem numbers_append (rows rows' : List R) :
    numbers g k (rows ++ rows') = numbers g k rows ++ numbers g k rows' := by
  simp [numbers]

theorem numbers_row (k : K) (q : Q) (m : ℤ) :
    numbers g k [g.row q m] = if g.keyOf q = k then [m] else [] := by
  unfold numbers
  rw [List.filter_cons, g.key_row]
  split_ifs with hk hk' hk'
  · rw [List.filter_nil, List.map_singleton, g.number_row]
  · simp [hk'] at hk
  · simp [hk'] at hk
  · rfl

theorem le_top {m : ℤ} (h : m ∈ numbers g k rows) : m ≤ top g k rows := by
  unfold top
  rcases hmax : (numbers g k rows).max? with _ | t
  · rw [List.max?_eq_none_iff.mp hmax] at h
    cases h
  · exact (List.max?_eq_some_iff.mp hmax).2 m h

/-- A row with the next number is the new top of its key. -/
theorem top_concat (g : Scheme Q R K) (rows : List R) (q : Q) :
    top g (g.keyOf q) (rows ++ [g.row q (top g (g.keyOf q) rows + 1)]) =
      top g (g.keyOf q) rows + 1 := by
  have hmax : (numbers g (g.keyOf q) (rows ++ [g.row q (top g (g.keyOf q) rows + 1)])).max? =
      some (top g (g.keyOf q) rows + 1) := by
    rw [numbers_append, numbers_row, if_pos rfl]
    refine List.max?_eq_some_iff.mpr ⟨by simp, fun b hb => ?_⟩
    rcases List.mem_append.mp hb with hb | hb
    · have := le_top hb
      omega
    · rw [List.mem_singleton.mp hb]
  rw [top, hmax, Option.getD_some]

theorem top_congr {rows rows' : List R} (h : numbers g k rows = numbers g k rows') :
    top g k rows = top g k rows' := by
  rw [top, top, h]

/-- A row of another key changes neither. -/
theorem numbers_concat_of_ne (hk : g.keyOf q ≠ k) (m : ℤ) :
    numbers g k (rows ++ [g.row q m]) = numbers g k rows := by
  rw [numbers_append, numbers_row, if_neg hk, List.append_nil]

end Numbers

/-! ### Calls that are alone -/

section Run

variable {Q R K L : Type} [DecidableEq K] [DecidableEq L] {g : Scheme Q R K} {lock : Option (K → L)}
  {P : Db Q R} {rows : List R}

/-- A call behind a step is the one that has moved on, or as it was. -/
theorem Db.of_getElem?_set {n i : ℕ} {c d : Call Q} {stage : Stage}
    (hd : (P.set n c stage).calls[i]? = some d) :
    i = n ∧ d = { c with stage := stage } ∨ P.calls[i]? = some d := by
  simp only [Db.set, List.getElem?_set] at hd
  split_ifs at hd with hi
  · exact .inl ⟨hi.symm, (Option.some.inj hd).symm⟩
  · exact .inr hd

variable (g) in
/-- The rows of each key were numbered one after the other, starting from
`base`: at most one call of a key has a number, which is the next one, and none
has been refused its number. -/
structure Numbered (base : List R) (P : Db Q R) : Prop where
  one : ∀ (i j : ℕ) (c c' : Call Q) (m m' : ℤ), P.calls[i]? = some c → P.calls[j]? = some c' →
    c.stage.number? = some m → c'.stage.number? = some m' → g.keyOf c.asks = g.keyOf c'.asks → i = j
  nextOne : ∀ c ∈ P.calls, ∀ m ∈ c.stage.number?, m = top g (g.keyOf c.asks) P.rows + 1
  rows : ∀ k, ∃ count : ℕ, top g k P.rows = top g k base + count ∧ numbers g k P.rows =
    numbers g k base ++ (List.range count).map fun i : ℕ => top g k base + 1 + (i : ℤ)
  fine : ∀ c ∈ P.calls, c.stage ≠ .failed .uniqueViolation

theorem numbered_start (base : List R) : Numbered g base (⟨base, []⟩ : Db Q R) where
  one i _ _ _ _ _ hi := by simp at hi
  nextOne _ hc := absurd hc List.not_mem_nil
  rows k := ⟨0, by simp, by simp⟩
  fine _ hc := absurd hc List.not_mem_nil

/-- A call that gets no number that it did not have. -/
theorem Numbered.set {base : List R} (h : Numbered g base P) {n : ℕ} {c : Call Q} (stage : Stage)
    (hc : P.calls[n]? = some c) (hnumber : ∀ m ∈ stage.number?, c.stage.number? = some m)
    (hfine : stage ≠ .failed .uniqueViolation) : Numbered g base (P.set n c stage) := by
  have hget : ∀ (i : ℕ) (d : Call Q) (m : ℤ), (P.set n c stage).calls[i]? = some d →
      d.stage.number? = some m →
      ∃ d', P.calls[i]? = some d' ∧ d'.asks = d.asks ∧ d'.stage.number? = some m := by
    intro i d m hd hm
    rcases Db.of_getElem?_set hd with ⟨rfl, rfl⟩ | hd
    · exact ⟨c, hc, rfl, hnumber m hm⟩
    · exact ⟨d, hd, rfl, hm⟩
  refine ⟨?_, ?_, h.rows, ?_⟩
  · intro i j d d' m m' hd hd' hm hm' hkey
    obtain ⟨e, he, hask, hem⟩ := hget i d m hd hm
    obtain ⟨e', he', hask', hem'⟩ := hget j d' m' hd' hm'
    exact h.one i j e e' m m' he he' hem hem' (by rw [hask, hask', hkey])
  · intro d hd m hm
    obtain ⟨i, hi⟩ := List.getElem?_of_mem hd
    obtain ⟨e, he, hask, hem⟩ := hget i d m hi hm
    rw [← hask]
    exact h.nextOne e (List.mem_of_getElem? he) m hem
  · intro d hd
    rcases List.mem_or_eq_of_mem_set hd with hd | rfl
    · exact h.fine d hd
    · exact hfine

/-- A call that is alone draws the next number. -/
theorem Numbered.draw {base : List R} (h : Numbered g base P) {n : ℕ} {q : Q} {stage : Stage}
    (halone : ∀ c ∈ P.calls, ∀ m, c.stage.number? = some m → g.keyOf c.asks ≠ g.keyOf q) :
    Numbered g base (P.set n ⟨q, stage⟩ (.drawn (top g (g.keyOf q) P.rows + 1))) := by
  have hget : ∀ (i : ℕ) (d : Call Q) (m : ℤ),
      (P.set n ⟨q, stage⟩ (.drawn (top g (g.keyOf q) P.rows + 1))).calls[i]? = some d →
      d.stage.number? = some m →
      (i = n ∧ d.asks = q ∧ m = top g (g.keyOf q) P.rows + 1) ∨
        (P.calls[i]? = some d ∧ g.keyOf d.asks ≠ g.keyOf q) := by
    intro i d m hd hm
    rcases Db.of_getElem?_set hd with ⟨hi, rfl⟩ | hd
    · exact .inl ⟨hi, rfl, (Option.some.inj hm).symm⟩
    · exact .inr ⟨hd, halone d (List.mem_of_getElem? hd) m hm⟩
  refine ⟨?_, ?_, h.rows, ?_⟩
  · intro i j d d' m m' hd hd' hm hm' hkey
    rcases hget i d m hd hm with ⟨hi, hask, -⟩ | ⟨he, hne⟩
    · rcases hget j d' m' hd' hm' with ⟨hj, -, -⟩ | ⟨-, hne'⟩
      · rw [hi, hj]
      · exact absurd (by rw [← hkey, hask]) hne'
    · rcases hget j d' m' hd' hm' with ⟨-, hask', -⟩ | ⟨he', -⟩
      · exact absurd (by rw [hkey, hask']) hne
      · exact h.one i j d d' m m' he he' hm hm' hkey
  · intro d hd m hm
    obtain ⟨i, hi⟩ := List.getElem?_of_mem hd
    rcases hget i d m hi hm with ⟨-, hask, hnumber⟩ | ⟨he, -⟩
    · rw [hask]
      exact hnumber
    · exact h.nextOne d (List.mem_of_getElem? he) m hm
  · intro d hd
    rcases List.mem_or_eq_of_mem_set hd with hd | rfl
    · exact h.fine d hd
    · exact fun h => by cases h

/-- The row of a call that commits is the next one of its key. -/
theorem Numbered.commit {base : List R} (h : Numbered g base P) {n : ℕ} {q : Q} {m : ℤ}
    (hc : P.calls[n]? = some ⟨q, .inserted m⟩) :
    Numbered g base
      { P.set n ⟨q, .inserted m⟩ (.committed m) with rows := P.rows ++ [g.row q m] } := by
  obtain rfl : m = top g (g.keyOf q) P.rows + 1 := h.nextOne _ (List.mem_of_getElem? hc) m rfl
  have hset := h.set (.committed (top g (g.keyOf q) P.rows + 1)) hc
    (fun _ hm => by cases hm) (fun h => by cases h)
  refine ⟨hset.one, ?_, ?_, hset.fine⟩
  · -- a call with a number is of another key, whose rows are the same
    intro d hd m hm
    obtain ⟨j, hj⟩ := List.getElem?_of_mem hd
    have hne : g.keyOf q ≠ g.keyOf d.asks := by
      intro hkey
      simp only [Db.set, List.getElem?_set] at hj
      split_ifs at hj with hi
      · obtain rfl := Option.some.inj hj
        cases hm
      · exact hi (h.one n j _ d _ m hc hj rfl hm hkey)
    rw [hset.nextOne d hd m hm]
    exact congrArg (· + 1) (top_congr (numbers_concat_of_ne hne _).symm)
  · intro k
    obtain ⟨count, htop, hnumbers⟩ := h.rows k
    by_cases hk : g.keyOf q = k
    · subst hk
      refine ⟨count + 1, ?_, ?_⟩
      · dsimp only
        rw [top_concat, htop]
        omega
      · dsimp only
        rw [numbers_append, numbers_row, if_pos rfl, hnumbers, List.range_succ, List.map_append,
          List.map_singleton, List.append_assoc, htop]
        congr 3
        omega
    · refine ⟨count, ?_, ?_⟩
      · dsimp only
        rw [top_congr (numbers_concat_of_ne hk _), htop]
      · dsimp only
        rw [numbers_concat_of_ne hk, hnumbers]

/-- **A move.** -/
theorem numbered_next {base : List R} (h : Numbered g base P) {m : Move Q}
    (hm : Alone g lock P m) : Numbered g base (next g lock m P) := by
  have heffect := next_effect g lock m P
  generalize next g lock m P = P' at heffect ⊢
  cases heffect with
  | same => exact h
  | start q =>
    have hget : ∀ (i : ℕ) (d : Call Q) (m : ℤ), (P.calls ++ [⟨q, .waiting⟩])[i]? = some d →
        d.stage.number? = some m → P.calls[i]? = some d := by
      intro i d m hd hm
      rcases List.mem_append.mp (List.mem_of_getElem? hd) with _ | hnew
      · rw [List.getElem?_append] at hd
        split_ifs at hd with hi
        · exact hd
        · rw [List.getElem?_singleton] at hd
          split_ifs at hd
          obtain rfl := Option.some.inj hd
          cases hm
      · rw [List.mem_singleton.mp hnew] at hm
        cases hm
    refine ⟨?_, ?_, h.rows, ?_⟩
    · intro i j d d' m m' hd hd' hm hm' hkey
      exact h.one i j d d' m m' (hget i d m hd hm) (hget j d' m' hd' hm') hm hm' hkey
    · intro d hd m hm
      obtain ⟨i, hi⟩ := List.getElem?_of_mem hd
      exact h.nextOne d (List.mem_of_getElem? (hget i d m hi hm)) m hm
    · intro d hd
      rcases List.mem_append.mp hd with hd | hd
      · exact h.fine d hd
      · rw [List.mem_singleton.mp hd]
        exact fun h => by cases h
  | lock _ hc _ => exact h.set _ hc (fun _ hm => by cases hm) fun h => by cases h
  | @draw n q hc =>
    have halone : ∀ c ∈ P.calls, ∀ m, c.stage.number? = some m → g.keyOf c.asks ≠ g.keyOf q := by
      intro c hmem m hnumber
      have hall := List.all_eq_true.mp (hm _ hc rfl) c hmem
      simpa [hnumber] using hall
    unfold drawFrom
    split_ifs with hmax
    · exact h.draw halone
    · exact h.set _ hc (fun _ hm => by cases hm) fun h => by cases h
  | @violate n q m hc hmem =>
    -- no row has the next number
    have hle := le_top hmem
    have hnext := h.nextOne _ (List.mem_of_getElem? hc) m rfl
    dsimp only at hnext
    omega
  | insert hc _ => exact h.set _ hc (fun _ hm => hm) fun h => by cases h
  | commit hc => exact h.commit hc
  | abort hc _ => exact h.set _ hc (fun _ hm => by cases hm) fun h => by cases h

/-- **Consecutive numbers.** If each call is alone when it takes its snapshot, no
call is refused its number, and the numbers of a key go on from those of the
rows that were there. -/
theorem numbered_run (h : Reach (fun P => P = ⟨rows, []⟩) (next g lock) (Alone g lock) P) :
    Numbered g rows P := by
  refine h.invariant (fun P hP => ?_) fun P m hP hm => numbered_next hP hm
  rw [hP]
  exact numbered_start rows

end Run

/-! ### The lock -/

section Locked

variable {Q R K L : Type} [DecidableEq K] [DecidableEq L] {g : Scheme Q R K} {lock : K → L}
  {P : Db Q R} {rows : List R}

variable (g lock) in
/-- No two calls hold one lock. -/
def Exclusive (P : Db Q R) : Prop :=
  ∀ (i j : ℕ) (c c' : Call Q), P.calls[i]? = some c → P.calls[j]? = some c' →
    c.stage.holds = true → c'.stage.holds = true →
    lock (g.keyOf c.asks) = lock (g.keyOf c'.asks) → i = j

theorem Stage.holds_of_number? {s : Stage} {m : ℤ} (h : s.number? = some m) : s.holds = true := by
  cases s with
  | drawn | inserted => rfl
  | waiting | locked | committed | failed => cases h

omit [DecidableEq K] [DecidableEq L] in
/-- A call that takes no lock. -/
theorem Exclusive.set (h : Exclusive g lock P) {n : ℕ} {c : Call Q} {stage : Stage}
    (hc : P.calls[n]? = some c) (hholds : stage.holds = true → c.stage.holds = true) :
    Exclusive g lock (P.set n c stage) := by
  have hget : ∀ (i : ℕ) (d : Call Q), (P.set n c stage).calls[i]? = some d → d.stage.holds = true →
      ∃ d', P.calls[i]? = some d' ∧ d'.asks = d.asks ∧ d'.stage.holds = true := by
    intro i d hd hheld
    rcases Db.of_getElem?_set hd with ⟨rfl, rfl⟩ | hd
    · exact ⟨c, hc, rfl, hholds hheld⟩
    · exact ⟨d, hd, rfl, hheld⟩
  intro i j d d' hd hd' hheld hheld' hlock
  obtain ⟨e, he, hask, heheld⟩ := hget i d hd hheld
  obtain ⟨e', he', hask', heheld'⟩ := hget j d' hd' hheld'
  exact h i j e e' he he' heheld heheld' (by rw [hask, hask', hlock])

omit [DecidableEq K] in
/-- A call that takes a lock that no other holds. -/
theorem Exclusive.take (h : Exclusive g lock P) {n : ℕ} {q : Q}
    (hfree : P.lockHeld g lock (lock (g.keyOf q)) = false) :
    Exclusive g lock (P.set n ⟨q, .waiting⟩ .locked) := by
  have hothers : ∀ c ∈ P.calls, c.stage.holds = true → lock (g.keyOf c.asks) ≠ lock (g.keyOf q) := by
    intro c hc hheld heq
    have hno := List.any_eq_false.mp hfree c hc
    simp [hheld, heq] at hno
  have hget : ∀ (i : ℕ) (d : Call Q), (P.set n ⟨q, .waiting⟩ .locked).calls[i]? = some d →
      d.stage.holds = true →
      (i = n ∧ d.asks = q) ∨ (P.calls[i]? = some d ∧ lock (g.keyOf d.asks) ≠ lock (g.keyOf q)) := by
    intro i d hd hheld
    rcases Db.of_getElem?_set hd with ⟨hi, rfl⟩ | hd
    · exact .inl ⟨hi, rfl⟩
    · exact .inr ⟨hd, hothers d (List.mem_of_getElem? hd) hheld⟩
  intro i j d d' hd hd' hheld hheld' hlock
  rcases hget i d hd hheld with ⟨hi, hask⟩ | ⟨he, hne⟩
  · rcases hget j d' hd' hheld' with ⟨hj, -⟩ | ⟨-, hne'⟩
    · rw [hi, hj]
    · exact absurd (by rw [← hlock, hask]) hne'
  · rcases hget j d' hd' hheld' with ⟨-, hask'⟩ | ⟨he', -⟩
    · exact absurd (by rw [hlock, hask']) hne
    · exact h i j d d' he he' hheld hheld' hlock

theorem exclusive_next (h : Exclusive g lock P) (m : Move Q) :
    Exclusive g lock (next g (some lock) m P) := by
  have heffect := next_effect g (some lock) m P
  generalize next g (some lock) m P = P' at heffect ⊢
  cases heffect with
  | same => exact h
  | start q =>
    have hget : ∀ (i : ℕ) (d : Call Q), (P.calls ++ [⟨q, .waiting⟩])[i]? = some d →
        d.stage.holds = true → P.calls[i]? = some d := by
      intro i d hd hheld
      rw [List.getElem?_append] at hd
      split_ifs at hd with hi
      · exact hd
      · rw [List.getElem?_singleton] at hd
        split_ifs at hd
        obtain rfl := Option.some.inj hd
        cases hheld
    intro i j d d' hd hd' hheld hheld' hlock
    exact h i j d d' (hget i d hd hheld) (hget j d' hd' hheld') hheld hheld' hlock
  | lock hlock _ hfree =>
    obtain rfl := Option.some.inj hlock
    exact h.take hfree
  | draw hc => exact h.set hc fun _ => rfl
  | violate hc _ => exact h.set hc fun hholds => by cases hholds
  | insert hc _ => exact h.set hc fun _ => rfl
  | commit hc => exact h.set hc fun hholds => by cases hholds
  | abort hc _ => exact h.set hc fun hholds => by cases hholds

omit [DecidableEq L] in
/-- A call that holds the lock is alone. -/
theorem alone_of_exclusive (h : Exclusive g lock P) (m : Move Q) : Alone g (some lock) P m := by
  cases m with
  | draw n =>
    intro c hc hstage
    refine List.all_eq_true.mpr fun c' hc' => ?_
    rcases hnumber : c'.stage.number? with _ | m
    · rfl
    · obtain ⟨j, hj⟩ := List.getElem?_of_mem hc'
      rw [Bool.or_eq_true, decide_eq_true_eq]
      refine .inr fun hkey => ?_
      have hheld : c.stage.holds = true := by
        rw [hstage]
        rfl
      have hn := h j n c' c hj hc (Stage.holds_of_number? hnumber) hheld (congrArg lock hkey)
      subst hn
      obtain rfl := Option.some.inj (hj.symm.trans hc)
      rw [hstage] at hnumber
      cases hnumber
  | start | lock | insert | commit | abort => trivial

/-- **With a lock** every call is alone, in every run. -/
theorem alone_locked
    (h : Reach (fun P => P = ⟨rows, []⟩) (next g (some lock)) (fun _ _ => True) P) :
    Reach (fun P => P = ⟨rows, []⟩) (next g (some lock)) (Alone g (some lock)) P := by
  have hboth : Reach (fun P => P = ⟨rows, []⟩) (next g (some lock)) (Alone g (some lock)) P ∧
      Exclusive g lock P := by
    induction h with
    | start hP =>
      refine ⟨.start hP, fun i j c c' hi => ?_⟩
      rw [hP] at hi
      simp at hi
    | next m _ _ ih => exact ⟨.next m ih.1 (alone_of_exclusive ih.2 m), exclusive_next ih.2 m⟩
  exact hboth.1

end Locked

/-! ### The rows added -/

section Added

variable {Q R K L : Type} [DecidableEq K] [DecidableEq L] {g : Scheme Q R K} {lock : Option (K → L)}
  {P : Db Q R} {rows : List R}

variable (g) in
/-- The row of a call that has committed. -/
def Call.row? (c : Call Q) : Option R :=
  match c.stage with
  | .committed m => some (g.row c.asks m)
  | _ => none

omit [DecidableEq K] in
/-- The rows of the calls after one of them has moved on. -/
theorem filterMap_set {calls : List (Call Q)} {n : ℕ} {c d : Call Q} (hc : calls[n]? = some c)
    (hnone : c.row? g = none) :
    ((calls.set n d).filterMap (Call.row? g)).Perm
      (calls.filterMap (Call.row? g) ++ (d.row? g).toList) := by
  obtain ⟨hn, hget⟩ := List.getElem?_eq_some_iff.mp hc
  have hsplit : calls = calls.take n ++ c :: calls.drop (n + 1) := by
    rw [← hget, ← List.drop_eq_getElem_cons hn, List.take_append_drop]
  have hset : calls.set n d = calls.take n ++ d :: calls.drop (n + 1) := by
    rw [List.set_eq_take_append_cons_drop, if_pos hn]
  rw [hset, congrArg (List.filterMap (Call.row? g)) hsplit]
  rw [List.filterMap_append, List.filterMap_append, List.filterMap_cons, List.filterMap_cons, hnone,
    List.append_assoc]
  refine List.Perm.append_left _ ?_
  rcases d.row? g with _ | r
  · simp
  · exact (List.perm_append_singleton r _).symm

/-- **The rows.** A run adds the rows of the calls that have committed. -/
theorem added_run (h : Reach (fun P => P = ⟨rows, []⟩) (next g lock) (fun _ _ => True) P) :
    ∃ added, P.rows = rows ++ added ∧ added.Perm (P.calls.filterMap (Call.row? g)) := by
  refine h.invariant (I := fun P => ∃ added, P.rows = rows ++ added ∧
    added.Perm (P.calls.filterMap (Call.row? g))) ?_ ?_
  · rintro P rfl
    exact ⟨[], (List.append_nil _).symm, .refl _⟩
  · rintro P m ⟨added, hrows, hperm⟩ -
    have hquiet : ∀ {n : ℕ} {c : Call Q} {stage : Stage}, P.calls[n]? = some c →
        c.row? g = none → Call.row? g { c with stage := stage } = none →
        ∃ added, (P.set n c stage).rows = rows ++ added ∧
          added.Perm ((P.set n c stage).calls.filterMap (Call.row? g)) := by
      intro n c stage hc hnone hnone'
      have hset := filterMap_set (d := { c with stage := stage }) hc hnone
      rw [hnone', Option.toList_none, List.append_nil] at hset
      exact ⟨added, hrows, hperm.trans hset.symm⟩
    have heffect := next_effect g lock m P
    generalize next g lock m P = P' at heffect ⊢
    cases heffect with
    | same => exact ⟨added, hrows, hperm⟩
    | start q =>
      refine ⟨added, hrows, ?_⟩
      have hnone : [(⟨q, .waiting⟩ : Call Q)].filterMap (Call.row? g) = [] := rfl
      rw [List.filterMap_append, hnone, List.append_nil]
      exact hperm
    | lock _ hc _ => exact hquiet hc rfl rfl
    | @draw n q hc =>
      refine hquiet hc ?_ ?_
      · unfold ready Call.row?
        split_ifs <;> rfl
      · unfold drawFrom Call.row?
        split_ifs <;> rfl
    | violate hc _ => exact hquiet hc rfl rfl
    | insert hc _ => exact hquiet hc rfl rfl
    | @commit n q m hc =>
      have hset := filterMap_set (g := g) (d := ⟨q, .committed m⟩) hc rfl
      refine ⟨added ++ [g.row q m], ?_, ?_⟩
      · dsimp only
        rw [hrows, List.append_assoc]
      · exact (hperm.append_right _).trans hset.symm
    | @abort n c hc hopen =>
      refine hquiet hc ?_ rfl
      unfold Call.row?
      split
      · next hstage => simp [hstage, Stage.isOpen] at hopen
      · rfl

end Added

end Numbering
end Lib
