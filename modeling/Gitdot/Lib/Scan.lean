/-
# The first place of a pattern, and buffers that grow

The first place at which a pattern stands in a list (`findAt`), and the two
parts around it (`splitOnce`). A reader that searches what it has read after
every chunk (`readUntil`) finds what a search of the whole finds, however the
whole is cut, if the answer does not change once there is one (`Settles`).

Key definitions: `OccursAt`, `findAt`, `splitOnce`, `readUntil`, `Settles`.
Key theorems: `findAt_eq_some`, `findAt_eq_none`, `occursAt_take`,
`isSome_readUntil`, `Settles.readUntil`.
-/
import Mathlib.Data.List.Infix

namespace Lib
namespace Scan

variable {α β : Type*}

/-! ### Places -/

/-- The pattern stands there. -/
def OccursAt (pat data : List α) (i : ℕ) : Prop := ∃ a b, data = a ++ (pat ++ b) ∧ a.length = i

section Places

variable {pat data : List α} {i n : ℕ}

theorem occursAt_iff_take (hi : i ≤ data.length) :
    OccursAt pat data i ↔ (data.drop i).take pat.length = pat := by
  constructor
  · rintro ⟨a, b, rfl, rfl⟩
    rw [List.drop_left, List.take_left]
  · intro h
    have hrest : data.drop i = pat ++ (data.drop i).drop pat.length := by
      conv_lhs => rw [← List.take_append_drop pat.length (data.drop i), h]
    exact ⟨data.take i, (data.drop i).drop pat.length, by rw [← hrest, List.take_append_drop],
      List.length_take_of_le hi⟩

theorem OccursAt.le_length (h : OccursAt pat data i) : i + pat.length ≤ data.length := by
  obtain ⟨a, b, rfl, rfl⟩ := h
  rw [List.length_append, List.length_append]
  omega

/-- The members of the list are there those of the pattern. -/
theorem OccursAt.getElem? (h : OccursAt pat data i) {k : ℕ} (hk : k < pat.length) :
    data[i + k]? = pat[k]? := by
  obtain ⟨a, b, rfl, rfl⟩ := h
  rw [List.getElem?_append_right (by omega), Nat.add_sub_cancel_left, List.getElem?_append_left hk]

/-- In a first part stands what ends in it. -/
theorem occursAt_take :
    OccursAt pat (data.take n) i ↔ OccursAt pat data i ∧ i + pat.length ≤ min n data.length := by
  constructor
  · intro h
    have hle := h.le_length
    rw [List.length_take] at hle
    obtain ⟨a, b, heq, rfl⟩ := h
    refine ⟨⟨a, b ++ data.drop n, ?_, rfl⟩, hle⟩
    calc data = data.take n ++ data.drop n := (List.take_append_drop n data).symm
      _ = a ++ (pat ++ (b ++ data.drop n)) := by
        rw [heq, List.append_assoc, List.append_assoc]
  · rintro ⟨⟨a, b, rfl, rfl⟩, hle⟩
    have hn : a.length + pat.length ≤ n := le_trans hle (min_le_left _ _)
    refine ⟨a, b.take (n - a.length - pat.length), ?_, rfl⟩
    rw [List.take_append, List.take_of_length_le (by omega), List.take_append,
      List.take_of_length_le (by omega)]

theorem occursAt_infix : (∃ i, OccursAt pat data i) ↔ pat <:+: data := by
  constructor
  · rintro ⟨i, a, b, rfl, -⟩
    exact ⟨a, b, List.append_assoc a pat b⟩
  · rintro ⟨a, b, rfl⟩
    exact ⟨a.length, a, b, List.append_assoc a pat b, rfl⟩

end Places

/-! ### The first place -/

section First

variable [DecidableEq α] {pat data : List α} {i : ℕ}

/-- The first place of the pattern. -/
def findAt (pat data : List α) : Option ℕ :=
  (List.range (data.length + 1 - pat.length)).find? fun i => (data.drop i).take pat.length = pat

theorem findAt_eq_some :
    findAt pat data = some i ↔ OccursAt pat data i ∧ ∀ j < i, ¬ OccursAt pat data j := by
  unfold findAt
  rw [List.find?_range_eq_some]
  simp only [List.mem_range, decide_eq_true_eq, Bool.not_eq_true', decide_eq_false_iff_not]
  constructor
  · rintro ⟨hocc, hi, hfirst⟩
    have hle : i ≤ data.length := by
      have hocc := congrArg List.length hocc
      rw [List.length_take, List.length_drop] at hocc
      omega
    exact ⟨(occursAt_iff_take hle).mpr hocc, fun j hj hother =>
      hfirst j hj ((occursAt_iff_take (le_trans hj.le hle)).mp hother)⟩
  · rintro ⟨hocc, hfirst⟩
    have hle := hocc.le_length
    exact ⟨(occursAt_iff_take (by omega)).mp hocc, by omega, fun j hj hother =>
      hfirst j hj ((occursAt_iff_take (by omega)).mpr hother)⟩

theorem findAt_eq_none : findAt pat data = none ↔ ∀ i, ¬ OccursAt pat data i := by
  unfold findAt
  rw [List.find?_eq_none]
  simp only [List.mem_range, decide_eq_true_eq]
  constructor
  · intro h i hocc
    have hle := hocc.le_length
    exact h i (by omega) ((occursAt_iff_take (by omega)).mp hocc)
  · intro h i hi htake
    by_cases hle : i ≤ data.length
    · exact h i ((occursAt_iff_take hle).mpr htake)
    · omega

/-- `str::split_once`: in front of the first place of the pattern and behind it. -/
def splitOnce (pat data : List α) : Option (List α × List α) :=
  (findAt pat data).map fun i => (data.take i, data.drop (i + pat.length))

end First

/-! ### Readers -/

/-- Chunks are appended to the buffer until the search of the buffer succeeds:
what it gave, the buffer and the chunks that have not been read; `none` at the
end of the chunks. -/
def readUntil (find : List α → Option β) : List α → List (List α) → Option (β × List α × List (List α))
  | _, [] => none
  | buf, chunk :: chunks =>
    match find (buf ++ chunk) with
    | some x => some (x, buf ++ chunk, chunks)
    | none => readUntil find (buf ++ chunk) chunks

/-- An answer that does not go away is there at the end if the reader has found one. -/
theorem isSome_readUntil {find : List α → Option β} {buf : List α} {chunks : List (List α)}
    (hstays : ∀ a b, (find a).isSome → (find (a ++ b)).isSome) (hbuf : find buf = none) :
    (readUntil find buf chunks).isSome ↔ (find (buf ++ chunks.flatten)).isSome := by
  induction chunks generalizing buf with
  | nil =>
    rw [List.flatten_nil, List.append_nil, hbuf]
    rfl
  | cons chunk chunks ih =>
    rw [List.flatten_cons, ← List.append_assoc]
    unfold readUntil
    cases hfind : find (buf ++ chunk) with
    | none => exact ih hfind
    | some x => exact iff_of_true rfl (hstays _ _ (Option.isSome_of_eq_some hfind))

/-- The first parts of the list below the length have no answer, the others the one. -/
structure Settles (find : List α → Option β) (whole : List α) (n : ℕ) (x : β) : Prop where
  le_length : n ≤ whole.length
  before : ∀ m < n, find (whole.take m) = none
  after : ∀ m, n ≤ m → find (whole.take m) = some x

namespace Settles

variable {find : List α → Option β} {whole buf : List α} {chunks : List (List α)} {n : ℕ} {x : β}

theorem find_whole (h : Settles find whole n x) : find whole = some x := by
  have hafter := h.after whole.length h.le_length
  rwa [List.take_length] at hafter

/-- **Cuts.** However the list is cut, the reader stops with the answer. -/
theorem readUntil (h : Settles find whole n x) (hbuf : buf.length < n)
    (hwhole : buf ++ chunks.flatten = whole) :
    ∃ read rest, readUntil find buf chunks = some (x, read, rest) ∧ read ++ rest.flatten = whole ∧
      n ≤ read.length := by
  induction chunks generalizing buf with
  | nil =>
    have hle := h.le_length
    rw [← hwhole, List.flatten_nil, List.append_nil] at hle
    omega
  | cons chunk chunks ih =>
    rw [List.flatten_cons, ← List.append_assoc] at hwhole
    have htake : whole.take (buf ++ chunk).length = buf ++ chunk := by
      rw [← hwhole, List.take_left]
    unfold Scan.readUntil
    by_cases hn : (buf ++ chunk).length < n
    · have hnone := h.before _ hn
      rw [htake] at hnone
      rw [hnone]
      exact ih hn hwhole
    · have hsome := h.after _ (not_lt.mp hn)
      rw [htake] at hsome
      rw [hsome]
      exact ⟨buf ++ chunk, chunks, rfl, hwhole, not_lt.mp hn⟩

end Settles

end Scan
end Lib
