/-
# Days, weeks and the clocks of a zone

A day is a whole number, counted from the first of January 1970, and an instant
a number of milliseconds from the beginning of that day in UTC. The clocks of a
zone are ahead of UTC by a fixed time (`Zone`). At midnight in one zone the
clocks of another show the same day only if they are ahead of it, by less than
a day (`dayOf_midnight`).

Weeks begin on Sunday. The days of the weeks from one Sunday to another are all
days from the first on, each once, in whatever order the weeks are listed
(`mem_weeksBack`, `nodup_weeksBack`).

Key definitions: `Zone`, `Zone.dayOf`, `Zone.midnight`, `Zone.addDays`,
`weekday`, `weeksBack`, `yearOf`, `monthOf`.
Key theorems: `Zone.dayOf_midnight`, `Zone.addDays_midnight`, `mem_weeksBack`,
`nodup_weeksBack`.
-/
import Mathlib.Algebra.Order.Group.Int
import Mathlib.Data.Int.Range
import Mathlib.Data.List.Nodup
import Mathlib.Tactic.Common

namespace Lib
namespace Calendar

def msPerDay : ℤ := 86400000

/-! ### Clocks -/

/-- A zone whose clocks are ahead of UTC by so many milliseconds. -/
structure Zone where
  ahead : ℤ

namespace Zone

variable (z w : Zone)

/-- The day that the clocks show. -/
def dayOf (t : ℤ) : ℤ := (t + z.ahead) / msPerDay

/-- The time within the day, on the clocks. -/
def timeOf (t : ℤ) : ℤ := (t + z.ahead) % msPerDay

/-- When the clocks show this day and time. -/
def instant (day time : ℤ) : ℤ := day * msPerDay + time - z.ahead

def midnight (day : ℤ) : ℤ := z.instant day 0

/-- The same time of the clocks, some days later. -/
def addDays (t n : ℤ) : ℤ := z.instant (z.dayOf t + n) (z.timeOf t)

/-- **The day elsewhere at midnight.** -/
theorem dayOf_midnight (day : ℤ) :
    w.dayOf (z.midnight day) = day + (w.ahead - z.ahead) / msPerDay := by
  have hsum : z.midnight day + w.ahead = (w.ahead - z.ahead) + day * msPerDay := by
    unfold midnight instant
    omega
  rw [dayOf, hsum, Int.add_mul_ediv_right _ _ (by decide), Int.add_comm]

@[simp]
theorem dayOf_midnight_self (day : ℤ) : z.dayOf (z.midnight day) = day := by
  rw [dayOf_midnight, Int.sub_self, Int.zero_ediv, Int.add_zero]

@[simp]
theorem timeOf_midnight (day : ℤ) : z.timeOf (z.midnight day) = 0 := by
  have hsum : z.midnight day + z.ahead = day * msPerDay := by
    unfold midnight instant
    omega
  rw [timeOf, hsum, Int.mul_emod_left]

@[simp]
theorem addDays_midnight (day n : ℤ) : z.addDays (z.midnight day) n = z.midnight (day + n) := by
  rw [addDays, dayOf_midnight_self, timeOf_midnight, midnight]

theorem midnight_sub_midnight (d e : ℤ) : z.midnight d - z.midnight e = (d - e) * msPerDay := by
  unfold midnight instant msPerDay
  omega

@[simp]
theorem midnight_lt_midnight {d e : ℤ} : z.midnight d < z.midnight e ↔ d < e := by
  unfold midnight instant msPerDay
  omega

end Zone

/-! ### Weeks -/

/-- The day of the week, from Sunday on. The days are counted from a Thursday. -/
def weekday (day : ℤ) : ℤ := (day + 4) % 7

/-- The last Sunday that is not after the day. -/
def sundayOf (day : ℤ) : ℤ := day - weekday day

theorem sundayOf_bounds (day : ℤ) : sundayOf day ≤ day ∧ day < sundayOf day + 7 := by
  unfold sundayOf weekday
  omega

/-- Sundays are whole weeks apart. -/
theorem sundayOf_sub_sundayOf (d e : ℤ) :
    sundayOf e - sundayOf d = (sundayOf e - sundayOf d) / 7 * 7 := by
  unfold sundayOf weekday
  omega

theorem sundayOf_le_sundayOf {d e : ℤ} (h : d ≤ e) : sundayOf d ≤ sundayOf e := by
  unfold sundayOf weekday
  omega

/-- The days of `n` weeks, the one that begins with `last` first, and then
back. -/
def weeksBack (last : ℤ) (n : ℕ) : List ℤ :=
  (List.range n).flatMap fun col : ℕ => (List.range 7).map fun row : ℕ => last - col * 7 + row

theorem mem_weeksBack {last : ℤ} {n : ℕ} {day : ℤ} :
    day ∈ weeksBack last n ↔ last + 7 - n * 7 ≤ day ∧ day < last + 7 := by
  simp only [weeksBack, List.mem_flatMap, List.mem_map, List.mem_range]
  constructor
  · rintro ⟨col, hcol, row, hrow, rfl⟩
    omega
  · rintro ⟨hfirst, hlast⟩
    refine ⟨((last + 6 - day) / 7).toNat, ?_, ((day - last) % 7).toNat, ?_, ?_⟩ <;> omega

theorem nodup_weeksBack (last : ℤ) (n : ℕ) : (weeksBack last n).Nodup := by
  rw [weeksBack, List.nodup_flatMap]
  constructor
  · intro col _
    refine List.Nodup.map (fun a b h => ?_) List.nodup_range
    have heq : last - (col : ℤ) * 7 + a = last - col * 7 + b := h
    omega
  · refine List.nodup_range.imp fun {a b} hne => ?_
    intro day ha hb
    obtain ⟨r, hr, hra⟩ := List.mem_map.mp ha
    obtain ⟨s, hs, hsb⟩ := List.mem_map.mp hb
    rw [List.mem_range] at hr hs
    omega

theorem nodup_range (m n : ℤ) : (Int.range m n).Nodup := by
  refine List.Nodup.map (fun a b h => ?_) List.nodup_range
  have heq : m + (a : ℤ) = m + b := h
  omega

/-! ### Months -/

/-- The years and the days in them, counted from the first of March. -/
def marchYear (day : ℤ) : ℤ × ℤ :=
  let z := day + 719468
  let era := z / 146097
  let dayOfEra := z - era * 146097
  let yearOfEra := (dayOfEra - dayOfEra / 1460 + dayOfEra / 36524 - dayOfEra / 146096) / 365
  (yearOfEra + era * 400, dayOfEra - (365 * yearOfEra + yearOfEra / 4 - yearOfEra / 100))

/-- The month of a day, from 0 for January on. -/
def monthOf (day : ℤ) : ℕ := ((5 * (marchYear day).2 + 2) / 153 + 2).toNat % 12

/-- The year of a day. -/
def yearOf (day : ℤ) : ℤ := (marchYear day).1 + if monthOf day < 2 then 1 else 0

-- the last day of February 2024, the day after it, and the last of the year before
example : [19782, 19783, 19722].map (fun day => (yearOf day, monthOf day)) =
    [(2024, 1), (2024, 2), (2023, 11)] := by decide

end Calendar
end Lib
