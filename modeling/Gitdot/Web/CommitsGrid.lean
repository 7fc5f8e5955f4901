/-
# The grid of commits by day

`buildGrid` lays out the days of a window in columns of weeks, with the commits
of each day counted. The window is given by dates, and dates are those of a zone
`tz`; but the days are walked as local midnights of the zone that the program
runs in, and each midnight is then formatted as a date of `tz`.

A midnight of the runtime's zone is on the same date in `tz` only if `tz` is
ahead, by less than a day (`Zone.dayOf_midnight`), and so the labels,
and the counts that are looked up by them, are right in that case alone
(`buildGrid_covers_iff`). Everything else lines up for all zones: the days that
are walked are those of the window up to today, each once (`walked_perm`), the
columns run from the week of the end back to that of the start
(`numWeeks_eq`), and the months take up all columns (`sum_numWeeks_months`).

A date is given here by its number of days since the beginning of 1970, which
the text `YYYY-MM-DD` determines, and which determines it.

Key definitions: `formatDateIso`, `localMidnight`, `countCommits`,
`recentWindowStart`, `weekDays`, `buildGrid`, `Covers`.
Key theorems: `weeks_flatten`, `walked_perm`, `buildGrid_covers_iff`,
`sum_numWeeks_months`, `recentWindowStart_le`.
-/
import Gitdot.Lib.Calendar
import Mathlib.Algebra.Ring.Int.Defs

namespace Gitdot
namespace CommitsGrid

open Lib Calendar

/-- `RepositoryCommitResource`, as far as the grid reads it: when it was made. -/
structure Commit where
  date : ℤ

/-! ### Dates -/

/-- The date of an instant in a zone. -/
def formatDateIso (date : ℤ) (tz : Zone) : ℤ := tz.dayOf date

/-- ``new Date(`${date}T00:00:00`)``. -/
def localMidnight (runtime : Zone) (date : ℤ) : ℤ := runtime.midnight date

/-- `setDate` with `getDate`, on the clocks of the runtime. -/
def addDays (runtime : Zone) (date days : ℤ) : ℤ := runtime.addDays date days

def subtractDays (runtime : Zone) (date days : ℤ) : ℤ := addDays runtime date (-days)

/-- `date.getDay()`. -/
def getDay (runtime : Zone) (date : ℤ) : ℤ := weekday (runtime.dayOf date)

/-! ### The window -/

/-- The current time is `now`. -/
def recentWindowEnd (runtime : Zone) (now : ℤ) (commits : Option (List Commit)) (tz : Zone) : ℤ :=
  let todayStr := formatDateIso now tz
  match commits.bind List.head? with
  | none => todayStr
  | some latest =>
    let mostRecent := formatDateIso latest.date tz
    let oneYearAgo := formatDateIso (subtractDays runtime now 365) tz
    if oneYearAgo ≤ mostRecent then todayStr else mostRecent

def recentWindowStart (runtime : Zone) (now : ℤ) (commits : Option (List Commit)) (tz : Zone) : ℤ :=
  let windowEnd := recentWindowEnd runtime now commits tz
  let rough := subtractDays runtime (localMidnight runtime windowEnd) 365
  formatDateIso (subtractDays runtime rough (getDay runtime rough)) tz

/-! ### The grid -/

structure Day where
  date : ℤ
  commitCount : ℕ
  deriving DecidableEq

structure Month where
  label : String
  startingWeek : ℕ
  numWeeks : ℤ
  deriving DecidableEq

structure Grid where
  weeks : List (List Day)
  months : List Month
  numWeeks : ℤ

/-- `countMap`, after its loop. -/
def countCommits (commits : List Commit) (tz : Zone) : ℤ → Option ℕ :=
  commits.foldl (fun countMap commit =>
    let date := formatDateIso commit.date tz
    Function.update countMap date (some ((countMap date).getD 0 + 1))) fun _ => none

def numDays : ℕ := 7

def msPerWeek : ℤ := 7 * 86400000

/-- `Math.round(a / b)`, for a positive `b`: halves are rounded up. -/
def roundDiv (a b : ℤ) : ℤ := (2 * a + b) / (2 * b)

def monthNames : List String :=
  ["Jan", "Feb", "Mar", "Apr", "May", "Jun", "Jul", "Aug", "Sep", "Oct", "Nov", "Dec"]

/-- The label of a month, the year for January. -/
def monthLabel (day : ℤ) : String :=
  if monthOf day = 0 then toString (yearOf day) else monthNames.getD (monthOf day) ""

/-- The days of a column: its rows, without those outside the window or after
today. -/
def weekDays (runtime tz : Zone) (counts : ℤ → Option ℕ) (start end_ today weekStart : ℤ) :
    List Day :=
  (List.range numDays).filterMap fun row : ℕ =>
    let d := addDays runtime weekStart row
    if d < start ∨ d > end_ ∨ d > today then none
    else
      let dateStr := formatDateIso d tz
      some ⟨dateStr, (counts dateStr).getD 0⟩

/-- The loop over the columns, as far as the months are concerned. -/
def monthLoop (runtime : Zone) (start lastSunday : ℤ) : List ℕ → ℤ → List Month
  | [], _ => []
  | col :: cols, prevMonth =>
    let weekStart := subtractDays runtime lastSunday (col * 7)
    let labelDate := if weekStart < start then start else weekStart
    let day := runtime.dayOf labelDate
    if (monthOf day : ℤ) ≠ prevMonth then
      ⟨monthLabel day, col, 0⟩ :: monthLoop runtime start lastSunday cols (monthOf day)
    else monthLoop runtime start lastSunday cols prevMonth

/-- The loop over the months. -/
def spanMonths (numWeeks : ℤ) : List Month → List Month
  | [] => []
  | [month] => [{ month with numWeeks := numWeeks - month.startingWeek }]
  | month :: next :: months =>
    { month with numWeeks := next.startingWeek - month.startingWeek } ::
      spanMonths numWeeks (next :: months)

def buildGrid (runtime : Zone) (now : ℤ) (commits : List Commit) (windowStart windowEnd : ℤ)
    (tz : Zone) : Grid :=
  let countMap := countCommits commits tz
  let today := localMidnight runtime (formatDateIso now tz)
  let start := localMidnight runtime windowStart
  let end_ := localMidnight runtime windowEnd
  let firstSunday := subtractDays runtime start (getDay runtime start)
  let lastSunday := subtractDays runtime end_ (getDay runtime end_)
  let numWeeks := roundDiv (lastSunday - firstSunday) msPerWeek + 1
  let cols := List.range numWeeks.toNat
  { weeks := cols.map fun col : ℕ =>
      weekDays runtime tz countMap start end_ today (subtractDays runtime lastSunday (col * 7))
    months := spanMonths numWeeks (monthLoop runtime start lastSunday cols (-1))
    numWeeks := numWeeks }

/-! ### Counts -/

/-- The commits of a date. -/
def commitsOn (commits : List Commit) (tz : Zone) (date : ℤ) : ℕ :=
  (commits.filter fun c => decide (formatDateIso c.date tz = date)).length

theorem countCommits_getD (commits : List Commit) (tz : Zone) (date : ℤ) :
    (countCommits commits tz date).getD 0 = commitsOn commits tz date := by
  suffices h : ∀ (commits : List Commit) (countMap : ℤ → Option ℕ),
      (commits.foldl (fun countMap commit =>
        let date := formatDateIso commit.date tz
        Function.update countMap date (some ((countMap date).getD 0 + 1))) countMap date).getD 0 =
        (countMap date).getD 0 + commitsOn commits tz date by
    exact (h commits fun _ => none).trans (Nat.zero_add _)
  intro commits
  induction commits with
  | nil => intro countMap; rfl
  | cons c commits ih =>
    intro countMap
    rw [List.foldl_cons, ih]
    by_cases hc : formatDateIso c.date tz = date
    · simp only [hc, Function.update_self, Option.getD_some, commitsOn, List.filter_cons,
        decide_true, if_true, List.length_cons]
      omega
    · simp [Function.update_of_ne (Ne.symm hc), commitsOn, hc]

/-! ### The days that are walked -/

section Walk

variable (runtime tz : Zone) (now : ℤ) (commits : List Commit) (windowStart windowEnd : ℤ)

/-- How many days the label of a day is off. -/
def shift : ℤ := (tz.ahead - runtime.ahead) / msPerDay

theorem shift_eq_zero_iff :
    shift runtime tz = 0 ↔ 0 ≤ tz.ahead - runtime.ahead ∧ tz.ahead - runtime.ahead < msPerDay := by
  unfold shift msPerDay
  omega

theorem subtractDays_getDay (day : ℤ) :
    subtractDays runtime (localMidnight runtime day) (getDay runtime (localMidnight runtime day)) =
      localMidnight runtime (sundayOf day) := by
  simp [subtractDays, addDays, getDay, localMidnight, sundayOf, Int.sub_eq_add_neg]

/-- How many weeks there are from that of the start to that of the end. -/
theorem numWeeks_eq : (buildGrid runtime now commits windowStart windowEnd tz).numWeeks =
    (sundayOf windowEnd - sundayOf windowStart) / 7 + 1 := by
  have hweeks := sundayOf_sub_sundayOf windowStart windowEnd
  simp only [buildGrid, subtractDays_getDay]
  rw [localMidnight, localMidnight, Zone.midnight_sub_midnight]
  generalize (sundayOf windowEnd - sundayOf windowStart) / 7 = weeks at hweeks ⊢
  rw [hweeks]
  unfold roundDiv msPerWeek msPerDay
  omega

/-- A day of the window that is not after today. -/
def inWindow (day : ℤ) : Bool :=
  decide (windowStart ≤ day ∧ day ≤ windowEnd ∧ day ≤ formatDateIso now tz)

/-- What the grid shows of a date. -/
def dayAt (date : ℤ) : Day := ⟨date, commitsOn commits tz date⟩

/-- The days of a column are those of its week that are in the window, each
labelled as the date that its midnight has in the zone. -/
theorem weekDays_eq (weekStart : ℤ) :
    weekDays runtime tz (countCommits commits tz) (localMidnight runtime windowStart)
        (localMidnight runtime windowEnd) (localMidnight runtime (formatDateIso now tz))
        (localMidnight runtime weekStart) =
      (((List.range 7).map fun row : ℕ => weekStart + row).filter
        (inWindow tz now windowStart windowEnd)).map
          fun day => dayAt tz commits (day + shift runtime tz) := by
  rw [weekDays, numDays]
  induction List.range 7 with
  | nil => rfl
  | cons row rows ih =>
    rw [List.filterMap_cons, List.map_cons, List.filter_cons, ih]
    have hout : (addDays runtime (localMidnight runtime weekStart) row <
          localMidnight runtime windowStart ∨
        addDays runtime (localMidnight runtime weekStart) row > localMidnight runtime windowEnd ∨
        addDays runtime (localMidnight runtime weekStart) row >
          localMidnight runtime (formatDateIso now tz)) ↔
        ¬ inWindow tz now windowStart windowEnd (weekStart + row) = true := by
      simp only [addDays, localMidnight, Zone.addDays_midnight, gt_iff_lt,
        Zone.midnight_lt_midnight, inWindow, decide_eq_true_eq]
      omega
    by_cases hin : inWindow tz now windowStart windowEnd (weekStart + row) = true
    · have hlabel : formatDateIso (addDays runtime (localMidnight runtime weekStart) row) tz =
          weekStart + row + shift runtime tz := by
        rw [addDays, localMidnight, Zone.addDays_midnight, formatDateIso, Zone.dayOf_midnight,
          shift]
      simp only [hout, hin, not_true_eq_false, if_false, if_true, List.map_cons, hlabel,
        countCommits_getD, dayAt]
    · simp only [hout, hin, not_false_eq_true, if_true, if_false, Bool.false_eq_true]

/-- The days that are walked, before they are labelled. -/
def walked : List ℤ :=
  (weeksBack (sundayOf windowEnd)
    (buildGrid runtime now commits windowStart windowEnd tz).numWeeks.toNat).filter
      (inWindow tz now windowStart windowEnd)

theorem weeks_flatten : (buildGrid runtime now commits windowStart windowEnd tz).weeks.flatten =
    (walked runtime tz now commits windowStart windowEnd).map
      fun day => dayAt tz commits (day + shift runtime tz) := by
  have hcol : ∀ col : ℕ, subtractDays runtime (localMidnight runtime (sundayOf windowEnd)) (col * 7) =
      localMidnight runtime (sundayOf windowEnd - col * 7) := by
    intro col
    rw [subtractDays, addDays, localMidnight, Zone.addDays_midnight, ← Int.sub_eq_add_neg,
      localMidnight]
  rw [walked, weeksBack, List.filter_flatMap, List.map_flatMap, List.flatMap_def]
  simp only [buildGrid, subtractDays_getDay, hcol, weekDays_eq]

/-- **The days that are walked** are those of the window up to today. -/
theorem walked_perm (h : windowStart ≤ windowEnd) :
    (walked runtime tz now commits windowStart windowEnd).Perm
      (Int.range windowStart (min windowEnd (formatDateIso now tz) + 1)) := by
  refine (List.perm_ext_iff_of_nodup ((nodup_weeksBack _ _).filter _) (nodup_range _ _)).mpr ?_
  intro day
  have hweeks := sundayOf_sub_sundayOf windowStart windowEnd
  have hstart := sundayOf_bounds windowStart
  have hend := sundayOf_bounds windowEnd
  have hle := sundayOf_le_sundayOf h
  rw [numWeeks_eq, List.mem_filter, mem_weeksBack, Int.mem_range_iff, inWindow,
    decide_eq_true_eq]
  omega

end Walk

/-! ### The grid and the window -/

/-- The days of the grid are the dates of the window up to today, each once
and with its commits. -/
def Covers (runtime : Zone) (now : ℤ) (commits : List Commit) (windowStart windowEnd : ℤ)
    (tz : Zone) : Prop :=
  (buildGrid runtime now commits windowStart windowEnd tz).weeks.flatten.Perm
    ((Int.range windowStart (min windowEnd (formatDateIso now tz) + 1)).map fun date =>
      ⟨date, commitsOn commits tz date⟩)

/-- **The grid covers its window** exactly if the clocks of `tz` are ahead of
those of the runtime by less than a day, or there is nothing to show. -/
theorem buildGrid_covers_iff (runtime : Zone) (now : ℤ) (commits : List Commit)
    (windowStart windowEnd : ℤ) (tz : Zone) (h : windowStart ≤ windowEnd) :
    Covers runtime now commits windowStart windowEnd tz ↔
      (0 ≤ tz.ahead - runtime.ahead ∧ tz.ahead - runtime.ahead < msPerDay) ∨
        formatDateIso now tz < windowStart := by
  have hwalked := (walked_perm runtime tz now commits windowStart windowEnd h).map
    fun day => dayAt tz commits (day + shift runtime tz)
  rw [Covers, weeks_flatten, ← shift_eq_zero_iff]
  constructor
  · intro hcovers
    by_cases htoday : formatDateIso now tz < windowStart
    · exact .inr htoday
    · -- the first date has to be the label of some day, and so has the last
      have hdates := (hwalked.symm.trans hcovers).map Day.date
      rw [List.map_map, List.map_map] at hdates
      have hlabel : ∀ date ∈ Int.range windowStart (min windowEnd (formatDateIso now tz) + 1),
          ∃ day ∈ Int.range windowStart (min windowEnd (formatDateIso now tz) + 1),
            day + shift runtime tz = date := by
        intro date hdate
        exact List.mem_map.mp (hdates.mem_iff.mpr (List.mem_map.mpr ⟨date, hdate, rfl⟩))
      simp only [Int.mem_range_iff] at hlabel
      obtain ⟨first, hfirst, hfirstEq⟩ := hlabel windowStart (by omega)
      obtain ⟨last, hlast, hlastEq⟩ := hlabel (min windowEnd (formatDateIso now tz)) (by omega)
      exact .inl (by omega)
  · rintro (hshift | htoday)
    · rw [hshift] at hwalked ⊢
      simp only [Int.add_zero] at hwalked ⊢
      exact hwalked
    · have hnone : Int.range windowStart (min windowEnd (formatDateIso now tz) + 1) = [] := by
        refine List.eq_nil_iff_forall_not_mem.mpr fun date hdate => ?_
        rw [Int.mem_range_iff] at hdate
        omega
      rw [hnone] at hwalked ⊢
      exact hwalked

theorem buildGrid_covers_iff_fiveHoursAhead :
    Covers ⟨0⟩ (12 * msPerDay) [⟨3 * msPerDay⟩] 1 6 ⟨5 * 3600000⟩ :=
  (buildGrid_covers_iff ⟨0⟩ (12 * msPerDay) [⟨3 * msPerDay⟩] 1 6 ⟨5 * 3600000⟩ (by decide)).mpr
    (.inl (by decide))

/-- On a machine in UTC and for a reader five hours behind, the second of
January 1970 is labelled as the day before. -/
theorem not_buildGrid_covers :
    ¬ ∀ (runtime : Zone) (now : ℤ) (commits : List Commit) (windowStart windowEnd : ℤ) (tz : Zone),
      windowStart ≤ windowEnd → Covers runtime now commits windowStart windowEnd tz := by
  intro h
  have hcovers := h ⟨0⟩ (12 * msPerDay) [] 1 1 ⟨-5 * 3600000⟩ (by decide)
  have hgrid : (buildGrid ⟨0⟩ (12 * msPerDay) [] 1 1 ⟨-5 * 3600000⟩).weeks.flatten = [⟨0, 0⟩] := by
    decide +kernel
  rw [Covers, hgrid] at hcovers
  exact absurd (hcovers.subset List.mem_cons_self) (by decide +kernel)

/-! ### The months above the grid -/

theorem sum_spanMonths (numWeeks : ℤ) : ∀ (month : Month) (months : List Month),
    ((spanMonths numWeeks (month :: months)).map Month.numWeeks).sum =
      numWeeks - month.startingWeek
  | month, [] => by simp [spanMonths]
  | month, next :: months => by
    rw [spanMonths, List.map_cons, List.sum_cons, sum_spanMonths numWeeks next months]
    dsimp only
    omega

/-- **The months take up all columns.** -/
theorem sum_numWeeks_months (runtime : Zone) (now : ℤ) (commits : List Commit)
    (windowStart windowEnd : ℤ) (tz : Zone) (h : windowStart ≤ windowEnd) :
    ((buildGrid runtime now commits windowStart windowEnd tz).months.map Month.numWeeks).sum =
      (buildGrid runtime now commits windowStart windowEnd tz).numWeeks := by
  have hle := sundayOf_le_sundayOf h
  obtain ⟨n, hn⟩ : ∃ n : ℕ,
      (buildGrid runtime now commits windowStart windowEnd tz).numWeeks.toNat = n + 1 :=
    ⟨((sundayOf windowEnd - sundayOf windowStart) / 7).toNat, by rw [numWeeks_eq]; omega⟩
  have hfirst : ∀ (start lastSunday : ℤ), ∃ label months,
      monthLoop runtime start lastSunday (List.range (n + 1)) (-1) = ⟨label, 0, 0⟩ :: months := by
    intro start lastSunday
    rw [List.range_succ_eq_map, monthLoop]
    exact ⟨_, _, if_pos (by omega)⟩
  simp only [buildGrid] at hn ⊢
  rw [hn]
  obtain ⟨label, months, hloop⟩ := hfirst (localMidnight runtime windowStart)
    (subtractDays runtime (localMidnight runtime windowEnd)
      (getDay runtime (localMidnight runtime windowEnd)))
  rw [hloop, sum_spanMonths]
  exact Int.sub_zero _

/-! ### The recent window -/

/-- The recent window begins with a Sunday, labelled as the grid labels its
days. -/
theorem recentWindowStart_eq (runtime : Zone) (now : ℤ) (commits : Option (List Commit))
    (tz : Zone) : recentWindowStart runtime now commits tz =
      sundayOf (recentWindowEnd runtime now commits tz - 365) + shift runtime tz := by
  rw [recentWindowStart]
  simp only [subtractDays, addDays, localMidnight, Zone.addDays_midnight, getDay,
    Zone.dayOf_midnight_self, formatDateIso, Zone.dayOf_midnight]
  rw [sundayOf, shift, ← Int.sub_eq_add_neg, ← Int.sub_eq_add_neg]

/-- The recent window is one, for zones that are not a year apart. -/
theorem recentWindowStart_le (runtime : Zone) (now : ℤ) (commits : Option (List Commit)) (tz : Zone)
    (h : tz.ahead - runtime.ahead < 366 * msPerDay) :
    recentWindowStart runtime now commits tz ≤ recentWindowEnd runtime now commits tz := by
  have hsunday := sundayOf_bounds (recentWindowEnd runtime now commits tz - 365)
  rw [recentWindowStart_eq]
  unfold shift msPerDay at *
  omega

end CommitsGrid
end Gitdot
