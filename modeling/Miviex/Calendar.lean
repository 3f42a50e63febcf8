import Mathlib.Logic.Function.Iterate
import Mathlib.Tactic.IntervalCases

/-! The day number of a date, from which the wall clock starts, and the calendar it counts in. -/
namespace Miviex

def int64 (x : Int) : Int := x.bmod (2^64)
def uint32 (x : Int) : Int := x % 2^32

def daysFromCivil (y m d : Int) : Int :=
  let y := int64 (y - if m ≤ 2 then 1 else 0)
  let era := (if 0 ≤ y then y else int64 (y-399)).tdiv 400
  let yoe := uint32 (int64 (y - int64 (era * 400)))
  let doy := uint32 (uint32 (153 * (if 2 < m then m-3 else m+9) + 2) / 5 + d - 1)
  let doe := uint32 (yoe * 365 + yoe / 4 - yoe / 100 + doy)
  int64 (int64 (int64 (era * 146097) + doe) - 719468)

def monthDays (year month : Int) : Int :=
  if month = 2 then if year % 4 = 0 ∧ (year % 100 ≠ 0 ∨ year % 400 = 0) then 29 else 28
  else if month = 4 ∨ month = 6 ∨ month = 9 ∨ month = 11 then 30 else 31

structure Date where
  year : Int
  month : Int
  day : Int
  deriving DecidableEq, Repr

namespace Date

def next (a : Date) : Date :=
  if a.day < monthDays a.year a.month then {a with day := a.day + 1}
  else if a.month < 12 then ⟨a.year,a.month+1,1⟩
  else ⟨a.year+1,1,1⟩

abbrev Valid (a : Date) : Prop := (1 ≤ a.month ∧ a.month ≤ 12) ∧ 1 ≤ a.day ∧ a.day ≤ monthDays a.year a.month

/- Years for which nothing on the way overflows an `int64_t`. -/
abbrev Fits (a : Date) : Prop := -2^54 ≤ a.year ∧ a.year ≤ 2^54

def number (a : Date) : Int := daysFromCivil a.year a.month a.day

/- The formula without the C types: years start in March, and four centuries are an era. -/
def march (y m d : Int) : Int :=
  let y := y - if m ≤ 2 then 1 else 0
  y / 400 * 146097 + (y % 400 * 365 + y % 400 / 4 - y % 400 / 100) +
    ((153 * (if 2 < m then m-3 else m+9) + 2) / 5 + d - 1) - 719468

theorem int64Same {x : Int} (low : -2^63 ≤ x) (high : x < 2^63) : int64 x = x := by
  rw [int64,Int.bmod_def]
  omega

theorem eraFloor (y : Int) : (if 0 ≤ y then y else y-399).tdiv 400 = y / 400 := by
  split
  · rename_i positive
    exact Int.tdiv_eq_ediv_of_nonneg positive
  · rw [Int.tdiv_eq_ediv,show Int.sign 400 = 1 from rfl]
    split <;> omega

theorem monthDaysBounds (y m) : 28 ≤ monthDays y m ∧ monthDays y m ≤ 31 := by
  unfold monthDays
  repeat' split
  all_goals omega

variable {a : Date}

theorem numberMarch (valid : a.Valid) (fits : a.Fits) : a.number = march a.year a.month a.day := by
  have short := (monthDaysBounds a.year a.month).2
  unfold number daysFromCivil march
  generalize shift : (a.year - if a.month ≤ 2 then 1 else 0) = y
  have near : a.year-1 ≤ y ∧ y ≤ a.year := by split at shift <;> omega
  have year : y - y / 400 * 400 = y % 400 := by omega
  generalize start : (if 2 < a.month then a.month-3 else a.month+9) = m
  have range : 0 ≤ m ∧ m ≤ 11 := by split at start <;> omega
  simp (disch := omega) only [int64Same,uint32,Int.emod_eq_of_lt,eraFloor,year]
  omega

theorem nextValid (valid : a.Valid) : a.next.Valid ∧ a.year ≤ a.next.year := by
  have long (y m) : 1 ≤ monthDays y m := Int.le_trans (by decide) (monthDaysBounds y m).1
  unfold next
  split
  · exact ⟨⟨valid.1,by dsimp only; omega⟩,Int.le_refl _⟩
  split
  · exact ⟨⟨by dsimp only; omega,Int.le_refl 1,long _ _⟩,Int.le_refl _⟩
  · exact ⟨⟨by dsimp only; omega,Int.le_refl 1,long _ _⟩,by dsimp only; omega⟩

theorem marchMonth {y m : Int} (low : 1 ≤ m) (high : m < 12) : march y (m+1) 1 = march y m (monthDays y m) + 1 := by
  unfold march monthDays
  interval_cases m <;> simp <;> omega

theorem marchNext (valid : a.Valid) : march a.next.year a.next.month a.next.day = march a.year a.month a.day + 1 := by
  unfold next
  split
  · dsimp only [march]
    omega
  have last : a.day = monthDays a.year a.month := by omega
  rw [last]
  split
  · rename_i within
    exact marchMonth valid.1.1 within
  · rw [show a.month = 12 by omega]
    simp [march,monthDays]
    omega

theorem numberNext (valid : a.Valid) (fits : a.Fits) (later : a.next.Fits) : a.next.number = a.number + 1 := by
  rw [numberMarch (nextValid valid).1 later,numberMarch valid fits,marchNext valid]

theorem yearLater (valid : a.Valid) (k) : a.year ≤ (next^[k] a).year := by
  induction k generalizing a with
  | zero => exact Int.le_refl _
  | succ k ih => exact Int.le_trans (nextValid valid).2 (ih (nextValid valid).1)

theorem numberLater {k} (valid : a.Valid) (fits : a.Fits) (later : (next^[k] a).Fits) :
    (next^[k] a).number = a.number + k := by
  induction k generalizing a with
  | zero => simp
  | succ k ih =>
    obtain ⟨valid',after⟩ := nextValid valid
    have once : a.next.Fits := ⟨Int.le_trans fits.1 after,Int.le_trans (yearLater valid' k) later.2⟩
    rw [Function.iterate_succ_apply,ih valid' once later,numberNext valid fits once]
    omega

def epoch : Date := ⟨1970,1,1⟩

theorem daysCounted (a : Date) (valid : a.Valid) (fits : a.Fits) : epoch.number = 0 ∧
    (a.next.Fits → a.next.number = a.number + 1) ∧
    ∀ k : Nat, (next^[k] epoch = a → a.number = k) ∧ (next^[k] a = epoch → a.number = -k) := by
  have start : epoch.number = 0 := by decide
  refine ⟨start,numberNext valid fits,fun k => ⟨?_,fun reached => ?_⟩⟩
  · rintro rfl
    rw [numberLater (by decide) (by decide) fits,start,Int.zero_add]
  · have counted := numberLater valid fits (show (next^[k] a).Fits from reached ▸ by decide)
    rw [reached,start] at counted
    omega

theorem noLeapDay : next ⟨1900,2,28⟩ = ⟨1900,3,1⟩ ∧ number ⟨1900,3,1⟩ = number ⟨1900,2,28⟩ + 1 :=
  ⟨by decide,(daysCounted ⟨1900,2,28⟩ (by decide) (by decide)).2.1 (by decide)⟩

end Date
end Miviex
