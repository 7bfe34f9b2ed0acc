/-
Moments in universal time, on the proleptic Gregorian calendar. A leap second is held as nanoseconds
beyond the full second before it. Its place is at the end of a minute, but any second may have one.
-/
namespace ResourceIndex

/-- A date and a time of day, not yet known to exist. -/
structure CivilTime where
  year : Int
  month : Nat
  day : Nat
  hour : Nat
  minute : Nat
  second : Nat
  nano : Nat
deriving DecidableEq, Repr, Inhabited

namespace CivilTime

def isLeapYear (y : Int) : Bool := y % 4 = 0 && (y % 100 ≠ 0 || y % 400 = 0)

def daysInMonth (y : Int) (m : Nat) : Nat :=
  if m = 2 then (if isLeapYear y then 29 else 28)
  else if m = 4 || m = 6 || m = 9 || m = 11 then 30
  else 31

def minYear : Int := -262143

def maxYear : Int := 262142

def Exists (t : CivilTime) : Prop :=
  minYear ≤ t.year ∧ t.year ≤ maxYear ∧ 1 ≤ t.month ∧ t.month ≤ 12 ∧
    1 ≤ t.day ∧ t.day ≤ daysInMonth t.year t.month ∧ t.hour < 24 ∧ t.minute < 60 ∧
    t.second < 60 ∧ t.nano < 2000000000

instance (t : CivilTime) : Decidable t.Exists := by unfold Exists; infer_instance

def nextDay (t : CivilTime) : CivilTime :=
  if t.day < daysInMonth t.year t.month then { t with day := t.day + 1 }
  else if t.month < 12 then { t with month := t.month + 1, day := 1 }
  else { t with year := t.year + 1, month := 1, day := 1 }

def previousDay (t : CivilTime) : CivilTime :=
  if 1 < t.day then { t with day := t.day - 1 }
  else if 1 < t.month then
    { t with month := t.month - 1, day := daysInMonth t.year (t.month - 1) }
  else { t with year := t.year - 1, month := 12, day := 31 }

/-- The time some minutes earlier, less than a day away in either direction. -/
def minus (t : CivilTime) (minutes : Int) : CivilTime :=
  let m : Int := (t.hour * 60 + t.minute : Nat) - minutes
  let clock (d : CivilTime) (m : Nat) : CivilTime := { d with hour := m / 60, minute := m % 60 }
  if m < 0 then clock t.previousDay (m + 1440).toNat
  else if 1440 ≤ m then clock t.nextDay (m - 1440).toNat
  else clock t m.toNat

/-- The leap second that is held beyond a full second as a second of its own. -/
def leapCounted (t : CivilTime) : CivilTime :=
  { t with second := t.second + 1, nano := t.nano - 1000000000 }

end CivilTime

/-- A moment: a civil time that exists. -/
structure Timestamp where
  civil : CivilTime
  real : civil.Exists
deriving DecidableEq, Repr

namespace Timestamp

def ofCivil? (t : CivilTime) : Option Timestamp :=
  if h : t.Exists then some ⟨t, h⟩ else none

/-- A leap second, if there is one, stands at the end of a minute. -/
def IsSettled (t : Timestamp) : Prop := t.civil.nano < 1000000000 ∨ t.civil.second = 59

instance (t : Timestamp) : Decidable t.IsSettled := inferInstanceAs (Decidable (_ ∨ _))

theorem exists_leapCounted {t : Timestamp} (h : ¬ t.IsSettled) : t.civil.leapCounted.Exists := by
  obtain ⟨hlow, hhigh, hmonth, hmonth', hday, hday', hhour, hminute, hsecond, hnano⟩ := t.real
  unfold IsSettled at h
  have hnext : t.civil.second + 1 < 60 := by omega
  have hrest : t.civil.nano - 1000000000 < 2000000000 := by omega
  exact ⟨hlow, hhigh, hmonth, hmonth', hday, hday', hhour, hminute, hnext, hrest⟩

/-- The moment with a leap second within a minute counted as the second that follows. -/
def settled (t : Timestamp) : Timestamp :=
  if h : t.IsSettled then t else ⟨_, exists_leapCounted h⟩

end Timestamp

end ResourceIndex
