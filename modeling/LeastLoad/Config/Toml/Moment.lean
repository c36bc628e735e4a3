import LeastLoad.Text.Numeral
import LeastLoad.Text.Reader

/-! # Days and times in TOML

A day of the calendar, a time of the day, or a day with a time and perhaps an offset from UTC. -/

namespace LeastLoad.Config.Toml

open LeastLoad.Text

def digits (count : Nat) : Reader Nat := fun cs =>
  let ds := cs.take count
  if ds.length = count then (natural? 10 ds).map (·, cs.drop count) else none

def twoDigits (last : Nat) : Reader Nat := do
  let n ← digits 2
  guard (n ≤ last)
  return n

def isLeapYear (year : Nat) : Bool := year % 4 = 0 && (year % 100 ≠ 0 || year % 400 = 0)

def daysInMonth (year month : Nat) : Nat :=
  if month = 2 then (if isLeapYear year then 29 else 28)
  else if [4, 6, 9, 11].contains month then 30
  else 31

def day : Reader Unit := do
  let year ← digits 4
  Reader.char '-'
  let month ← twoDigits 12
  Reader.char '-'
  let n ← twoDigits (daysInMonth year month)
  guard (1 ≤ month && 1 ≤ n)

def hourAndMinute : Reader Unit := do
  let _ ← twoDigits 23
  Reader.char ':'
  let _ ← twoDigits 59

/-- A time of the day; there may be a leap second, and digits after a point. -/
def timeOfDay : Reader Unit := do
  hourAndMinute
  Reader.char ':'
  let _ ← twoDigits 60
  if (← Reader.peek) = some '.' then
    let _ ← Reader.next
    let ds ← Reader.takeWhile Char.isDigit
    guard (!ds.isEmpty)

def offset : Reader Unit := do
  match ← Reader.peek with
  | some 'Z' | some 'z' =>
    let _ ← Reader.next
  | some '+' | some '-' =>
    let _ ← Reader.next
    hourAndMinute
  | _ => pure ()

def dayAndTime : Reader Unit := do
  day
  match ← Reader.peek with
  | none => pure ()
  | some c =>
    guard (c = 'T' || c = 't' || c = ' ')
    let _ ← Reader.next
    timeOfDay
    offset

def isMoment (cs : List Char) : Bool :=
  let isAll (r : Reader Unit) : Bool := (r cs).any (·.2.isEmpty)
  isAll dayAndTime || isAll timeOfDay

end LeastLoad.Config.Toml
