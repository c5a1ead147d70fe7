import Mathlib.Data.Nat.Log
import ACRev360.Library.Words
import ACRev360.Objects.Records

namespace ACRev360

section Digits

-- Where each ten decimal digits of Unicode begin.
def digitStarts : List ℕ := [
  0x30, 0x660, 0x6f0, 0x7c0, 0x966, 0x9e6, 0xa66, 0xae6, 0xb66, 0xbe6, 0xc66, 0xce6, 0xd66, 0xde6, 0xe50, 0xed0, 0xf20,
  0x1040, 0x1090, 0x17e0, 0x1810, 0x1946, 0x19d0, 0x1a80, 0x1a90, 0x1b50, 0x1bb0, 0x1c40, 0x1c50, 0xa620, 0xa8d0, 0xa900,
  0xa9d0, 0xa9f0, 0xaa50, 0xabf0, 0xff10, 0x104a0, 0x10d30, 0x11066, 0x110f0, 0x11136, 0x111d0, 0x112f0, 0x11450, 0x114d0,
  0x11650, 0x116c0, 0x11730, 0x118e0, 0x11950, 0x11c50, 0x11d50, 0x11da0, 0x11f50, 0x16a60, 0x16ac0, 0x16b50, 0x1d7ce,
  0x1d7d8, 0x1d7e2, 0x1d7ec, 0x1d7f6, 0x1e140, 0x1e2f0, 0x1e4f0, 0x1e950, 0x1fbf0
]

-- The ASCII character that a number is read with: a digit for a digit, a space for a space.
def toAscii (c : Char) : Char :=
  if c.toNat < 128 then c
  else if isSpace c then ' '
  else match digitStarts.find? fun start => start ≤ c.toNat && c.toNat < start + 10 with
    | some start => Char.ofNat (0x30 + (c.toNat - start))
    | none       => '?'

def digitOf (c : Char) : ℕ :=
  c.toNat - 0x30

def valueOf (digits : List Char) : ℕ :=
  digits.foldl (fun n c => 10 * n + digitOf c) 0

def sign : List Char → Bool × List Char
  | '-' :: p => (true, p)
  | '+' :: p => (false, p)
  | p        => (false, p)

end Digits

-- The spaces of C.
def isCSpace (c : Char) : Bool :=
  c.toNat = 0x20 || (0x09 ≤ c.toNat && c.toNat ≤ 0x0d)

-- int: digits with single underscores between them, of which there are not more than 4300.
def int (s : String) : Option ℤ :=
  let text              := if s.toList.all (·.toNat < 128) then s.toList else s.toList.map toAscii
  let (negative, p)     := sign <| Words.trim isCSpace text
  let groups            := p.splitOnP (· = '_')
  let digits            := groups.flatten
  if groups.all (fun g => !g.isEmpty && g.all Char.isDigit) && digits.length ≤ 4300 then
    some <| if negative then -valueOf digits else valueOf digits
  else none

-- decimal.Decimal
inductive DecimalLiteral where
  | finite (negative : Bool) (coefficient : ℕ) (exponent : ℤ)
  | infinity (negative : Bool)
  | nan (negative signaling : Bool) (payload : ℕ)
deriving DecidableEq

def DecimalLiteral.isFinite : DecimalLiteral → Bool
  | finite .. => true
  | _         => false

-- The text of a decimal number in lower case, without the space around it and the underscores.
def decimalText (s : String) : List Char :=
  ((Words.trim isSpace s.toList).filter (· ≠ '_')).map fun c => (toAscii c).toLower

-- Exponents are limited, as nothing is rounded.
def finiteDecimal (negative : Bool) (p : List Char) : Option DecimalLiteral := do
  let mantissa := p.takeWhile (· ≠ 'e')
  let fraction := (mantissa.dropWhile (· ≠ '.')).drop 1
  let digits   := mantissa.takeWhile (· ≠ '.') ++ fraction
  if digits.isEmpty || !digits.all Char.isDigit then none
  let exponent ← match p.dropWhile (· ≠ 'e') with
    | []     => some 0
    | _ :: p =>
      let (below, p) := sign p
      if p.isEmpty || !p.all Char.isDigit then none
      else some <| if below then -(valueOf p : ℤ) else valueOf p
  let least : ℤ := exponent - fraction.length
  if least < -1999999999999999997 || 999999999999999999 < least + Nat.log 10 (valueOf digits) then none
  return .finite negative (valueOf digits) least

-- The constructor of Decimal, for a text.
def decimal (s : String) : Option DecimalLiteral :=
  let (negative, p) := sign <| decimalText s
  match p with
  | 'i' :: 'n' :: 'f' :: rest        =>
    if rest = [] || rest = "inity".toList then some <| .infinity negative else none
  | 'n' :: 'a' :: 'n' :: rest        => if rest.all Char.isDigit then some <| .nan negative false (valueOf rest) else none
  | 's' :: 'n' :: 'a' :: 'n' :: rest => if rest.all Char.isDigit then some <| .nan negative true (valueOf rest) else none
  | _                                => finiteDecimal negative p

section Dates

-- _is_leap
def isLeap (year : ℕ) : Bool :=
  year % 4 = 0 && (year % 100 ≠ 0 || year % 400 = 0)

def monthLengths (year : ℕ) : List ℕ :=
  [31, if isLeap year then 29 else 28, 31, 30, 31, 30, 31, 31, 30, 31, 30, 31]

def daysInMonth (year month : ℕ) : ℕ :=
  (monthLengths year).getD (month - 1) 0

def daysBeforeYear (year : ℕ) : ℕ :=
  (year - 1) * 365 + (year - 1) / 4 - (year - 1) / 100 + (year - 1) / 400

def daysBeforeMonth (year month : ℕ) : ℕ :=
  ((monthLengths year).take (month - 1)).sum

def ymdToOrd (year month day : ℕ) : ℕ :=
  daysBeforeYear year + daysBeforeMonth year month + day

-- The date of a year, a month and a day.
def ymd (year month day : ℕ) : Option Date :=
  if 1 ≤ year && year ≤ 9999 && 1 ≤ month && month ≤ 12 && 1 ≤ day && day ≤ daysInMonth year month then
    some <| ymdToOrd year month day
  else none

def isoWeek1Monday (year : ℕ) : ℕ :=
  let firstDay     := ymdToOrd year 1 1
  let firstWeekday := (firstDay + 6) % 7
  if 3 < firstWeekday then firstDay - firstWeekday + 7 else firstDay - firstWeekday

-- The date of a year, a week and a day of the ISO calendar. Years that begin on a Thursday, and leap years
-- that begin on a Wednesday, have 53 weeks.
def isoToYmd (year week day : ℕ) : Option Date :=
  let firstWeekday := (ymdToOrd year 1 1 + 6) % 7
  let last         := if firstWeekday = 3 ∨ (firstWeekday = 2 ∧ isLeap year) then 53 else 52
  let d            := isoWeek1Monday year + (week - 1) * 7 + (day - 1)
  if 1 ≤ year && year ≤ 9999 && 1 ≤ week && week ≤ last && 1 ≤ day && day ≤ 7 && d ≤ 3652059 then some d else none

-- A number of `n` digits, and what follows it.
def parseDigits (n : ℕ) (p : List Char) : Option (ℕ × List Char) :=
  if (p.take n).length = n ∧ (p.take n).all Char.isDigit then some (valueOf (p.take n), p.drop n) else none

-- The separator, if there has to be one.
def parseSeparator (usesSeparator : Bool) : List Char → Option (List Char)
  | '-' :: p => if usesSeparator then some p else some ('-' :: p)
  | p        => if usesSeparator then none else some p

-- parse_isoformat_date. What is left of the text at the end is not looked at.
def parseIsoformatDate (p : List Char) : Option Date := do
  let (year, p) ← parseDigits 4 p
  let usesSeparator := p.head? = some '-'
  match if usesSeparator then p.tail else p with
  | 'W' :: p =>
    let (week, p) ← parseDigits 2 p
    if p.isEmpty then isoToYmd year week 1
    else
      let (day, _) ← parseDigits 1 (← parseSeparator usesSeparator p)
      isoToYmd year week day
  | p        =>
    let (month, p) ← parseDigits 2 p
    let (day, _) ← parseDigits 2 (← parseSeparator usesSeparator p)
    ymd year month day

-- date.fromisoformat
def fromisoformat (s : String) : Option Date :=
  if s.utf8ByteSize ∈ [7, 8, 10] then parseIsoformatDate s.toList else none

end Dates

end ACRev360
