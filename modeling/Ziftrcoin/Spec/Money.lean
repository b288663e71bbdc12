/-
Module: Ziftrcoin.Spec.Money
Purpose: Amounts as text: the printer and the parser of decimal numbers of coins.
Trusted boundary: human-reviewed model of FormatMoney and ParseMoney in src/util.cpp, and of
  strtoll and of the %d and %05d formats on what these two give them
Main exports: FormatMoney, ParseMoney, atoi64
-/
import Ziftrcoin.Spec.Text

namespace Ziftrcoin.Spec

/-! ### Decimal digits -/

/-- The number that decimal digits denote. -/
def decimalValue (digits : CString) : ℕ := digits.foldl (fun v c => 10 * v + digitValue c) 0

/-- `strtoll` in base ten, which clamps, of a string that holds nothing but digits. -/
def atoi64 (str : CString) : ℤ := min (decimalValue str) (2 ^ 63 - 1)

def decimal (n : ℕ) : CString := chars (Nat.toDigits 10 n)

/-- `%d` -/
def printInt (n : ℤ) : CString := if n < 0 then 45 :: decimal n.natAbs else decimal n.natAbs

/-- `%05d`, where the sign is part of the width. -/
def printInt05 (n : ℤ) : CString :=
  if n < 0 then 45 :: List.replicate (4 - (decimal n.natAbs).length) 48 ++ decimal n.natAbs
  else List.replicate (5 - (decimal n.natAbs).length) 48 ++ decimal n.natAbs

/-! ### Printing -/

/-- What `FormatMoney` prints before it trims. -/
def moneyDigits (n : ℤ) : CString :=
  let n_abs := if n > 0 then n else int64 (-n)
  let quotient := n_abs.tdiv COIN
  let remainder := n_abs.tmod COIN
  printInt quotient ++ 46 :: printInt05 remainder

/-- The trimming loop with `i` to look at next; nothing where it would read outside of the
string. -/
def trimLoop (str : CString) : (i : ℕ) → Option ℕ
  | i + 2 => do
      if (← str[i + 2]?) = 48 then
        if isdigit (← str[i]?) then return (← trimLoop str (i + 1)) + 1 else return 0
      else return 0
  | i => do
      if (← str[i]?) = 48 then none else return 0

def FormatMoney (n : ℤ) (fPlus : Bool) : Option CString := do
  let str := moneyDigits n
  if str = [] then none
  let nTrim ← trimLoop str (str.length - 1)
  let str := str.take (str.length - nTrim)
  if n < 0 then return 45 :: str
  else if fPlus ∧ n > 0 then return 43 :: str
  else return str

/-! ### Parsing -/

/-- The loop over the digits behind the point, and where it stops. -/
def unitsLoop : (nMult nUnits : ℤ) → (p : CString) → ℤ × CString
  | _, nUnits, [] => (nUnits, [])
  | nMult, nUnits, c :: p =>
      if isdigit c ∧ nMult > 0 then
        unitsLoop (nMult.tdiv 10) (int64 (nUnits + int64 (nMult * digitValue c))) p
      else (nUnits, c :: p)

/-- The loop over the characters: the digits before the point, the units behind it, and
where it stops. -/
def wholeLoop : (strWhole : CString) → (p : CString) → Option (CString × ℤ × CString)
  | strWhole, [] => some (strWhole, 0, [])
  | strWhole, c :: p =>
      if c = 46 then
        let (nUnits, p) := unitsLoop (CENT * 10) 0 p
        some (strWhole, nUnits, p)
      else if isspace c then some (strWhole, 0, c :: p)
      else if !isdigit c then none
      else wholeLoop (strWhole ++ [c]) p

/-- `ParseMoney`: what it returns, and the output argument that it leaves behind. -/
def ParseMoney (pszIn : CString) (nRet : ℤ) : Bool × ℤ :=
  match wholeLoop [] (pszIn.dropWhile isspace) with
  | none => (false, nRet)
  | some (strWhole, nUnits, p) =>
      if p.any fun c => !isspace c then (false, nRet)
      else if strWhole.length > 10 then (false, nRet)
      else if nUnits < 0 ∨ nUnits > COIN then (false, nRet)
      else
        let nWhole := atoi64 strWhole
        let nValue := int64 (int64 (nWhole * COIN) + nUnits)
        (true, nValue)

end Ziftrcoin.Spec
