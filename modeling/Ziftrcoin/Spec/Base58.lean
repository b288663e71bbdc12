/-
Module: Ziftrcoin.Spec.Base58
Purpose: Byte strings as text in base 58, without and with a checksum.
Trusted boundary: human-reviewed model of DecodeBase58, EncodeBase58, EncodeBase58Check and
  DecodeBase58Check in src/base58.cpp.  Hash is a parameter; lengths and the counters of
  leading zeros are unbounded
Main exports: EncodeBase58, DecodeBase58, EncodeBase58Check
-/
import Ziftrcoin.Spec.Text

namespace Ziftrcoin.Spec

/-- All alphanumeric characters except for "0", "I", "O", and "l". -/
def pszBase58 : CString :=
  chars "123456789ABCDEFGHJKLMNPQRSTUVWXYZabcdefghijkmnopqrstuvwxyz".toList

/-- The loop of "b = b * mul + carry" from the last digit back; the digits have the last one
first here. -/
def carryLoop (mul base : ℕ) : (carry : ℕ) → valtype → valtype × ℕ
  | carry, [] => ([], carry)
  | carry, b :: bs =>
      let carry := carry + mul * b.toNat
      let (bs, carry') := carryLoop mul base (carry / base) bs
      (UInt8.ofNat (carry % base) :: bs, carry')

/-- "b = b * mul + carry", and what is carried out of it. -/
def multiplyAdd (mul base carry : ℕ) (b : valtype) : valtype × ℕ :=
  let (bs, carry) := carryLoop mul base carry b.reverse
  (bs.reverse, carry)

/-- The loop over the characters of `DecodeBase58`, and where it stops; nothing where an
assertion fails, and no digits where a character is none. -/
def decodeLoop58 : (b256 : valtype) → (psz : CString) → Option (Option (valtype × CString))
  | b256, [] => some (some (b256, []))
  | b256, c :: psz =>
      if isspace c then some (some (b256, c :: psz))
      else match pszBase58.idxOf? c with
        | none => some none
        | some digit =>
            let (b256, carry) := multiplyAdd 58 256 digit b256
            if carry = 0 then decodeLoop58 b256 psz else none

/-- `DecodeBase58`: what it returns, and the output vector that it leaves behind; nothing
where an assertion fails. -/
def DecodeBase58 (psz : CString) (vch : valtype) : Option (Bool × valtype) :=
  let psz := psz.dropWhile isspace
  let zeroes := (psz.takeWhile (· == 49)).length
  let psz := psz.dropWhile (· == 49)
  let b256 := List.replicate (psz.length * 733 / 1000 + 1) 0
  match decodeLoop58 b256 psz with
  | none => none
  | some none => some (false, vch)
  | some (some (b256, psz)) =>
      let psz := psz.dropWhile isspace
      if psz ≠ [] then some (false, vch)
      else some (true, List.replicate zeroes 0 ++ b256.dropWhile (· == 0))

/-- The loop over the bytes of `EncodeBase58`; nothing where an assertion fails. -/
def encodeLoop58 : (b58 : valtype) → valtype → Option valtype
  | b58, [] => some b58
  | b58, byte :: bytes =>
      let (b58, carry) := multiplyAdd 256 58 byte.toNat b58
      if carry = 0 then encodeLoop58 b58 bytes else none

def EncodeBase58 (vch : valtype) : Option CString :=
  let zeroes := (vch.takeWhile (· == 0)).length
  let vch := vch.dropWhile (· == 0)
  let b58 := List.replicate (vch.length * 138 / 100 + 1) 0
  match encodeLoop58 b58 vch with
  | none => none
  | some b58 =>
      some (List.replicate zeroes 49 ++ (b58.dropWhile (· == 0)).map fun d => charAt pszBase58 d.toNat)

section Check

variable (Hash : valtype → uint256)

/-- The first four bytes of the hash in memory. -/
def checksum58 (vch : valtype) : valtype := (leBytes 32 (Hash vch)).take 4

def EncodeBase58Check (vchIn : valtype) : Option CString :=
  EncodeBase58 (vchIn ++ checksum58 Hash vchIn)

def DecodeBase58Check (psz : CString) (vchRet : valtype) : Option (Bool × valtype) :=
  match DecodeBase58 psz vchRet with
  | none => none
  | some (fDecoded, vchRet) =>
      if ¬ fDecoded ∨ vchRet.length < 4 then some (false, [])
      else
        let vchData := vchRet.take (vchRet.length - 4)
        if checksum58 Hash vchData ≠ vchRet.drop (vchRet.length - 4) then some (false, [])
        else some (true, vchData)

end Check

end Ziftrcoin.Spec
