/-
Module: Ziftrcoin.Spec.Text
Purpose: Characters and C strings as the parsers of text see them.
Trusted boundary: human-reviewed model of p_util_hexdigit in src/util.cpp, HexDigit in
  src/uint256.h, and of the character classes of the C locale
Main exports: CString, chars, isspace
-/
import Ziftrcoin.Spec.Bytes
import Mathlib.Data.List.TakeWhile

namespace Ziftrcoin.Spec

/-- What a `const char*` points at: the characters before the terminating NUL. -/
abbrev CString := List UInt8

/-- Characters of the source as bytes. -/
def chars (cs : List Char) : CString := cs.map fun c => UInt8.ofNat c.toNat

/-- `psz[i]`; behind the last character stands the NUL. -/
def charAt (psz : CString) (i : ℕ) : UInt8 := psz.getD i 0

def isspace (c : UInt8) : Bool := c.toNat == 32 || (decide (9 ≤ c.toNat) && decide (c.toNat ≤ 13))

def isdigit (c : UInt8) : Bool := decide (48 ≤ c.toNat) && decide (c.toNat ≤ 57)

def tolower (c : UInt8) : UInt8 := if 65 ≤ c.toNat ∧ c.toNat ≤ 90 then c + 32 else c

/-- The value of a digit character. -/
def digitValue (c : UInt8) : ℕ := c.toNat - 48

/-- `p_util_hexdigit`, of which the second half is -1 throughout. -/
def p_util_hexdigit : List ℤ :=
  [ -1,-1,-1,-1,-1,-1,-1,-1,-1,-1,-1,-1,-1,-1,-1,-1,
    -1,-1,-1,-1,-1,-1,-1,-1,-1,-1,-1,-1,-1,-1,-1,-1,
    -1,-1,-1,-1,-1,-1,-1,-1,-1,-1,-1,-1,-1,-1,-1,-1,
    0,1,2,3,4,5,6,7,8,9,-1,-1,-1,-1,-1,-1,
    -1,0xa,0xb,0xc,0xd,0xe,0xf,-1,-1,-1,-1,-1,-1,-1,-1,-1,
    -1,-1,-1,-1,-1,-1,-1,-1,-1,-1,-1,-1,-1,-1,-1,-1,
    -1,0xa,0xb,0xc,0xd,0xe,0xf,-1,-1,-1,-1,-1,-1,-1,-1,-1,
    -1,-1,-1,-1,-1,-1,-1,-1,-1,-1,-1,-1,-1,-1,-1,-1 ]

def HexDigit (c : UInt8) : ℤ := p_util_hexdigit.getD c.toNat (-1)

/-- A fact about every character is checked on the 256 of them. -/
theorem forall_char {p : UInt8 → Prop} (h : ∀ n, n < 256 → p (UInt8.ofNat n)) (c : UInt8) : p c := by
  have hc := h c.toNat c.toNat_lt
  rw [UInt8.ofNat_toNat] at hc
  exact hc

/-! ### Strings with white space around them -/

/-- Without the white space at both ends. -/
def stripSpaces (s : CString) : CString := ((s.dropWhile isspace).reverse.dropWhile isspace).reverse

/-- `body` with white space before and behind it. -/
def SpacesAround (s body : CString) : Prop :=
  ∃ before behind : CString, s = before ++ body ++ behind ∧ (∀ c ∈ before, isspace c = true) ∧
    ∀ c ∈ behind, isspace c = true

theorem dropWhile_eq_self {p : UInt8 → Bool} {s : CString} (h : ∀ c ∈ s, p c = false) :
    s.dropWhile p = s := by
  cases s with
  | nil => rfl
  | cons c s =>
      rw [List.dropWhile_cons_of_neg]
      rw [h c List.mem_cons_self]
      exact Bool.false_ne_true

/-- Behind the white space in front stands a body that has none, with white space behind it. -/
theorem dropWhile_spacesAround {s body : CString} (h : SpacesAround s body)
    (hbody : ∀ c ∈ body, isspace c = false) :
    ∃ behind : CString, (∀ c ∈ behind, isspace c = true) ∧
      s.dropWhile isspace = body ++ behind := by
  obtain ⟨before, behind, rfl, hbefore, hbehind⟩ := h
  rw [List.append_assoc, List.dropWhile_append_of_pos hbefore]
  cases body with
  | nil => exact ⟨[], List.forall_mem_nil _, List.dropWhile_eq_nil_iff.mpr hbehind⟩
  | cons c body =>
      refine ⟨behind, hbehind, ?_⟩
      rw [List.cons_append, List.dropWhile_cons_of_neg]
      rw [hbody c List.mem_cons_self]
      exact Bool.false_ne_true

/-- A string with white space around a body that has none is stripped to the body. -/
theorem stripSpaces_eq {s body : CString} (h : SpacesAround s body)
    (hbody : ∀ c ∈ body, isspace c = false) : stripSpaces s = body := by
  obtain ⟨behind, hbehind, hrest⟩ := dropWhile_spacesAround h hbody
  unfold stripSpaces
  rw [hrest, List.reverse_append,
    List.dropWhile_append_of_pos fun d hd => hbehind d (List.mem_reverse.mp hd),
    dropWhile_eq_self fun d hd => hbody d (List.mem_reverse.mp hd), List.reverse_reverse]

end Ziftrcoin.Spec
