import Poncos.Library.Document
import Poncos.Library.Numeral

/-!
The conversions of the scalar types: what a text stands for, and what a value is written
as.
-/

namespace Poncos.Messages

open Poncos.Library.Document
open Poncos.Library.Numeral

def toLower (c : Char) : Char := if 'A' ≤ c ∧ c ≤ 'Z' then Char.ofNat (c.toNat + 32) else c

def isLower (c : Char) : Bool := 'a' ≤ c ∧ c ≤ 'z'

def isUpper (c : Char) : Bool := 'A' ≤ c ∧ c ≤ 'Z'

/-- Upper case, lower case or capitalized. -/
def isFlexibleCase : List Char → Bool
  | [] => true
  | first :: rest =>
      (first :: rest).all isLower ||
        (isUpper first && (rest.all isLower || rest.all isUpper))

def boolOf (text : String) : Option Bool :=
  let lower := text.toList.map toLower
  if isFlexibleCase text.toList then
    if lower ∈ ["y".toList, "yes".toList, "true".toList, "on".toList] then some true
    else if lower ∈ ["n".toList, "no".toList, "false".toList, "off".toList] then some false
    else none
  else none

theorem boolOf_toString (value : Bool) : boolOf (if value then "true" else "false") =
    some value := by
  cases value <;> decide

def bool : Codec Bool where
  encode value := .scalar (if value then "true" else "false")
  decode
    | .scalar text => .ok (boolOf text)
    | _ => .ok none
  Valid _ := True
  decode_encode value _ := congrArg Except.ok (boolOf_toString value)
  valid_of_decode _ _ _ := trivial

def isSpace (c : Char) : Bool := c = ' ' ∨ ('\t' ≤ c ∧ c ≤ '\r')

/-- The value of a text in an unsigned type: digits that tell their base, after a sign
that is taken modulo the range, and nothing but spaces behind them. -/
def unsignedOf (bits : Nat) (text : String) : Option Nat := do
  let (negative, text) := scanSign text.toList
  let (value, rest) ← scanNumeral text
  if value < 2 ^ bits ∧ rest.all isSpace = true then
    some (if negative then (2 ^ bits - value) % 2 ^ bits else value)
  else none

theorem unsignedOf_toString {bits n : Nat} (hn : n < 2 ^ bits) :
    unsignedOf bits (toString n) = some n := by
  have hsign := @scanSign_digits 10 n (by decide) (by decide)
  simp [unsignedOf, hsign, scanNumeral_decimal, hn]

theorem lt_of_unsignedOf {bits n : Nat} {text : String} (h : unsignedOf bits text = some n) :
    n < 2 ^ bits := by
  simp only [unsignedOf, Option.bind_eq_bind, Option.bind_eq_some_iff] at h
  obtain ⟨scanned, _, h⟩ := h
  split at h
  · rename_i hvalue
    cases h
    split
    · exact Nat.mod_lt _ (Nat.two_pow_pos bits)
    · exact hvalue.1
  · cases h

/-- An unsigned type of the given width. -/
def unsigned (bits : Nat) : Codec Nat where
  encode n := .scalar (toString n)
  decode
    | .scalar text => .ok (unsignedOf bits text)
    | _ => .ok none
  Valid n := n < 2 ^ bits
  decode_encode _ hn := congrArg Except.ok (unsignedOf_toString hn)
  valid_of_decode node n h := by
    cases node with
    | scalar text => exact lt_of_unsignedOf (Except.ok.inj h)
    | _ => cases h

end Poncos.Messages
