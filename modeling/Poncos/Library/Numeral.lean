import Mathlib.Algebra.Group.Nat.Defs

/-!
Numerals in a text: the value of a run of digits, the base that its first characters
tell, and that the digits of a number read back as the number.
-/

namespace Poncos.Library.Numeral

def digitValue (base : Nat) (c : Char) : Option Nat :=
  let value :=
    if '0' ≤ c ∧ c ≤ '9' then some (c.toNat - '0'.toNat)
    else if 'a' ≤ c ∧ c ≤ 'f' then some (c.toNat - 'a'.toNat + 10)
    else if 'A' ≤ c ∧ c ≤ 'F' then some (c.toNat - 'A'.toNat + 10)
    else none
  value.filter fun value => value < base

/-- The value of the digits in front, and the text behind them. -/
def scanDigits (base : Nat) : List Char → Nat → Nat × List Char
  | [], value => (value, [])
  | c :: rest, value =>
      match digitValue base c with
      | some digit => scanDigits base rest (value * base + digit)
      | none => (value, c :: rest)

/-- At least one digit is needed. -/
def scanSomeDigits (base : Nat) : List Char → Option (Nat × List Char)
  | [] => none
  | c :: rest =>
      if (digitValue base c).isSome then some (scanDigits base (c :: rest) 0) else none

/-- A numeral whose base is told by what it starts with. -/
def scanNumeral : List Char → Option (Nat × List Char)
  | '0' :: 'x' :: rest => scanSomeDigits 16 rest
  | '0' :: 'X' :: rest => scanSomeDigits 16 rest
  | '0' :: rest => some (scanDigits 8 rest 0)
  | text => scanSomeDigits 10 text

def scanSign : List Char → Bool × List Char
  | '-' :: rest => (true, rest)
  | '+' :: rest => (false, rest)
  | text => (false, text)

/-- Where `text` goes on there is no further digit. -/
def NoDigit (base : Nat) (text : List Char) : Prop := ∀ c ∈ text.head?, digitValue base c = none

theorem noDigit_nil (base : Nat) : NoDigit base [] := by
  rintro c ⟨⟩

section Digits

variable {base : Nat}

theorem digitValue_digitChar {digit : Nat} (hdigit : digit < base) (hhex : base ≤ 16) :
    digitValue base digit.digitChar = some digit := by
  have hvalue : ∀ d < 16, digitValue 16 d.digitChar = some d := by decide
  have hsixteen := hvalue digit (by omega)
  simp only [digitValue, Option.filter_eq_some_iff] at hsixteen ⊢
  exact ⟨hsixteen.1, by simpa using hdigit⟩

theorem scanDigits_cons {c : Char} {digit : Nat} (h : digitValue base c = some digit)
    (rest : List Char) (value : Nat) :
    scanDigits base (c :: rest) value = scanDigits base rest (value * base + digit) := by
  rw [scanDigits, h]

theorem scanDigits_of_noDigit {text : List Char} (h : NoDigit base text) (value : Nat) :
    scanDigits base text value = (value, text) := by
  cases text with
  | nil => rfl
  | cons c rest => rw [scanDigits, h c rfl]

variable (hbase : 1 < base) (hhex : base ≤ 16)

include hbase hhex

theorem scanDigits_toDigits (n : Nat) (text : List Char) (value : Nat) :
    scanDigits base (Nat.toDigits base n ++ text) value =
      scanDigits base text (value * base ^ (Nat.toDigits base n).length + n) := by
  induction n using Nat.strongRecOn generalizing text value with
  | ind n ih =>
      rcases Nat.lt_or_ge n base with hn | hn
      · rw [Nat.toDigits_of_lt_base hn, List.singleton_append,
          scanDigits_cons (digitValue_digitChar hn hhex), List.length_singleton, Nat.pow_one]
      · have hless : n / base < n := Nat.div_lt_self (by omega) hbase
        have hdigit : n % base < base := Nat.mod_lt n (by omega)
        rw [Nat.toDigits_of_base_le hbase hn, List.append_assoc, ih _ hless,
          List.singleton_append, scanDigits_cons (digitValue_digitChar hdigit hhex),
          List.length_append, List.length_singleton, Nat.pow_succ, Nat.add_mul, Nat.mul_assoc,
          Nat.add_assoc, Nat.div_add_mod']

theorem isSome_of_toDigits (n : Nat) :
    ∃ c rest, Nat.toDigits base n = c :: rest ∧ (digitValue base c).isSome ∧
      (c = '0' → n = 0) := by
  induction n using Nat.strongRecOn with
  | ind n ih =>
      rcases Nat.lt_or_ge n base with hn | hn
      · refine ⟨n.digitChar, [], Nat.toDigits_of_lt_base hn, ?_, Nat.digitChar_eq_zero.mp⟩
        rw [digitValue_digitChar hn hhex]
        rfl
      · have hless : n / base < n := Nat.div_lt_self (by omega) hbase
        obtain ⟨c, rest, hdigits, hsome, hzero⟩ := ih _ hless
        refine ⟨c, rest ++ [(n % base).digitChar], ?_, hsome, fun hc => ?_⟩
        · rw [Nat.toDigits_of_base_le hbase hn, hdigits]
          rfl
        · have hpos : 0 < n / base := Nat.div_pos hn (by omega)
          have hnone := hzero hc
          omega

theorem scanSomeDigits_toDigits (n : Nat) {text : List Char} (htext : NoDigit base text) :
    scanSomeDigits base (Nat.toDigits base n ++ text) = some (n, text) := by
  obtain ⟨c, rest, hdigits, hsome, _⟩ := isSome_of_toDigits hbase hhex n
  have hscan := scanDigits_toDigits hbase hhex n text 0
  rw [hdigits, List.cons_append] at hscan
  rw [hdigits, List.cons_append, scanSomeDigits, if_pos hsome, hscan,
    scanDigits_of_noDigit htext]
  simp

end Digits

/-- Decimal digits are read as a decimal number: only zero starts with a zero. -/
theorem scanNumeral_decimal (n : Nat) :
    scanNumeral (Nat.toDigits 10 n) = some (n, []) := by
  obtain ⟨c, rest, hdigits, _, hzero⟩ := @isSome_of_toDigits 10 (by decide) (by decide) n
  rcases Classical.em (c = '0') with hc | hc
  · obtain rfl := hzero hc
    rfl
  · have hscan := @scanSomeDigits_toDigits 10 (by decide) (by decide) n _ (noDigit_nil 10)
    rw [List.append_nil] at hscan
    rw [hdigits] at hscan ⊢
    rw [scanNumeral]
    · exact hscan
    all_goals
      rintro _ h
      cases h
      exact hc rfl

theorem scanSign_digits {base n : Nat} (hbase : 1 < base) (hhex : base ≤ 16) :
    scanSign (Nat.toDigits base n) = (false, Nat.toDigits base n) := by
  obtain ⟨c, rest, hdigits, hsome, _⟩ := isSome_of_toDigits hbase hhex n
  rw [hdigits, scanSign]
  all_goals
    rintro _ h
    cases h
    simp [digitValue] at hsome

theorem digitValue_zero {base : Nat} (hbase : 0 < base) : digitValue base '0' = some 0 := by
  simp [digitValue, hbase]

theorem scanDigits_zeros {base : Nat} (hbase : 0 < base) (k : Nat) (text : List Char) :
    scanDigits base (List.replicate k '0' ++ text) 0 = scanDigits base text 0 := by
  induction k with
  | zero => rfl
  | succ k ih =>
      rw [List.replicate_succ, List.cons_append, scanDigits_cons (digitValue_zero hbase),
        Nat.zero_mul, ih]

/-- Zeros in front of the digits change nothing once the base is known. -/
theorem scanSomeDigits_padded {base : Nat} (hbase : 1 < base) (hhex : base ≤ 16) (k n : Nat) :
    scanSomeDigits base (List.replicate k '0' ++ Nat.toDigits base n) = some (n, []) := by
  have hscan := scanSomeDigits_toDigits hbase hhex n (noDigit_nil base)
  rw [List.append_nil] at hscan
  cases k with
  | zero => exact hscan
  | succ k =>
      obtain ⟨c, rest, hdigits, hsome, _⟩ := isSome_of_toDigits hbase hhex n
      rw [hdigits, scanSomeDigits, if_pos hsome] at hscan
      have hzero : (digitValue base '0').isSome = true := by
        rw [digitValue_zero (Nat.zero_lt_of_lt hbase)]
        rfl
      have hzeros := scanDigits_zeros (Nat.zero_lt_of_lt hbase) (k + 1) (Nat.toDigits base n)
      rw [List.replicate_succ, List.cons_append] at hzeros ⊢
      rw [scanSomeDigits, if_pos hzero, hzeros, hdigits]
      exact hscan

end Poncos.Library.Numeral
