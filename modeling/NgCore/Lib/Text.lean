/-
# NgCore.Lib.Text — bytes and numbers as text

Hexadecimal byte strings and decimal numbers, written the one canonical way and read the usual liberal way:
either case of hex digits, an optional sign and leading zeros in a decimal. Reading inverts writing.
-/
import Mathlib.Data.List.Basic

namespace Lib.Text

/-! ## §1 — hexadecimal -/

/-- **`hexDigit`** — the lower-case digit of a number below sixteen. -/
def hexDigit (n : Nat) : Char := "0123456789abcdef".toList.getD n '0'

/-- **`hexValue`** — what a digit of either case stands for. -/
def hexValue (c : Char) : Option Nat :=
  if '0' ≤ c ∧ c ≤ '9' then some (c.toNat - '0'.toNat)
  else if 'a' ≤ c ∧ c ≤ 'f' then some (c.toNat - 'a'.toNat + 10)
  else if 'A' ≤ c ∧ c ≤ 'F' then some (c.toNat - 'A'.toNat + 10)
  else none

/-- **`hexEncode`** — two digits a byte, high half first. -/
def hexEncode (b : List UInt8) : List Char :=
  b.flatMap fun x => [hexDigit (x.toNat / 16), hexDigit (x.toNat % 16)]

/-- **`hexDecode`** — `none` on an odd length or a strange character. -/
def hexDecode : List Char → Option (List UInt8)
  | [] => some []
  | [_] => none
  | hi :: lo :: rest => do
    let h ← hexValue hi
    let l ← hexValue lo
    let bytes ← hexDecode rest
    return UInt8.ofNat (16 * h + l) :: bytes

theorem hexValue_hexDigit : ∀ {n : Nat}, n < 16 → hexValue (hexDigit n) = some n := by decide

@[simp] theorem hexDecode_hexEncode (b : List UInt8) : hexDecode (hexEncode b) = some b := by
  induction b with
  | nil => rfl
  | cons x b ih =>
    have hlt := x.toNat_lt
    have hbyte : UInt8.ofNat (16 * (x.toNat / 16) + x.toNat % 16) = x := by
      rw [Nat.div_add_mod, UInt8.ofNat_toNat]
    show hexDecode (hexDigit (x.toNat / 16) :: hexDigit (x.toNat % 16) :: hexEncode b) = some (x :: b)
    rw [hexDecode, hexValue_hexDigit (by omega), hexValue_hexDigit (by omega), ih]
    exact congrArg (fun y => some (y :: b)) hbyte

/-! ## §2 — decimal -/

/-- **`decValue`** — what a decimal digit stands for. -/
def decValue (c : Char) : Option Nat := if '0' ≤ c ∧ c ≤ '9' then some (c.toNat - '0'.toNat) else none

/-- The digits of `n` in front of `acc`; `fuel` bounds their number. -/
def decAux : (fuel n : Nat) → (acc : List Char) → List Char
  | 0, _, acc => acc
  | fuel + 1, n, acc => if n = 0 then acc else decAux fuel (n / 10) (hexDigit (n % 10) :: acc)

/-- **`decEncode`** — the decimal digits, without leading zeros. -/
def decEncode (n : Nat) : List Char := if n = 0 then ['0'] else decAux n n []

/-- Read digits on top of a value. -/
def decRead : (value : Nat) → List Char → Option Nat
  | value, [] => some value
  | value, c :: rest => (decValue c).bind fun d => decRead (10 * value + d) rest

/-- **`decDecode`** — an optional sign and at least one digit. -/
def decDecode : List Char → Option Int
  | [] => none
  | c :: rest =>
    if c = '-' ∨ c = '+' then
      if rest = [] then none
      else (decRead 0 rest).map fun n => if c = '-' then -(n : Int) else n
    else (decRead 0 (c :: rest)).map fun n => (n : Int)

theorem decValue_hexDigit : ∀ {d : Nat}, d < 10 → decValue (hexDigit d) = some d := by decide

theorem decRead_decAux {fuel n : Nat} (h : n ≤ fuel) (acc : List Char) :
    decRead 0 (decAux fuel n acc) = decRead n acc := by
  induction fuel generalizing n acc with
  | zero =>
    obtain rfl : n = 0 := by omega
    rfl
  | succ fuel ih =>
    rw [decAux]
    split
    · next hzero => rw [hzero]
    · rw [ih (by omega), decRead, decValue_hexDigit (by omega), Option.bind_some, Nat.div_add_mod]

@[simp] theorem decDecode_decEncode (n : Nat) : decDecode (decEncode n) = some (n : Int) := by
  have hread : decRead 0 (decEncode n) = some n := by
    unfold decEncode
    split
    · next hzero => rw [hzero]; rfl
    · exact decRead_decAux (Nat.le_refl n) []
  cases hcs : decEncode n with
  | nil =>
    -- only zero reads as zero, and it has a digit
    rw [hcs] at hread
    obtain rfl := Option.some.inj hread
    cases hcs
  | cons c rest =>
    rw [hcs] at hread
    -- a sign is no digit
    have hsign : ¬ (c = '-' ∨ c = '+') := by
      rintro (rfl | rfl) <;> cases hread
    rw [decDecode, if_neg hsign, hread]
    rfl

end Lib.Text
