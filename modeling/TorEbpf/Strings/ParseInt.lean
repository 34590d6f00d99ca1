import Mathlib
import TorEbpf.Lib.Decimal

/-!
# Reading integers

`tor_parse_long` and its siblings of `parse_int.c`, in base ten: what `strtol` and `strtoul` read at the
start of a string, and the checks on the result.
-/

namespace TorEbpf.Strings

open TorEbpf.Lib

def isSpace (c : UInt8) : Bool := c = 32 || (9 ≤ c && c ≤ 13)

def sign : List UInt8 → Bool × List UInt8
  | 0x2d :: t => (true, t)
  | 0x2b :: t => (false, t)
  | t => (false, t)

/-- Sign, digits and rest: what the `strto` functions convert; nothing if there are no digits. -/
def strtoNumber (s : List UInt8) : Option (Bool × ℕ × List UInt8) :=
  let (negative, t) := sign (s.dropWhile isSpace)
  (readDecimal t).map fun (v, rest) => (negative, v, rest)

/-- `tor_parse_long`: the value and where it ends; nothing is an error. -/
def torParseLong (s : List UInt8) (min max : ℤ) : Option (ℤ × List UInt8) :=
  match strtoNumber s with
  | none => none
  | some (negative, v, rest) =>
      let r : ℤ := if negative then -v else v
      if r < -2 ^ 63 ∨ 2 ^ 63 ≤ r then none
      else if r < min ∨ max < r then none
      else some (r, rest)

theorem torParseLong_range {s rest : List UInt8} {min max v : ℤ}
    (h : torParseLong s min max = some (v, rest)) : min ≤ v ∧ v ≤ max := by
  unfold torParseLong at h
  cases hn : strtoNumber s with
  | none =>
    rw [hn] at h
    cases h
  | some n =>
    rw [hn] at h
    dsimp only at h
    generalize (if n.1 then -(n.2.1 : ℤ) else (n.2.1 : ℤ)) = r at h
    split_ifs at h with _ hrange
    cases h
    omega

/-- `tor_parse_ulong` and `tor_parse_uint64`: a minus sign negates modulo `2 ^ 64`. -/
def torParseUlong (s : List UInt8) (min max : ℕ) : Option (ℕ × List UInt8) :=
  match strtoNumber s with
  | none => none
  | some (negative, v, rest) =>
      if 2 ^ 64 ≤ v then none
      else
        let r := if negative then (2 ^ 64 - v) % 2 ^ 64 else v
        if r < min ∨ max < r then none else some (r, rest)

/-- A number that has to be the whole string; 0 is an error. -/
def wholeLong (s : List UInt8) (min max : ℤ) : ℤ :=
  match torParseLong s min max with
  | some (v, []) => v
  | _ => 0

/-- A number that has to be the whole string; 0 is an error. -/
def wholeUlong (s : List UInt8) (min max : ℕ) : ℕ :=
  match torParseUlong s min max with
  | some (v, []) => v
  | _ => 0

end TorEbpf.Strings
