import Mathlib.Algebra.Order.Floor.Defs
import Mathlib.Data.Rat.Floor
import Mathlib.Tactic.Common

/-! # The part of Python the station relies on

Exceptions, `str` methods, `int()`, and the floating-point operations of the engine.
Strings are lists of code points. -/

namespace CwStation

/-- A Python `str`, as its list of code points. -/
abbrev Str := List Char

instance instLawfulBEqStr : LawfulBEq Str := inferInstance

/-! ## Exceptions -/

/-- The exception classes an `except` clause of the modelled code tells apart, and the
builtin ones the modelled code can raise. `other` is any further subclass of
`Exception`; `base` is a `BaseException` that is not an `Exception`. -/
inductive ExcClass
  | assertionError
  | zeroDivisionError
  | valueError
  | overflowError
  | indexError
  | osError
  | rigError
  | radioError
  | other
  | base
  deriving DecidableEq, Repr

/-- An exception instance: its class and its `str()`. -/
structure PyExc where
  cls : ExcClass
  msg : String
  deriving DecidableEq, Repr

namespace PyExc

def assertion : PyExc := ⟨.assertionError, ""⟩
def zeroDivision : PyExc := ⟨.zeroDivisionError, "float division by zero"⟩
def radio (msg : String) : PyExc := ⟨.radioError, msg⟩
def listIndex : PyExc := ⟨.indexError, "list index out of range"⟩

end PyExc

/-! ## Characters and strings -/

/-- `str.isspace` of one code point, which is also `\s` of `re` and what `strip()` and
`split()` remove. -/
def isSpace (c : Char) : Bool :=
  let n := c.toNat
  (9 ≤ n && n ≤ 13) || (28 ≤ n && n ≤ 32) || n == 0x85 || n == 0xa0 || n == 0x1680 ||
    (0x2000 ≤ n && n ≤ 0x200a) || n == 0x2028 || n == 0x2029 || n == 0x202f ||
    n == 0x205f || n == 0x3000

def lstrip (s : Str) : Str := s.dropWhile isSpace

def rstrip (s : Str) : Str := (s.reverse.dropWhile isSpace).reverse

def strip (s : Str) : Str := rstrip (lstrip s)

/-- `s.endswith(" ")`. -/
def endsWithSpace (s : Str) : Bool := s.getLast? == some ' '

/-- `s.rsplit(" ", 1)[0]`: what stands before the last blank, or all of `s`. -/
def beforeLastSpace (s : Str) : Str :=
  if ' ' ∈ s then ((s.reverse.dropWhile (· != ' ')).drop 1).reverse else s

/-- The word a text starts with, empty if it starts with white space, and the words
behind it. -/
def splitFrom : Str → Str × List Str
  | [] => ([], [])
  | c :: cs =>
      let (w, ws) := splitFrom cs
      if isSpace c then ([], if w = [] then ws else w :: ws) else (c :: w, ws)

/-- `s.split()`: the maximal runs without white space. -/
def splitSpaces (s : Str) : List Str :=
  let (w, ws) := splitFrom s
  if w = [] then ws else w :: ws

example : splitSpaces " 73  de k".toList = [['7', '3'], ['d', 'e'], ['k']] := by decide

/-- `" ".join(s.split())`. -/
def collapseSpaces (s : Str) : Str := List.intercalate [' '] (splitSpaces s)

/-- The Unicode tables behind `\w`, `\d`, `int()`, `str.isdigit`, `str.upper` and
`str.lower`. The tables change with the Python release; what is fixed is that they
agree with ASCII, that decimal digits are word characters and white space is not, and
that upper-casing works one code point at a time (lower-casing does not: the final sigma
depends on context). -/
structure Unicode where
  isWord : Char → Bool
  decimal : Char → Option ℕ
  isDigit : Char → Bool
  upperChar : Char → Str
  lower : Str → Str
  isWord_ascii : ∀ c : Char, c.toNat < 128 → isWord c = (c.isAlphanum || c == '_')
  isWord_space : ∀ c, isSpace c = true → isWord c = false
  isWord_decimal : ∀ c, (decimal c).isSome = true → isWord c = true
  decimal_ascii : ∀ c : Char, c.toNat < 128 →
    decimal c = if c.isDigit then some (c.toNat - 48) else none
  isDigit_ascii : ∀ c : Char, c.toNat < 128 → isDigit c = c.isDigit
  upperChar_ascii : ∀ c : Char, c.toNat < 128 → upperChar c = [c.toUpper]
  lower_ascii : ∀ s : Str, (∀ c ∈ s, c.toNat < 128) → lower s = s.map Char.toLower

/-- `str.upper`. -/
def Unicode.upper (u : Unicode) (s : Str) : Str := s.flatMap u.upperChar

theorem upper_of_upperCase {u : Unicode} {name : Str} (h : ∀ c ∈ name, c.toNat < 128 ∧ c.toUpper = c) :
    u.upper name = name := by
  induction name with
  | nil => rfl
  | cons c name ih =>
    have hc := h c List.mem_cons_self
    have hname := ih fun d hd => h d (List.mem_cons_of_mem _ hd)
    unfold Unicode.upper at hname ⊢
    rw [List.flatMap_cons, hname, u.upperChar_ascii c hc.1, hc.2]
    rfl

theorem isUpper_iff {c : Char} : c.isUpper = true ↔ 65 ≤ c.toNat ∧ c.toNat ≤ 90 := by
  delta Char.isUpper
  simp only [decide_eq_true_eq, ge_iff_le, UInt32.le_iff_toNat_le]
  rfl

theorem isLower_iff {c : Char} : c.isLower = true ↔ 97 ≤ c.toNat ∧ c.toNat ≤ 122 := by
  delta Char.isLower
  simp only [Bool.and_eq_true, decide_eq_true_eq, ge_iff_le, UInt32.le_iff_toNat_le]
  rfl

theorem isAlpha_eq (c : Char) : c.isAlpha = (c.isUpper || c.isLower) := rfl

theorem asciiWord_space (c : Char) (h : isSpace c = true) : (c.isAlphanum || c == '_') = false := by
  by_contra hw
  simp only [isSpace, Bool.or_eq_true, Bool.and_eq_true, decide_eq_true_eq, beq_iff_eq] at h
  simp only [Char.isAlphanum, isAlpha_eq, isUpper_iff, isLower_iff, Char.isDigit,
    Bool.or_eq_true, Bool.and_eq_true, decide_eq_true_eq, beq_iff_eq, Bool.not_eq_false,
    ge_iff_le, UInt32.le_iff_toNat_le] at hw
  change (((65 ≤ c.toNat ∧ c.toNat ≤ 90) ∨ (97 ≤ c.toNat ∧ c.toNat ≤ 122)) ∨
    (48 ≤ c.toNat ∧ c.toNat ≤ 57)) ∨ c = '_' at hw
  rcases hw with hw | rfl
  · omega
  · simp at h

theorem asciiWord_decimal (c : Char)
    (h : (if c.isDigit then some (c.toNat - 48) else none).isSome = true) :
    (c.isAlphanum || c == '_') = true := by
  have hdigit : c.isDigit = true := by
    by_contra hd
    simp [hd] at h
  simp [Char.isAlphanum, hdigit]

/-- The tables of a Python that knows ASCII only. -/
def Unicode.ascii : Unicode where
  isWord c := c.isAlphanum || c == '_'
  decimal c := if c.isDigit then some (c.toNat - 48) else none
  isDigit c := c.isDigit
  upperChar c := [c.toUpper]
  lower s := s.map Char.toLower
  isWord_ascii _ _ := rfl
  isWord_space := asciiWord_space
  isWord_decimal := asciiWord_decimal
  decimal_ascii _ _ := rfl
  isDigit_ascii _ _ := rfl
  upperChar_ascii _ _ := rfl
  lower_ascii _ _ := rfl

/-! ## `int()` -/

/-- The digits of an `int()` literal: single underscores may stand between digits. The
flag says whether the previous character was a digit. -/
def intDigits (u : Unicode) : Bool → ℕ → Str → Option ℕ
  | afterDigit, acc, [] => if afterDigit then some acc else none
  | afterDigit, acc, c :: cs =>
      if c = '_' then
        if afterDigit then intDigits u false acc cs else none
      else match u.decimal c with
        | some d => intDigits u true (acc * 10 + d) cs
        | none => none

/-- `sys.get_int_max_str_digits()`, beyond which `int()` refuses to convert. -/
def maxStrDigits : ℕ := 4300

/-- One sign in front of a number, and whether it is a minus. -/
def splitSign : Str → Bool × Str
  | '-' :: ds => (true, ds)
  | '+' :: ds => (false, ds)
  | ds => (false, ds)

/-- `int(s)`: surrounding white space and one sign are allowed. -/
def pyInt (u : Unicode) (s : Str) : Except PyExc ℤ :=
  let (negative, digits) := splitSign (strip s)
  if (digits.filter fun c => (u.decimal c).isSome).length > maxStrDigits then
    .error ⟨.valueError, "Exceeds the limit (4300 digits) for integer string conversion"⟩
  else match intDigits u false 0 digits with
    | some n => .ok (if negative then -(n : ℤ) else n)
    | none => .error ⟨.valueError, "invalid literal for int() with base 10"⟩

/-- `str(n)` of an `int`. -/
def intText (n : ℤ) : Except PyExc Str :=
  let digits := Nat.toDigits 10 n.natAbs
  if digits.length > maxStrDigits then
    .error ⟨.valueError, "Exceeds the limit (4300 digits) for integer string conversion"⟩
  else .ok (if n < 0 then '-' :: digits else digits)

/-! ## Floating point -/

/-- The operations on Python floats the engine performs. No law is assumed, so what is
proved for every `PyFloat` holds of IEEE doubles, NaN included. -/
class PyFloat (F : Type) extends Add F, Sub F, Mul F, Div F, LT F, LE F, BEq F where
  /-- A literal of the source, or an `int` used as a float. -/
  lit : ℚ → F
  nan : F
  /-- `round(x, n)` for a positive number of digits. -/
  round : F → ℕ → F
  /-- `round(x)`, which fails on NaN and the infinities. -/
  roundInt : F → Except PyExc ℤ
  /-- `int(x)`, which fails on NaN and the infinities. -/
  trunc : F → Except PyExc ℤ
  decLT : DecidableLT F
  decLE : DecidableLE F

instance (priority := low) instDecidableLTPyFloat {F : Type} [PyFloat F] : DecidableLT F :=
  PyFloat.decLT

instance (priority := low) instDecidableLEPyFloat {F : Type} [PyFloat F] : DecidableLE F :=
  PyFloat.decLE

namespace PyFloat

variable {F : Type} [PyFloat F]

/-- `not x` for a float. -/
def isZero (x : F) : Bool := x == lit 0

/-- `a / b`. -/
def divide (a b : F) : Except PyExc F :=
  if isZero b then .error .zeroDivision else .ok (a / b)

/-- `max(a, b)`: the first argument unless the second is greater. -/
def max (a b : F) : F := if a < b then b else a

/-- `min(a, b)`. -/
def min (a b : F) : F := if b < a then b else a

def abs (x : F) : F := if x < lit 0 then lit 0 - x else x

end PyFloat

/-- Nearest integer, ties to the even one: Python's `round`. -/
def roundHalfEven (q : ℚ) : ℤ :=
  let f := q.floor
  let r := q - f
  if r < 1 / 2 then f
  else if 1 / 2 < r then f + 1
  else if f % 2 = 0 then f else f + 1

/-- `round(q, n)` over exact numbers. -/
def roundDigits (q : ℚ) (n : ℕ) : ℚ := roundHalfEven (q * 10 ^ n) / 10 ^ n

/-- Exact arithmetic. The rationals have no NaN; the empty median it stands for never
occurs in a run (`estimateDit` is called on at least one mark). -/
instance instPyFloatRat : PyFloat ℚ where
  toAdd := inferInstance
  toSub := inferInstance
  toMul := inferInstance
  toDiv := inferInstance
  toLT := inferInstance
  toLE := inferInstance
  toBEq := instBEqOfDecidableEq
  lit q := q
  nan := 0
  round := roundDigits
  roundInt q := .ok (roundHalfEven q)
  trunc q := .ok (if 0 ≤ q then q.floor else -(-q).floor)
  decLT := inferInstance
  decLE := inferInstance

@[simp] theorem lit_rat (q : ℚ) : (PyFloat.lit q : ℚ) = q := rfl

end CwStation
