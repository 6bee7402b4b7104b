import TinyDB.Lib.Binary64

/-!
# Decimal text

`str` of integers and doubles, `float` of a decimal text, and the few string
methods that output names are made with. Letters are the ASCII letters.
-/

namespace TinyDB.Lib

/-! ## Doubles -/

namespace Binary64

/-- `digits * 10 ^ exp10`, rounded. -/
def ofDecimal (neg : Bool) (digits : Nat) (exp10 : Int) : Binary64 :=
  if 0 ≤ exp10 then ofQuot neg (digits * 10 ^ exp10.toNat * 2 ^ 1074) 1
  else ofQuot neg (digits * 2 ^ 1074) (10 ^ (-exp10).toNat)

/-- The decimal exponent of the leading digit of `num / den`, by trial from `fuel`. -/
def leadingExponent (num den : Nat) : Nat → Int
  | 0 => -400
  | n + 1 =>
    let e : Int := (n : Int) - 400
    let reached :=
      if 0 ≤ e then decide (den * 10 ^ e.toNat ≤ num)
      else decide (den ≤ num * 10 ^ (-e).toNat)
    if reached then e else leadingExponent num den n

/-- Of the two `n`-digit decimals around `num / den`, those that read back as the
double, the nearer one first. -/
def candidates (x : Binary64) (num den : Nat) (lead : Int) (n : Nat) : List (Nat × Int) :=
  let e : Int := lead - ((n : Int) - 1)
  let (a, b) := if 0 ≤ e then (num, den * 10 ^ e.toNat) else (num * 10 ^ (-e).toNat, den)
  let q := a / b
  let near := if 2 * (a % b) < b then [(q, e), (q + 1, e)] else [(q + 1, e), (q, e)]
  near.filter fun c => decide (ofDecimal x.negative c.1 c.2 = x)

def shortestFrom (x : Binary64) (num den : Nat) (lead : Int) : Nat → Nat → Nat × Int
  | 0, _ => (0, 0)
  | fuel + 1, n =>
    match candidates x num den lead n with
    | c :: _ => c
    | [] => shortestFrom x num den lead fuel (n + 1)

def padLeft (n : Nat) (l : List Char) : List Char := List.replicate (n - l.length) '0' ++ l

/-- The digits with the point after `point` of them, or in scientific notation. -/
def layoutDigits (digits : List Char) (point : Int) : List Char :=
  if -4 < point ∧ point ≤ 16 then
    if point ≤ 0 then '0' :: '.' :: (List.replicate (-point).toNat '0' ++ digits)
    else if (digits.length : Int) ≤ point then
      digits ++ (List.replicate (point.toNat - digits.length) '0' ++ ['.', '0'])
    else digits.take point.toNat ++ ('.' :: digits.drop point.toNat)
  else
    let e := point - 1
    let mantissa := digits.take 1 ++ (if digits.length = 1 then [] else '.' :: digits.drop 1)
    mantissa ++ ('e' :: (if e < 0 then '-' else '+') :: padLeft 2 (Nat.toDigits 10 e.natAbs))

def trimZeros (digits : List Char) : List Char :=
  (digits.reverse.dropWhile (fun c => c == '0')).reverse

/-- `repr(x)`: the shortest decimal that reads back as the double. -/
def repr (x : Binary64) : List Char :=
  let sign := if x.negative then ['-'] else []
  match x.datum with
  | .nan => ['n', 'a', 'n']
  | .inf _ => sign ++ ['i', 'n', 'f']
  | .fin s =>
    if s = 0 then sign ++ ['0', '.', '0']
    else
      let num := s.natAbs
      let den := 2 ^ 1074
      let lead := leadingExponent num den 720
      let (digits, e) := shortestFrom x num den lead 17 1
      let text := Nat.toDigits 10 digits
      sign ++ layoutDigits (trimZeros text) (text.length + e)

end Binary64

/-! ## Texts -/

def lowerChars (l : List Char) : List Char := l.map Char.toLower

def isSpaceChar (c : Char) : Bool :=
  c == ' ' || c == '\t' || c == '\n' || c == '\r' || c.toNat == 11 || c.toNat == 12

def stripChars (l : List Char) : List Char :=
  ((l.dropWhile isSpaceChar).reverse.dropWhile isSpaceChar).reverse

/-- Underscores stand between digits only and are dropped. -/
def dropUnderscores : Option Char → List Char → Option (List Char)
  | prev, [] => if prev = some '_' then none else some []
  | prev, c :: l =>
    if c = '_' then
      if (prev.map Char.isDigit).getD false then dropUnderscores (some c) l else none
    else if prev = some '_' ∧ c.isDigit = false then none
    else (dropUnderscores (some c) l).map (c :: ·)

def natOfDigits (l : List Char) : Nat := l.foldl (fun n c => 10 * n + (c.toNat - 48)) 0

def splitSign : List Char → Bool × List Char
  | '+' :: l => (false, l)
  | '-' :: l => (true, l)
  | l => (false, l)

def parseExponent : List Char → Option Int
  | [] => some 0
  | c :: l =>
    if c = 'e' ∨ c = 'E' then
      let (neg, digits) := splitSign l
      if digits = [] ∨ digits.all Char.isDigit = false then none
      else some (if neg then -(natOfDigits digits : Int) else natOfDigits digits)
    else none

def parseDecimal (neg : Bool) (l : List Char) : Option Binary64 :=
  let whole := l.takeWhile Char.isDigit
  let rest := l.dropWhile Char.isDigit
  let (fraction, rest) :=
    match rest with
    | '.' :: rest => (rest.takeWhile Char.isDigit, rest.dropWhile Char.isDigit)
    | rest => ([], rest)
  if whole ++ fraction = [] then none
  else (parseExponent rest).map fun e =>
    Binary64.ofDecimal neg (natOfDigits (whole ++ fraction)) (e - fraction.length)

/-- `float(text)`; none where it raises `ValueError`. -/
def floatOfText (text : List Char) : Option Binary64 :=
  match dropUnderscores none (stripChars text) with
  | none => none
  | some l =>
    let (neg, body) := splitSign l
    let word := lowerChars body
    if word = ['i', 'n', 'f'] ∨ word = ['i', 'n', 'f', 'i', 'n', 'i', 't', 'y'] then
      some (Binary64.infinity neg)
    else if word = ['n', 'a', 'n'] then some Binary64.nan
    else parseDecimal neg body

/-- `text.startswith(start)`. -/
def startsWith (start text : List Char) : Bool := start.isPrefixOf text

/-- `text.replace(old, new)`, `old` not empty. -/
def replaceChars (old new : List Char) : Nat → List Char → List Char
  | 0, text => text
  | _ + 1, [] => []
  | fuel + 1, c :: text =>
    if old.isPrefixOf (c :: text) then new ++ replaceChars old new fuel ((c :: text).drop old.length)
    else c :: replaceChars old new fuel text

def rstripChar (c : Char) (text : List Char) : List Char :=
  (text.reverse.dropWhile (fun d => d == c)).reverse

example : Binary64.repr (Binary64.div (Binary64.ofInt 1) (Binary64.ofInt 10)) = ['0', '.', '1'] := by
  decide +kernel
example : Binary64.repr (Binary64.ofInt (10 ^ 16)) = ['1', 'e', '+', '1', '6'] := by decide +kernel
example : (floatOfText [' ', '1', '_', '0', '.', '5', 'e', '1']).map Binary64.repr =
    some ['1', '0', '5', '.', '0'] := by decide +kernel

end TinyDB.Lib
