import Mathlib
import Hecks.Lib.Text

/-! What Rust's `f64` adds to the binary64 model of the core library: the whole-number
test, the shortest decimal text of `Display`, and the reader behind `parse`. -/
open Float.Model (UnpackedFloat)

namespace Binary64

/-- `n.fract() == 0.0`: false for the infinities and NaN, whose fraction is NaN. -/
def isWhole (n : Float.Model) : Bool :=
  match n.unpack with
  | .zero _ => true
  | .finite _ m e _ => 0 ≤ e || m % 2 ^ (-e).toNat == 0
  | _ => false

/-- A positive value as a fraction of naturals. -/
structure Ratio where
  num : Nat
  den : Nat

def Ratio.ofScaled (m : Nat) (e : Int) : Ratio :=
  if 0 ≤ e then ⟨m * 2 ^ e.toNat, 1⟩ else ⟨m, 2 ^ (-e).toNat⟩

/-- `⌊r * 10 ^ k⌋` and twice the remainder against the denominator, for the rounding. -/
def Ratio.scaled (r : Ratio) (k : Int) : Nat × Ordering :=
  let num := if 0 ≤ k then r.num * 10 ^ k.toNat else r.num
  let den := if 0 ≤ k then r.den else r.den * 10 ^ (-k).toNat
  (num / den, compare (2 * (num % den)) den)

/-- How many tenfolds bring a value below one up to one or more. -/
def Ratio.lift (r : Ratio) : Nat → Nat → Nat
  | 0, j => j
  | fuel + 1, j => if r.den ≤ r.num * 10 ^ j then j else r.lift fuel (j + 1)

/-- The `p` with `10 ^ (p - 1) ≤ r < 10 ^ p`. -/
def Ratio.magnitude (r : Ratio) : Int :=
  if r.den ≤ r.num then (Nat.toDigits 10 (r.num / r.den)).length else 1 - (r.lift 400 0 : Int)

/-- The shortest digits that read back as `n`, the nearer of two candidates of one length
and the upper one on a tie; `k` digits are tried, then one more while fuel lasts. -/
def shortest (n : Float.Model) (r : Ratio) : Nat → Nat → Nat × Nat
  | 0, k => ((r.scaled (k - r.magnitude)).1, k)
  | fuel + 1, k =>
      let (d, side) := r.scaled (k - r.magnitude)
      let down := Float.Model.ofScientific d (r.magnitude - k) == n
      let up := Float.Model.ofScientific (d + 1) (r.magnitude - k) == n
      if up && (!down || side != .lt) then (d + 1, k)
      else if down then (d, k)
      else shortest n r fuel (k + 1)

/-- Digits with the decimal point after the first `p`, never an exponent. -/
def positional (digits : List Char) (p : Int) : List Char :=
  if p ≤ 0 then ['0', '.'] ++ List.replicate (-p).toNat '0' ++ digits
  else if digits.length ≤ p.toNat then digits ++ List.replicate (p.toNat - digits.length) '0'
  else digits.take p.toNat ++ ['.'] ++ digits.drop p.toNat

/-- `n.to_string()`. -/
def display (n : Float.Model) : String :=
  match n.unpack with
  | .notANumber => "NaN"
  | .infinity .positive => "inf"
  | .infinity .negative => "-inf"
  | .zero .positive => "0"
  | .zero .negative => "-0"
  | .finite s m e _ =>
      let r := Ratio.ofScaled m e
      let (d, k) := shortest n.abs r 17 1
      let digits := Nat.toDigits 10 d
      -- a round-up that carries leaves trailing zeros; `positional` pads them where they count
      let text := positional (digits.rdropWhile (· = '0')) (r.magnitude + digits.length - k)
      String.ofList (match s with | .negative => '-' :: text | .positive => text)

/-- `\x7b:e\x7d`: the shortest digits with one before the point, and the power of ten. -/
def lowerExp (n : Float.Model) : List Char :=
  match n.unpack with
  | .finite s m e _ =>
      let r := Ratio.ofScaled m e
      let (d, k) := shortest n.abs r 17 1
      let digits := Nat.toDigits 10 d
      let kept := digits.rdropWhile (· = '0')
      let mantissa := kept.take 1 ++ (if kept.length ≤ 1 then [] else '.' :: kept.drop 1)
      let exponent := (toString (r.magnitude + digits.length - k - 1)).toList
      (match s with | .negative => ['-'] | .positive => []) ++ mantissa ++ 'e' :: exponent
  | .zero .positive => "0e0".toList
  | .zero .negative => "-0e0".toList
  | .infinity .positive => "inf".toList
  | .infinity .negative => "-inf".toList
  | .notANumber => "NaN".toList

/-- `\x7b:?\x7d`: a point always, and an exponent for the very large and the very small. -/
def debug (n : Float.Model) : String :=
  let large := Float.Model.ofScientific 1 16 ≤ n.abs
  let small := n.abs < Float.Model.ofScientific 1 (-4) ∧ !(n.abs == Float.Model.ofNat 0)
  if large ∨ small then
    if n.isFinite then String.ofList (lowerExp n) else display n
  else if (display n).toList.contains '.' || n.isNaN then display n
  else display n ++ ".0"

def isSignNegative (n : Float.Model) : Bool :=
  match n.unpack with
  | .zero .negative | .finite .negative .. | .infinity .negative => true
  | _ => false

/-- `x % y`: the exact remainder, with the sign of `x`. -/
def remainder (x y : Float.Model) : Float.Model :=
  match x.unpack, y.unpack with
  | .finite s m e _, .finite _ k f _ =>
      let unit := min e f
      let rest := (m * 2 ^ (e - unit).toNat) % (k * 2 ^ (f - unit).toNat)
      if rest = 0 then .pack (.zero s)
      else .pack (UnpackedFloat.round .binary64 s rest unit)
  | .zero _, .finite .. | .zero _, .infinity _ | .finite .., .infinity _ => x
  | _, _ => .pack .notANumber

/-- The digits of a number literal: those before the point, those after it, the exponent. -/
def splitNumber (cs : List Char) : Option (List Char × List Char × Int) :=
  let isDigit := fun c => (Text.digit? c).isSome
  let whole := cs.takeWhile isDigit
  let (fraction, rest) :=
    match cs.dropWhile isDigit with
    | '.' :: ds => (ds.takeWhile isDigit, ds.dropWhile isDigit)
    | ds => ([], ds)
  if whole = [] ∧ fraction = [] then none
  else
    match rest with
    | [] => some (whole, fraction, 0)
    | c :: ds =>
        if c = 'e' ∨ c = 'E' then
          match Text.splitSign ds with
          | (_, []) => none
          | (neg, es) =>
              (Text.digitsValue es 0).map fun n =>
                (whole, fraction, if neg then -(n : Int) else n)
        else none

/-- `parse::<f64>()`. -/
def parse (s : String) : Option Float.Model :=
  let (neg, cs) := Text.splitSign s.toList
  let word := String.ofList (cs.map Char.toLower)
  let magnitude :=
    if word = "inf" ∨ word = "infinity" then some (Float.Model.pack (.infinity .positive))
    else if word = "nan" then some (Float.Model.pack .notANumber)
    else
      (splitNumber cs).bind fun (whole, fraction, exponent) =>
        (Text.digitsValue (whole ++ fraction) 0).map fun m =>
          Float.Model.ofScientific m (exponent - fraction.length)
  magnitude.map fun f => if neg then f.neg else f

end Binary64
