import AnimationScope.Css.Name

/-!
# Numbers, percentages and dimensions
-/

namespace AnimationScope.Css

def digitsLength (t : Text) : Nat := (t.takeWhile Char.isDigit).length

def startsUnsigned : Text → Bool
  | '.' :: r => headIs Char.isDigit r
  | t => headIs Char.isDigit t

def isSign (c : Char) : Bool := c == '+' || c == '-'

def startsNumber : Text → Bool
  | [] => false
  | c :: r => if isSign c then startsUnsigned r else startsUnsigned (c :: r)

def fractionLength : Text → Nat
  | '.' :: r => if headIs Char.isDigit r then digitsLength r + 1 else 0
  | _ => 0

def powerLength : Text → Nat
  | [] => 0
  | c :: r =>
    if isSign c then if headIs Char.isDigit r then digitsLength r + 1 else 0
    else digitsLength (c :: r)

def exponentLength : Text → Nat
  | [] => 0
  | c :: r => if (c == 'e' || c == 'E') && 0 < powerLength r then powerLength r + 1 else 0

/-- Length of a percent sign or of the name of a unit. -/
def unitLength (t : Text) : Nat :=
  if headIs (· == '%') t then 1 else if startsIdent t then nameLength 0 t else 0

def signLength (t : Text) : Nat := if headIs isSign t then 1 else 0

/-- Length of a number together with its unit. -/
def numericLength (t : Text) : Nat :=
  let sign := signLength t
  let whole := sign + digitsLength (t.drop sign)
  let decimal := whole + fractionLength (t.drop whole)
  let number := decimal + exponentLength (t.drop decimal)
  number + unitLength (t.drop number)

end AnimationScope.Css
