import BasisLU.Decimal.Shortest

/-!
# Scientific notation

The text of a double as `d.ddde-N`: one digit before the point, the point only if digits follow,
the exponent with a sign only if it is negative. `scientific` writes the shortest digits that read
back, `scientificRounded` a fixed number of places.
-/

namespace BasisLU.Decimal

/-- A decimal with one digit before the point. -/
def layout (d : Decimal) : String :=
  let text := Nat.toDigits 10 d.digits
  let mantissa := match text with
    | [] => ""
    | [first] => first.toString
    | first :: rest => first.toString ++ "." ++ String.ofList rest
  mantissa ++ "e" ++ toString (d.exponent + (text.length - 1 : Nat))

/-- A double with its sign, its special values, and the digits that `select` chooses. -/
def render (zero : String) (select : Binary → Decimal) (x : Float) : String :=
  let sign (negative : Bool) := if negative then "-" else ""
  match Binary.ofFloat x with
  | .nan => "NaN"
  | .infinite negative => sign negative ++ "inf"
  | .zero negative => sign negative ++ zero
  | .finite negative b => sign negative ++ layout (select b)

/-- The shortest text that reads back to the double. -/
def scientific (x : Float) : String := render "0e0" shortest x

/-- The places after the point of a value in the progress report. -/
def reportPlaces : Nat := 6

/-- The double rounded to `reportPlaces` places; a carry out of the first digit adds one digit, a
zero, which is taken off again. -/
def scientificRounded (x : Float) : String :=
  render ("0." ++ String.ofList (List.replicate reportPlaces '0') ++ "e0")
    (fun b =>
      let d := rounded reportPlaces b.toRat
      if digitCount d.digits = reportPlaces + 2 then ⟨d.digits / 10, d.exponent + 1⟩ else d) x

end BasisLU.Decimal
