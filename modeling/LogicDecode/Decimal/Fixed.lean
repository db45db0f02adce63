import LogicDecode.Decimal.Binary

/-!
# Fixed places

A double with a fixed number of digits after the point. The exact value is rounded, and a tie goes
to the even neighbour.
-/

namespace LogicDecode

/-- The natural number next to `num / den`, the even one on a tie. -/
def roundDiv (num den : Nat) : Nat :=
  let k := num / den
  let twice := 2 * (num % den)
  if twice < den then k else if den < twice then k + 1 else k + k % 2

/-- The digits of `n / 10 ^ places`. -/
def fixedPoint (n places : Nat) : String :=
  let digits := decimalDigits n
  let padded := List.replicate (places + 1 - digits.length) '0' ++ digits
  String.ofList (padded.take (padded.length - places)) ++ "." ++
    String.ofList (padded.drop (padded.length - places))

def fixedPlaces (places : Nat) (x : Float) : String :=
  match Binary.ofFloat x with
  | .nan => "NaN"
  | .infinite negative => if negative then "-inf" else "inf"
  | .finite negative m q =>
    let (num, den) := fraction m q places
    (if negative then "-" else "") ++ fixedPoint (roundDiv num den) places

/-- The text with blanks in front of it up to a width in characters. -/
def alignRight (width : Nat) (s : String) : String :=
  String.ofList (List.replicate (width - s.length) ' ') ++ s

theorem roundDiv_near (num den : Nat) (h : 0 < den) :
    2 * num ≤ (2 * roundDiv num den + 1) * den ∧ 2 * roundDiv num den * den ≤ 2 * num + den := by
  have hdiv := Nat.div_add_mod num den
  have hlt := Nat.mod_lt num h
  unfold roundDiv
  generalize num / den = k at *
  generalize num % den = r at *
  subst hdiv
  have e1 : (2 * k + 1) * den = 2 * (den * k) + den := by grind
  have e2 : 2 * k * den = 2 * (den * k) := by grind
  have e3 : (2 * (k + 1) + 1) * den = 2 * (den * k) + 3 * den := by grind
  have e4 : 2 * (k + 1) * den = 2 * (den * k) + 2 * den := by grind
  simp only
  split
  · omega
  · split
    · omega
    · rcases Nat.mod_two_eq_zero_or_one k with h2 | h2 <;> rw [h2]
      · simp only [Nat.add_zero]; omega
      · omega

end LogicDecode
