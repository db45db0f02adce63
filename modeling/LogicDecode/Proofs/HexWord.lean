import LogicDecode.Protocol.Line
import Mathlib.Tactic.Ring

/-!
# Words in hexadecimal digits

`hexWord` writes a value that fits into `bits` bits with exactly `(bits + 3) / 4` upper-case digits,
leading zeros included (`toList_hexWord`).
-/

namespace LogicDecode

def hexDigit (n : Nat) : Char :=
  ['0', '1', '2', '3', '4', '5', '6', '7', '8', '9', 'A', 'B', 'C', 'D', 'E', 'F'].getD n '0'

/-- The last `n` hexadecimal digits of a value, the most significant one first. -/
def hexDigits : Nat → Nat → List Char
  | 0, _ => []
  | n + 1, value => hexDigits n (value / 16) ++ [hexDigit (value % 16)]

@[simp] theorem length_hexDigits (n value : Nat) : (hexDigits n value).length = n := by
  induction n generalizing value with
  | zero => rfl
  | succ n ih => simp [hexDigits, ih]

theorem hexDigits_zero (n : Nat) : hexDigits n 0 = List.replicate n '0' := by
  induction n with
  | zero => rfl
  | succ n ih =>
    rw [hexDigits, Nat.zero_div, ih, List.replicate_succ']
    rfl

theorem toUpper_digitChar : ∀ n < 16, (Nat.digitChar n).toUpper = hexDigit n := by decide

/-- Digits with zeros in front of them, up to `n` of them. -/
theorem pad_toDigits {n value : Nat} (hn : 0 < n) (hv : value < 16 ^ n) :
    List.replicate (n - (Nat.toDigits 16 value).length) '0' ++
      (Nat.toDigits 16 value).map Char.toUpper = hexDigits n value := by
  induction n generalizing value with
  | zero => omega
  | succ n ih =>
    by_cases hlt : value < 16
    · rw [Nat.toDigits_of_lt_base hlt, hexDigits, Nat.div_eq_of_lt hlt, Nat.mod_eq_of_lt hlt,
        hexDigits_zero]
      simp [toUpper_digitChar value hlt]
    · have hge : 16 ≤ value := by omega
      have hdiv : value / 16 < 16 ^ n := by
        rw [Nat.div_lt_iff_lt_mul (by decide)]
        rwa [Nat.pow_succ] at hv
      have hpos : 0 < n := by
        refine Nat.pos_of_ne_zero fun h => ?_
        subst h
        simp only [Nat.zero_add, Nat.pow_one] at hv
        omega
      have hmod : value % 16 < 16 := Nat.mod_lt _ (by decide)
      rw [Nat.toDigits_of_base_le (by decide) hge, hexDigits, ← ih hpos hdiv]
      simp [toUpper_digitChar _ hmod, List.append_assoc]

theorem toList_hexWord {bits value : Nat} (hb : 0 < bits) (hv : value < 16 ^ ((bits + 3) / 4)) :
    (hexWord value bits).toList = hexDigits ((bits + 3) / 4) value := by
  have hn : 0 < (bits + 3) / 4 := by omega
  rw [← pad_toDigits hn hv, hexWord]
  simp only [String.toList_ofList, List.length_map]
  rw [Nat.max_eq_right hn]

theorem hexWord_eq {bits value : Nat} (hb : 0 < bits) (hv : value < 16 ^ ((bits + 3) / 4)) :
    hexWord value bits = String.ofList (hexDigits ((bits + 3) / 4) value) := by
  rw [← toList_hexWord hb hv, String.ofList_toList]

end LogicDecode
