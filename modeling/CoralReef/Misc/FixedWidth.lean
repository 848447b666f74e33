import CoralReef.Misc.Fault

/-!
# Unsigned arithmetic of a width

The operators of an unsigned type on numbers below `2 ^ w`. A debug build panics where the result
does not fit; another build wraps around. Division by zero panics in both.
-/

namespace CoralReef.FixedWidth

/-- A result that has to fit. -/
def fit (w : Nat) (debug : Bool) (exactly wrapped : Nat) (message : String) : Except Fault Nat :=
  if exactly < 2 ^ w then .ok exactly
  else if debug then .error (.panic message)
  else .ok wrapped

/-- `a as uN`. -/
def narrow (w a : Nat) : Nat := a % 2 ^ w

def add (w : Nat) (debug : Bool) (a b : Nat) : Except Fault Nat :=
  fit w debug (a + b) ((a + b) % 2 ^ w) "attempt to add with overflow"

def mul (w : Nat) (debug : Bool) (a b : Nat) : Except Fault Nat :=
  fit w debug (a * b) (a * b % 2 ^ w) "attempt to multiply with overflow"

def sub (w : Nat) (debug : Bool) (a b : Nat) : Except Fault Nat :=
  if b ≤ a then .ok (a - b)
  else if debug then .error (.panic "attempt to subtract with overflow")
  else .ok ((a + 2 ^ w - b) % 2 ^ w)

def div (a b : Nat) : Except Fault Nat :=
  if b = 0 then .error (.panic "attempt to divide by zero") else .ok (a / b)

/-- `next_multiple_of`. -/
def nextMultipleOf (w : Nat) (debug : Bool) (a m : Nat) : Except Fault Nat :=
  if m = 0 then .error (.panic "attempt to calculate the remainder with a divisor of zero")
  else if a % m = 0 then .ok a
  else add w debug a (m - a % m)

/-- The least multiple of `m` from `a` on. -/
def roundUp (a m : Nat) : Nat := (a + (m - 1)) / m * m

variable {w : Nat}

theorem narrow_eq_self {a : Nat} : narrow w a = a ↔ a < 2 ^ w := by
  constructor
  · intro same
    rw [← same]
    exact Nat.mod_lt _ (Nat.two_pow_pos w)
  · exact fun fits => Nat.mod_eq_of_lt fits

/-- Both builds agree where the result fits. -/
theorem fit_ok {exactly : Nat} (fits : exactly < 2 ^ w) (debug : Bool) (wrapped : Nat)
    (message : String) : fit w debug exactly wrapped message = .ok exactly := if_pos fits

/-- A debug build returns exactly the results that fit. -/
theorem fit_debug {exactly wrapped c : Nat} {message : String} :
    fit w true exactly wrapped message = .ok c ↔ exactly < 2 ^ w ∧ c = exactly := by
  by_cases fits : exactly < 2 ^ w
  · simp [fit, fits, eq_comm]
  · simp [fit, fits]

theorem mul_ok {a b : Nat} (fits : a * b < 2 ^ w) (debug : Bool) :
    mul w debug a b = .ok (a * b) := fit_ok fits debug _ _

theorem mul_debug {a b c : Nat} : mul w true a b = .ok c ↔ a * b < 2 ^ w ∧ c = a * b := fit_debug

theorem add_ok {a b : Nat} (fits : a + b < 2 ^ w) (debug : Bool) :
    add w debug a b = .ok (a + b) := fit_ok fits debug _ _

theorem sub_ok {a b : Nat} (le : b ≤ a) (debug : Bool) : sub w debug a b = .ok (a - b) := if_pos le

theorem sub_debug {a b c : Nat} : sub w true a b = .ok c ↔ b ≤ a ∧ c = a - b := by
  by_cases le : b ≤ a
  · simp [sub, le, eq_comm]
  · simp [sub, le]

theorem div_ok {a b : Nat} (positive : 0 < b) : div a b = .ok (a / b) := if_neg (Nat.ne_of_gt positive)

theorem div_returns {a b c : Nat} : div a b = .ok c ↔ 0 < b ∧ c = a / b := by
  by_cases zero : b = 0
  · simp [div, zero]
  · have positive : 0 < b := Nat.pos_of_ne_zero zero
    simp [div, zero, positive, eq_comm]

/-- Rounding up adds what is missing. -/
theorem roundUp_eq {a m : Nat} (positive : 0 < m) :
    roundUp a m = if a % m = 0 then a else a + (m - a % m) := by
  have split := Nat.div_add_mod a m
  have less := Nat.mod_lt a positive
  have quotient : (a + (m - 1)) / m = if a % m = 0 then a / m else a / m + 1 := by
    split_ifs with whole
    · have bounds : a + (m - 1) = (m - 1) + a / m * m := by
        rw [Nat.mul_comm]
        omega
      rw [bounds, Nat.add_mul_div_right _ _ positive, Nat.div_eq_of_lt (by omega), Nat.zero_add]
    · have bounds : a + (m - 1) = (a % m - 1) + (a / m + 1) * m := by
        rw [Nat.add_mul, Nat.one_mul, Nat.mul_comm]
        omega
      rw [bounds, Nat.add_mul_div_right _ _ positive, Nat.div_eq_of_lt (by omega), Nat.zero_add]
  rw [roundUp, quotient]
  split_ifs with whole
  · rw [Nat.mul_comm]
    omega
  · rw [Nat.add_mul, Nat.one_mul, Nat.mul_comm]
    omega

theorem nextMultipleOf_ok {a m : Nat} (positive : 0 < m) (fits : roundUp a m < 2 ^ w)
    (debug : Bool) : nextMultipleOf w debug a m = .ok (roundUp a m) := by
  rw [roundUp_eq positive] at fits ⊢
  rw [nextMultipleOf, if_neg (Nat.ne_of_gt positive)]
  split_ifs at fits ⊢ with whole
  · rfl
  · exact add_ok fits debug

theorem nextMultipleOf_debug {a m c : Nat} (small : a < 2 ^ w) (positive : 0 < m) :
    nextMultipleOf w true a m = .ok c ↔ roundUp a m < 2 ^ w ∧ c = roundUp a m := by
  rw [roundUp_eq positive, nextMultipleOf, if_neg (Nat.ne_of_gt positive)]
  split_ifs with whole
  · simp [small, eq_comm]
  · exact fit_debug

end CoralReef.FixedWidth
